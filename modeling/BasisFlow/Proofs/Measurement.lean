import BasisFlow.Proofs.Probability
import BasisFlow.Proofs.Unitarity

namespace BasisFlow

open Amplitude

namespace BasisState

/-- The other state of the same basis. -/
def opposite (s : BasisState) : BasisState :=
  Transfer.apply .bitPhaseFlip s

/-- A known state and its opposite are a basis. -/
theorem amp_complete {s : BasisState} (hs : s ≠ .unknown) (b c : Bool) :
    (s.amp b * s.amp c + s.opposite.amp b * s.opposite.amp c : ℂ) = if b = c then 1 else 0 := by
  have hhalf := rootHalf_mul_self
  have hone : (rootHalf : ℂ) * rootHalf + rootHalf * rootHalf = 1 := by
    linear_combination 2 * hhalf
  cases s with
  | unknown => exact absurd rfl hs
  | _ =>
    cases b <;> cases c <;>
      simp [opposite, Transfer.apply, Transfer.flipPhase, Transfer.flipBit, amp, hone]

variable {s : BasisState} (hs : s ≠ .unknown) (a : Bool → ℂ)

include hs

theorem amp_mul_overlap (b : Bool) :
    s.amp b * Register.overlap s (a false) (a true) +
      s.opposite.amp b * Register.overlap s.opposite (a false) (a true) = a b := by
  have hfalse := amp_complete hs b false
  have htrue := amp_complete hs b true
  rw [overlap_eq, overlap_eq]
  cases b with
  | false =>
    simp only [Bool.false_eq_true, if_true, if_false] at hfalse htrue
    linear_combination a false * hfalse + a true * htrue
  | true =>
    simp only [Bool.true_eq_false, if_true, if_false] at hfalse htrue
    linear_combination a false * hfalse + a true * htrue

theorem weight_overlap_add :
    Register.weight (Register.overlap s (a false) (a true)) +
        Register.weight (Register.overlap s.opposite (a false) (a true)) =
      Register.weight (a false) + Register.weight (a true) := by
  have hfalse := amp_mul_overlap hs a false
  have htrue := amp_mul_overlap hs a true
  have hconj : ∀ t : BasisState, (conj (Register.overlap t (a false) (a true)) : ℂ) =
      t.amp false * conj (a false) + t.amp true * conj (a true) := by
    intro t
    rw [overlap_eq, conj_add, conj_mul, conj_mul, conj_amp, conj_amp]
  simp only [Register.weight, hconj]
  linear_combination conj (a false) * hfalse + conj (a true) * htrue

end BasisState

theorem weight_eq_normSq (z : ℂ) : Register.weight z = ((Complex.normSq z : ℝ) : ℂ) :=
  Complex.normSq_eq_conj_mul_self.symm

theorem eq_zero_of_sum_weight {N : Nat} {F : Nat → ℂ}
    (h : ∑ k ∈ Finset.range N, Register.weight (F k) = 0) {k : Nat} (hk : k < N) : F k = 0 := by
  simp only [weight_eq_normSq] at h
  rw [← Complex.ofReal_sum, Complex.ofReal_eq_zero] at h
  have hall := (Finset.sum_eq_zero_iff_of_nonneg fun k _ => Complex.normSq_nonneg (F k)).mp h
  exact Complex.normSq_eq_zero.mp (hall k (Finset.mem_range.mpr hk))

section Share

variable {n : Nat} {w : Wire} {s : BasisState} {ψ : Nat → ℂ} (hs : s ≠ .unknown) (hw : w < n)

include hs hw

theorem share_add_opposite : share n ψ w s + share n ψ w s.opposite = total n ψ := by
  apply mul_left_cancel₀ (two_ne_zero (α := ℂ))
  rw [mul_add, two_mul_share hw, two_mul_share hw, two_mul_total hw, ← Finset.sum_add_distrib]
  apply Finset.sum_congr rfl
  intro k _
  exact BasisState.weight_overlap_add hs fun b => ψ (assign k w b)

/-- The state of a wire is known if no part of the norm is in the opposite state. -/
theorem factors_of_share (hzero : ∀ k, 2 ^ n ≤ k → ψ k = 0) (h : share n ψ w s = total n ψ) :
    Factors ψ w s := by
  have hnone : share n ψ w s.opposite = 0 := by
    linear_combination share_add_opposite (ψ := ψ) hs hw - h
  have hsum := two_mul_share (ψ := ψ) (s := s.opposite) hw
  rw [hnone, mul_zero] at hsum
  have hoverlap : ∀ k, Register.overlap s.opposite (ψ (assign k w false))
      (ψ (assign k w true)) = 0 := by
    intro k
    by_cases hk : k < 2 ^ n
    · exact eq_zero_of_sum_weight hsum.symm hk
    · -- beyond the register, a change of the wire stays beyond it
      have hout : ∀ b, ψ (assign k w b) = 0 := by
        intro b
        apply hzero
        rw [← Nat.not_lt, assign, put_lt_iff (List.nodup_singleton w) (by simpa using hw)]
        exact hk
      rw [BasisState.overlap_eq, hout, hout, mul_zero, mul_zero, add_zero]
  refine ⟨fun k => Register.overlap s (ψ (assign k w false)) (ψ (assign k w true)), ?_, ?_⟩
  · intro k b
    simp only [assign_assign]
  · intro k
    have hsplit := BasisState.amp_mul_overlap hs (fun b => ψ (assign k w b)) (k.testBit w)
    simp only [hoverlap, mul_zero, add_zero, assign_testBit] at hsplit
    exact hsplit.symm

end Share

namespace Register

theorem dot_self_eq_total {r : Register ℂ} (hr : r.Full) :
    r.dot r = total r.qubits r.amplitude :=
  dot_eq_pairing hr hr rfl

theorem dot_self_eq_norm {r : Register ℂ} (hr : r.Full) :
    r.dot r = ((∑ k ∈ Finset.range (2 ^ r.qubits), ‖r.amplitude k‖ ^ 2 : ℝ) : ℂ) := by
  rw [dot_self_eq_total hr, total, Complex.ofReal_sum]
  apply Finset.sum_congr rfl
  intro k _
  rw [weight_eq_normSq, Complex.normSq_eq_norm_sq]

/-- The probabilities of both states of a basis add up to the squared norm, and the probability of
a known state is all of it exactly if the wire is in this state, apart from the other wires. -/
theorem probability_decides {r : Register ℂ} (hr : r.Full) {w : Wire} (hw : w < r.qubits) :
    (∃ zero one plus minus, r.probability? w .zero = some zero ∧
      r.probability? w .one = some one ∧ r.probability? w .plus = some plus ∧
      r.probability? w .minus = some minus ∧
      zero + one = r.dot r ∧ plus + minus = r.dot r) ∧
    r.dot r = ((∑ k ∈ Finset.range (2 ^ r.qubits), ‖r.amplitude k‖ ^ 2 : ℝ) : ℂ) ∧
    ∀ s, s ≠ .unknown →
      (r.probability? w s = some (r.dot r) ↔ Factors r.amplitude w s) := by
  have hfound : ∀ s, s ≠ .unknown →
      r.probability? w s = some (share r.qubits r.amplitude w s) :=
    fun s hs => probability_eq_share hs hr hw
  have htotal := dot_self_eq_total hr
  refine ⟨?_, dot_self_eq_norm hr, ?_⟩
  · refine ⟨_, _, _, _, hfound .zero (by decide), hfound .one (by decide),
      hfound .plus (by decide), hfound .minus (by decide), ?_, ?_⟩
    · exact (share_add_opposite (s := .zero) (by decide) hw).trans htotal.symm
    · exact (share_add_opposite (s := .plus) (by decide) hw).trans htotal.symm
  · intro s hs
    rw [hfound s hs, htotal, Option.some_inj]
    constructor
    · exact factors_of_share hs hw fun k hk => amplitude_of_le hr hk
    · exact fun hf => hf.share_eq_total hs hw

/-- Of two wires that always agree, neither has a state of its own. -/
theorem entangled_probability_decides :
    let r : Register ℂ := ⟨2, #[rootHalf, 0, 0, rootHalf]⟩
    r.Full ∧ 0 < r.qubits ∧ ∀ s, s ≠ .unknown → r.probability? 0 s ≠ some (r.dot r) := by
  intro r
  have hfull : r.Full := rfl
  have hw : 0 < r.qubits := by decide
  refine ⟨hfull, hw, ?_⟩
  intro s hs hall
  obtain ⟨rest, hrest, hψ⟩ := ((probability_decides hfull hw).2.2 s hs).mp hall
  have hhalf := rootHalf_mul_self
  have hfirst : rootHalf = s.amp false * rest 0 := hψ 0
  have hsecond : 0 = s.amp false * rest 2 := hψ 2
  have hlast : rootHalf = s.amp true * rest 3 := hψ 3
  have hsame : rest 3 = rest 2 := hrest 2 true
  rw [hsame] at hlast
  have hcontra : (rootHalf : ℂ) * rootHalf = 0 := by
    linear_combination s.amp true * rest 2 * hfirst + rootHalf * hlast -
      s.amp true * rest 0 * hsecond
  rw [hhalf] at hcontra
  norm_num at hcontra

end Register

end BasisFlow
