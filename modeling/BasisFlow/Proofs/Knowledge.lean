import BasisFlow.Proofs.Exact
import BasisFlow.Proofs.Splice
import BasisFlow.Proofs.Wave
import BasisFlow.Tracking

namespace BasisFlow

open Amplitude

theorem rootHalf_mul_self : (rootHalf : ℂ) * rootHalf = 1 / 2 := by
  have hreal : (√2)⁻¹ * (√2)⁻¹ = (1 / 2 : ℝ) := by
    rw [← mul_inv, Real.mul_self_sqrt (by norm_num)]
    norm_num
  change (((√2)⁻¹ : ℝ) : ℂ) * (((√2)⁻¹ : ℝ) : ℂ) = 1 / 2
  rw [← Complex.ofReal_mul, hreal]
  norm_num

section Definitions

variable {K : Type} [CommRing K] [Amplitude K]

/-- The amplitude of a wire in a known state at a value. -/
def BasisState.amp : BasisState → Bool → K
  | .zero, false => 1
  | .zero, true => 0
  | .one, false => 0
  | .one, true => 1
  | .plus, _ => rootHalf
  | .minus, false => rootHalf
  | .minus, true => -rootHalf
  | .unknown, _ => 0

/-- The amplitudes are those of the wire `w` in the state `s` times amplitudes of all other
wires. -/
def Factors (ψ : Nat → K) (w : Wire) (s : BasisState) : Prop :=
  ∃ rest : Nat → K, (∀ k b, rest (assign k w b) = rest k) ∧ ∀ k, ψ k = s.amp (k.testBit w) * rest k

end Definitions

/-- The matrix takes a wire from one known state to another, up to a factor. -/
def Operator.Sends (m : Operator ℂ) (s r : BasisState) : Prop :=
  ∃ γ : ℂ, ∀ b : Bool,
    m.entry b.toNat 0 * s.amp false + m.entry b.toNat 1 * s.amp true = γ * r.amp b

namespace Factors

section Values

variable {K : Type} [CommRing K] [Amplitude K] {ψ : Nat → K} {w : Wire} {s : BasisState}

/-- A wire that is known to be zero or one has no amplitude at the other value. -/
theorem eq_zero (h : Factors ψ w s) {b : Bool} (hb : s.bit? = some b) {k : Nat}
    (hk : k.testBit w ≠ b) : ψ k = 0 := by
  obtain ⟨rest, _, hψ⟩ := h
  have hamp : (s.amp (k.testBit w) : K) = 0 := by
    cases s <;> cases b <;> cases hw : k.testBit w <;> simp_all [BasisState.bit?, BasisState.amp]
  rw [hψ, hamp, zero_mul]

/-- A wire is at zero just when no amplitude has a one there. -/
theorem zero_iff : Factors ψ w .zero ↔ ∀ k, k.testBit w = true → ψ k = 0 := by
  constructor
  · intro h k hk
    exact h.eq_zero rfl (by rw [hk]; decide)
  · intro h
    refine ⟨fun k => ψ (assign k w false), fun k b => by simp only [assign_assign], ?_⟩
    intro k
    cases hk : k.testBit w with
    | false =>
      have hself : assign k w false = k := hk ▸ assign_testBit k w
      simp only [BasisState.amp, one_mul, hself]
    | true => rw [BasisState.amp, zero_mul, h k hk]

theorem plus_assign (h : Factors ψ w .plus) (k : Nat) (b : Bool) : ψ (assign k w b) = ψ k := by
  obtain ⟨rest, hrest, hψ⟩ := h
  rw [hψ, hψ, hrest]
  rfl

theorem minus_assign (h : Factors ψ w .minus) (k : Nat) :
    ψ (assign k w (!k.testBit w)) = -ψ k := by
  obtain ⟨rest, hrest, hψ⟩ := h
  rw [hψ, hψ, hrest, testBit_assign_self]
  cases k.testBit w <;> simp [BasisState.amp]

end Values

variable {ψ : Nat → ℂ} {w : Wire} {s : BasisState}

theorem smul (h : Factors ψ w s) (σ : ℂ) : Factors (fun k => σ * ψ k) w s := by
  obtain ⟨rest, hrest, hψ⟩ := h
  refine ⟨fun k => σ * rest k, fun k b => by simp only [hrest], ?_⟩
  intro k
  simp only [hψ]
  ring

/-- What is known of a wire stays true when other wires are acted on. -/
theorem on_of_notMem (h : Factors ψ w s) {ws : List Wire} (hn : ws.Nodup) (hw : w ∉ ws)
    (m : Operator ℂ) : Factors (m.on ws ψ) w s := by
  obtain ⟨rest, hrest, hψ⟩ := h
  refine ⟨m.on ws rest, ?_, ?_⟩
  · intro k b
    rw [Operator.on, Operator.on, gather_assign hw]
    apply Finset.sum_congr rfl
    intro l _
    rw [← assign_put hn hw, hrest]
  · intro k
    rw [Operator.on, Operator.on, Finset.mul_sum]
    apply Finset.sum_congr rfl
    intro l _
    rw [hψ, testBit_put_of_notMem hn hw]
    ring

theorem on_single (h : Factors ψ w s) {m : Operator ℂ} {r : BasisState} (hm : m.Sends s r) :
    Factors (m.on [w] ψ) w r := by
  obtain ⟨rest, hrest, hψ⟩ := h
  obtain ⟨γ, hγ⟩ := hm
  refine ⟨fun k => γ * rest k, fun k b => by simp only [hrest], ?_⟩
  intro k
  rw [Operator.on_single, hψ, hψ, testBit_assign_self, testBit_assign_self, hrest, hrest]
  linear_combination rest k * hγ (k.testBit w)

end Factors

namespace Operator

theorem ofRows_entry_zero (a b c d : ℂ) (x : Bool) :
    (ofRows 1 [[a, b], [c, d]]).entry x.toNat 0 = bif x then c else a := by
  cases x <;> rfl

theorem ofRows_entry_one (a b c d : ℂ) (x : Bool) :
    (ofRows 1 [[a, b], [c, d]]).entry x.toNat 1 = bif x then d else b := by
  cases x <;> rfl

theorem sends_iff {a b c d : ℂ} {s r : BasisState} :
    (ofRows 1 [[a, b], [c, d]]).Sends s r ↔
      ∃ γ, a * s.amp false + b * s.amp true = γ * r.amp false ∧
        c * s.amp false + d * s.amp true = γ * r.amp true := by
  simp only [Sends, ofRows_entry_zero, ofRows_entry_one, Bool.forall_bool, cond_false, cond_true]

theorem sends_flipBit (a : ℂ) (s : BasisState) :
    (ofRows 1 [[0, a], [a, 0]]).Sends s (Transfer.flipBit s) := by
  rw [sends_iff]
  cases s with
  | minus => exact ⟨-a, by simp [Transfer.flipBit, BasisState.amp]⟩
  | _ => exact ⟨a, by simp [Transfer.flipBit, BasisState.amp]⟩

theorem sends_flipPhase (a : ℂ) (s : BasisState) :
    (ofRows 1 [[a, 0], [0, -a]]).Sends s (Transfer.flipPhase s) := by
  rw [sends_iff]
  cases s with
  | one => exact ⟨-a, by simp [Transfer.flipPhase, BasisState.amp]⟩
  | _ => exact ⟨a, by simp [Transfer.flipPhase, BasisState.amp]⟩

theorem sends_flipBoth (a : ℂ) (s : BasisState) :
    (ofRows 1 [[0, -a], [a, 0]]).Sends s (Transfer.flipPhase (Transfer.flipBit s)) := by
  rw [sends_iff]
  cases s with
  | one => exact ⟨-a, by simp [Transfer.flipPhase, Transfer.flipBit, BasisState.amp]⟩
  | plus => exact ⟨-a, by simp [Transfer.flipPhase, Transfer.flipBit, BasisState.amp]⟩
  | _ => exact ⟨a, by simp [Transfer.flipPhase, Transfer.flipBit, BasisState.amp]⟩

theorem sends_changeBasis (s : BasisState) :
    (ofRows 1 [[(rootHalf : ℂ), rootHalf], [rootHalf, -rootHalf]]).Sends s
      (Transfer.changeBasis s) := by
  rw [sends_iff]
  have hhalf := rootHalf_mul_self
  refine ⟨1, ?_⟩
  cases s <;> simp [Transfer.changeBasis, BasisState.amp, hhalf] <;> norm_num

theorem sends_diagonal (a d : ℂ) {s : BasisState} (hs : s.isClassical) :
    (ofRows 1 [[a, 0], [0, d]]).Sends s s := by
  rw [sends_iff]
  cases s with
  | zero => exact ⟨a, by simp [BasisState.amp]⟩
  | one => exact ⟨d, by simp [BasisState.amp]⟩
  | _ => simp [BasisState.isClassical, BasisState.bit?] at hs

end Operator

/-- Half a turn. -/
theorem Angle.half_pi : Angle.pi.half = Real.pi / 2 := by
  simp [Angle.half, Angle.pi, Fraction.value, div_eq_mul_inv]

theorem cosHalf_pi : (cosHalf Angle.pi : ℂ) = 0 := by
  change ((Real.cos Angle.pi.half : ℝ) : ℂ) = 0
  rw [Angle.half_pi, Real.cos_pi_div_two, Complex.ofReal_zero]

theorem sinHalf_pi : (sinHalf Angle.pi : ℂ) = 1 := by
  change ((Real.sin Angle.pi.half : ℝ) : ℂ) = 1
  rw [Angle.half_pi, Real.sin_pi_div_two, Complex.ofReal_one]

theorem cisHalf_pi : (cisHalf Angle.pi : ℂ) = Complex.I := by
  change Complex.exp ((Angle.pi.half : ℝ) * Complex.I) = Complex.I
  rw [Angle.half_pi, Complex.ofReal_div, Complex.ofReal_ofNat, Complex.exp_pi_div_two_mul_I]

variable {boxes : String → Nat → Operator ℂ}

/-- The map that a gate makes of the known states is the one that its matrix makes. -/
theorem Transfer.sends {g : BaseGate} {f : Transfer} (h : ofBase? g = some f) (s : BasisState) :
    (g.exact boxes).Sends s (f.apply s) := by
  cases g with
  | x =>
    cases h
    exact Operator.sends_flipBit 1 s
  | y =>
    cases h
    exact Operator.sends_flipBoth i s
  | z =>
    cases h
    exact Operator.sends_flipPhase 1 s
  | h =>
    cases h
    exact Operator.sends_changeBasis s
  | rx θ =>
    simp only [ofBase?, Option.ite_none_right_eq_some, Option.some.injEq] at h
    obtain ⟨rfl, rfl⟩ := h
    have hrows := Operator.sends_flipBit (-i) s
    simpa only [BaseGate.exact, BaseGate.operator, Operator.foundOr, cosHalf_pi, sinHalf_pi,
      mul_one, Transfer.apply] using hrows
  | ry θ =>
    simp only [ofBase?, Option.ite_none_right_eq_some, Option.some.injEq] at h
    obtain ⟨rfl, rfl⟩ := h
    have hrows := Operator.sends_flipBoth 1 s
    simpa only [BaseGate.exact, BaseGate.operator, Operator.foundOr, cosHalf_pi, sinHalf_pi,
      Transfer.apply] using hrows
  | rz θ =>
    simp only [ofBase?, Option.ite_none_right_eq_some, Option.some.injEq] at h
    obtain ⟨rfl, rfl⟩ := h
    have hrows := Operator.sends_flipPhase (-Complex.I) s
    have hconj : (conj Complex.I : ℂ) = -Complex.I := Complex.conj_I
    simpa only [BaseGate.exact, BaseGate.operator, Operator.foundOr, cisHalf_pi, hconj, neg_neg,
      Transfer.apply] using hrows
  | _ => cases h

/-- A gate that only adds phases has a diagonal matrix. -/
theorem BaseGate.diagonal_of_kind (boxes : String → Nat → Operator ℂ) {g : BaseGate}
    (h : g.kind = .phaseOnly) :
    ∃ a d, g.exact boxes = .ofRows 1 [[a, 0], [0, d]] := by
  cases g with
  | s => exact ⟨_, _, rfl⟩
  | sdg => exact ⟨_, _, rfl⟩
  | t => exact ⟨_, _, rfl⟩
  | tdg => exact ⟨_, _, rfl⟩
  | rz θ => exact ⟨_, _, rfl⟩
  | _ => cases h

theorem Operator.flipRows_on {K : Type} [CommRing K] (w : Wire) (ψ : Nat → K) (k : Nat) :
    (Operator.ofRows 1 [[0, 1], [1, 0]]).on [w] ψ k = ψ (assign k w (!k.testBit w)) := by
  rw [on_single]
  cases k.testBit w <;> simp [ofRows]

theorem x_on (w : Wire) (ψ : Nat → ℂ) (k : Nat) :
    (BaseGate.x.exact boxes).on [w] ψ k = ψ (assign k w (!k.testBit w)) :=
  Operator.flipRows_on w ψ k

theorem z_on (w : Wire) (ψ : Nat → ℂ) (k : Nat) :
    (BaseGate.z.exact boxes).on [w] ψ k = if k.testBit w then -ψ k else ψ k := by
  have hself : assign k w (k.testBit w) = k := assign_testBit k w
  rw [Operator.on_single]
  cases hk : k.testBit w <;> rw [hk] at hself <;>
    simp [BaseGate.exact, BaseGate.operator, Operator.foundOr, Operator.ofRows, hself]

theorem h_on (w : Wire) (ψ : Nat → ℂ) (k : Nat) :
    (BaseGate.h.exact boxes).on [w] ψ k =
      rootHalf * (ψ (assign k w false) + (bif k.testBit w then -1 else 1) * ψ (assign k w true)) := by
  rw [Operator.on_single]
  cases hk : k.testBit w <;>
    simp [BaseGate.exact, BaseGate.operator, Operator.foundOr, Operator.ofRows] <;> ring

/-- The index with the values of two wires exchanged. -/
def exchanged (a b : Wire) (k : Nat) : Nat :=
  assign (assign k b (k.testBit a)) a (k.testBit b)

theorem testBit_exchanged (a b : Wire) (k j : Nat) :
    (exchanged a b k).testBit j =
      if j = a then k.testBit b else if j = b then k.testBit a else k.testBit j := by
  simp only [exchanged, testBit_assign]

theorem exchanged_comm {a b : Wire} (h : a ≠ b) (k : Nat) :
    exchanged a b k = exchanged b a k :=
  assign_comm (Ne.symm h) k _ _

theorem exchanged_assign {a b : Wire} (h : a ≠ b) (k : Nat) (x : Bool) :
    exchanged a b (assign k b x) = assign (exchanged a b k) a x := by
  apply Nat.eq_of_testBit_eq
  intro j
  simp only [testBit_exchanged, testBit_assign]
  by_cases ha : j = a
  · simp [ha]
  · by_cases hb : j = b <;> simp [ha, hb, h, Ne.symm h]

section Rows

variable {K : Type} [CommRing K] {a b : Wire} (h : a ≠ b) (ψ : Nat → K) (k : Nat)

include h

theorem Operator.swapRows_on :
    (Operator.ofRows 2 [[1, 0, 0, 0], [0, 0, 1, 0], [0, 1, 0, 0], [0, 0, 0, 1]]).on [a, b] ψ k =
      ψ (exchanged a b k) := by
  rw [on_pair h, exchanged]
  cases ha : k.testBit a <;> cases hb : k.testBit b <;> simp [ofRows]

theorem Operator.halfSwapRows_on :
    (Operator.ofRows 2 [[1, 0, 0, 0], [0, 0, 1, 0], [0, 0, 0, 1], [0, 1, 0, 0]]).on [a, b] ψ k =
      ψ (assign (assign k b (k.testBit a ^^ k.testBit b)) a (k.testBit b)) := by
  rw [on_pair h]
  cases ha : k.testBit a <;> cases hb : k.testBit b <;> simp [ofRows]

end Rows

theorem swap_on {a b : Wire} (h : a ≠ b) (ψ : Nat → ℂ) (k : Nat) :
    (BaseGate.swap.exact boxes).on [a, b] ψ k = ψ (exchanged a b k) :=
  Operator.swapRows_on h ψ k

theorem halfSwap_on {a b : Wire} (h : a ≠ b) (outcome : Bool) (ψ : Nat → ℂ) (k : Nat) :
    (Gate.halfSwap.exact boxes outcome).on [a, b] ψ k =
      ψ (assign (assign k b (k.testBit a ^^ k.testBit b)) a (k.testBit b)) :=
  Operator.halfSwapRows_on h ψ k

theorem Factors.swap_on {ψ : Nat → ℂ} {a b : Wire} (h : a ≠ b) {s : BasisState}
    (hs : Factors ψ a s) : Factors ((BaseGate.swap.exact boxes).on [a, b] ψ) b s := by
  obtain ⟨rest, hrest, hψ⟩ := hs
  refine ⟨fun k => rest (exchanged a b k), ?_, ?_⟩
  · intro k x
    simp only [exchanged_assign h, hrest]
  · intro k
    rw [BasisFlow.swap_on h, hψ, testBit_exchanged, if_pos rfl]

theorem reset_on (outcome : Bool) (w : Wire) (ψ : Nat → ℂ) (k : Nat) :
    (Gate.reset.exact boxes outcome).on [w] ψ k =
      BasisState.zero.amp (k.testBit w) * ψ (assign k w outcome) := by
  rw [Operator.on_single]
  cases hk : k.testBit w <;> cases outcome <;> simp [Gate.exact, BasisState.amp]

end BasisFlow
