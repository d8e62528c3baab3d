import BasisFlow.Proofs.ControlReduction
import BasisFlow.Proofs.NestedControls
import Mathlib.Tactic.IntervalCases

namespace BasisFlow

open Amplitude

/-- The columns of the matrix, on `n` wires, are orthonormal. -/
def Operator.Unitary (m : Operator ℂ) (n : Nat) : Prop :=
  ∀ i j, i < 2 ^ n → j < 2 ^ n →
    ∑ l ∈ Finset.range (2 ^ n), conj (m.entry l i) * m.entry l j = if i = j then 1 else 0

/-- The gate has a unitary matrix, if all black boxes have the matrices `boxes`. -/
def Gate.UnitaryIn (boxes : String → Nat → Operator ℂ) : Gate → Prop
  | .reset => False
  | .base (.blackBox name n) => (boxes name n).Unitary n
  | .controlled (.blackBox name n) _ => (boxes name n).Unitary n
  | _ => True

/-- All gates of the circuit are unitary. -/
def Circuit.UnitaryIn (ρ : Reading) (c : Circuit) : Prop :=
  ∀ id op, c.op? id = some op → op.gate.UnitaryIn ρ.boxes

/-- The inner product of the amplitudes of `n` wires. -/
noncomputable def pairing (n : Nat) (φ ψ : Nat → ℂ) : ℂ :=
  ∑ k ∈ Finset.range (2 ^ n), conj (φ k) * ψ k

/-- The squared norm of the amplitudes of `n` wires. -/
noncomputable def total (n : Nat) (ψ : Nat → ℂ) : ℂ :=
  ∑ k ∈ Finset.range (2 ^ n), Register.weight (ψ k)

variable {n : Nat} {ws : List Wire} {ψ : Nat → ℂ} {boxes : String → Nat → Operator ℂ}

theorem conj_eq (z : ℂ) : (conj z : ℂ) = starRingEnd ℂ z := rfl

theorem weight_mul (a b : ℂ) :
    Register.weight (a * b) = Register.weight a * Register.weight b := by
  simp only [Register.weight, conj_eq, map_mul]
  ring

section Sum

/-- Every index is met once for each way to put bits on the wires `ws`. -/
theorem sum_put (hn : ws.Nodup) (hlt : ∀ w ∈ ws, w < n) (F : Nat → ℂ) :
    ∑ k ∈ Finset.range (2 ^ n), ∑ j ∈ Finset.range (2 ^ ws.length), F (put ws j k) =
      2 ^ ws.length * ∑ k ∈ Finset.range (2 ^ n), F k := by
  have hmaps : ∀ p ∈ Finset.range (2 ^ n) ×ˢ Finset.range (2 ^ ws.length),
      (put ws p.2 p.1, gather ws p.1) ∈
        Finset.range (2 ^ n) ×ˢ Finset.range (2 ^ ws.length) := by
    intro p hp
    obtain ⟨hk, _⟩ := Finset.mem_product.mp hp
    have hput := (put_lt_iff hn hlt p.2 p.1).mpr (Finset.mem_range.mp hk)
    exact Finset.mem_product.mpr
      ⟨Finset.mem_range.mpr hput, Finset.mem_range.mpr (gather_lt ws p.1)⟩
  have hinv : ∀ p ∈ Finset.range (2 ^ n) ×ˢ Finset.range (2 ^ ws.length),
      (put ws (gather ws p.1) (put ws p.2 p.1), gather ws (put ws p.2 p.1)) = p := by
    intro p hp
    obtain ⟨_, hj⟩ := Finset.mem_product.mp hp
    rw [put_put hn, put_gather hn, gather_put hn (Finset.mem_range.mp hj)]
  calc ∑ k ∈ Finset.range (2 ^ n), ∑ j ∈ Finset.range (2 ^ ws.length), F (put ws j k)
      = ∑ p ∈ Finset.range (2 ^ n) ×ˢ Finset.range (2 ^ ws.length), F (put ws p.2 p.1) :=
        (Finset.sum_product' _ _ fun k j => F (put ws j k)).symm
    _ = ∑ p ∈ Finset.range (2 ^ n) ×ˢ Finset.range (2 ^ ws.length), F p.1 :=
        Finset.sum_nbij' (fun p => (put ws p.2 p.1, gather ws p.1))
          (fun p => (put ws p.2 p.1, gather ws p.1)) hmaps hmaps hinv hinv fun _ _ => rfl
    _ = ∑ k ∈ Finset.range (2 ^ n), ∑ j ∈ Finset.range (2 ^ ws.length), F k :=
        Finset.sum_product' _ _ fun k _ => F k
    _ = 2 ^ ws.length * ∑ k ∈ Finset.range (2 ^ n), F k := by
        simp [Finset.mul_sum]

theorem Operator.Unitary.sum_conj_mul {m : Operator ℂ} (hm : m.Unitary n) (φ χ : Nat → ℂ) :
    ∑ j ∈ Finset.range (2 ^ n), conj (∑ l ∈ Finset.range (2 ^ n), m.entry j l * φ l) *
        ∑ l ∈ Finset.range (2 ^ n), m.entry j l * χ l =
      ∑ l ∈ Finset.range (2 ^ n), conj (φ l) * χ l := by
  have hexpand : ∀ j, conj (∑ l ∈ Finset.range (2 ^ n), m.entry j l * φ l) *
        ∑ l ∈ Finset.range (2 ^ n), m.entry j l * χ l =
      ∑ l ∈ Finset.range (2 ^ n), ∑ l' ∈ Finset.range (2 ^ n),
        conj (φ l) * χ l' * (conj (m.entry j l) * m.entry j l') := by
    intro j
    rw [conj_eq, map_sum, Finset.sum_mul_sum]
    apply Finset.sum_congr rfl
    intro l _
    apply Finset.sum_congr rfl
    intro l' _
    rw [map_mul, ← conj_eq, ← conj_eq]
    ring
  simp only [hexpand]
  rw [Finset.sum_comm]
  apply Finset.sum_congr rfl
  intro l hl
  rw [Finset.sum_comm]
  calc ∑ l' ∈ Finset.range (2 ^ n), ∑ j ∈ Finset.range (2 ^ n),
        conj (φ l) * χ l' * (conj (m.entry j l) * m.entry j l')
      = ∑ l' ∈ Finset.range (2 ^ n), conj (φ l) * χ l' * (if l = l' then 1 else 0) := by
        apply Finset.sum_congr rfl
        intro l' hl'
        rw [← Finset.mul_sum, hm l l' (Finset.mem_range.mp hl) (Finset.mem_range.mp hl')]
    _ = conj (φ l) * χ l := by
        rw [Finset.sum_eq_single l]
        · rw [if_pos rfl, mul_one]
        · intro l' _ hne
          rw [if_neg (Ne.symm hne), mul_zero]
        · intro hnot
          exact absurd hl hnot

/-- A unitary matrix keeps the inner product, on whichever wires it acts. -/
theorem pairing_on {m : Operator ℂ} (hm : m.Unitary ws.length) (hn : ws.Nodup)
    (hlt : ∀ w ∈ ws, w < n) (φ ψ : Nat → ℂ) :
    pairing n (m.on ws φ) (m.on ws ψ) = pairing n φ ψ := by
  have hrow : ∀ (χ : Nat → ℂ) (k j : Nat), j ∈ Finset.range (2 ^ ws.length) →
      m.on ws χ (put ws j k) =
        ∑ l ∈ Finset.range (2 ^ ws.length), m.entry j l * χ (put ws l k) := by
    intro χ k j hj
    rw [Operator.on, gather_put hn (Finset.mem_range.mp hj)]
    apply Finset.sum_congr rfl
    intro l _
    rw [put_put hn]
  have hblock : ∀ k, ∑ j ∈ Finset.range (2 ^ ws.length),
        conj (m.on ws φ (put ws j k)) * m.on ws ψ (put ws j k) =
      ∑ l ∈ Finset.range (2 ^ ws.length), conj (φ (put ws l k)) * ψ (put ws l k) := by
    intro k
    rw [← hm.sum_conj_mul (fun l => φ (put ws l k)) fun l => ψ (put ws l k)]
    apply Finset.sum_congr rfl
    intro j hj
    rw [hrow φ k j hj, hrow ψ k j hj]
  have hleft := sum_put hn hlt fun k => conj (m.on ws φ k) * m.on ws ψ k
  have hright := sum_put hn hlt fun k => conj (φ k) * ψ k
  simp only [hblock] at hleft
  have htwo : (2 : ℂ) ^ ws.length ≠ 0 := pow_ne_zero _ two_ne_zero
  exact mul_left_cancel₀ htwo (hleft.symm.trans hright)

theorem total_on {m : Operator ℂ} (hm : m.Unitary ws.length) (hn : ws.Nodup)
    (hlt : ∀ w ∈ ws, w < n) (ψ : Nat → ℂ) : total n (m.on ws ψ) = total n ψ :=
  pairing_on hm hn hlt ψ ψ

end Sum

section Gates

theorem conj_zero : (conj 0 : ℂ) = 0 :=
  map_zero (starRingEnd ℂ)

theorem conj_one : (conj 1 : ℂ) = 1 :=
  map_one (starRingEnd ℂ)

theorem conj_neg (a : ℂ) : (conj (-a) : ℂ) = -conj a :=
  map_neg (starRingEnd ℂ) a

theorem conj_add (a b : ℂ) : (conj (a + b) : ℂ) = conj a + conj b :=
  map_add (starRingEnd ℂ) a b

theorem conj_mul (a b : ℂ) : (conj (a * b) : ℂ) = conj a * conj b :=
  map_mul (starRingEnd ℂ) a b

theorem conj_conj (a : ℂ) : (conj (conj a : ℂ) : ℂ) = a :=
  Complex.conj_conj a

theorem conj_mul_self_of_norm {z : ℂ} (h : ‖z‖ = 1) : (conj z : ℂ) * z = 1 := by
  rw [conj_eq, Complex.conj_mul', h]
  norm_num

theorem conj_cis (θ : Angle) : (conj (cis θ) : ℂ) * cis θ = 1 :=
  conj_mul_self_of_norm (Complex.norm_exp_ofReal_mul_I _)

theorem conj_cisHalf (θ : Angle) : (conj (cisHalf θ) : ℂ) * cisHalf θ = 1 :=
  conj_mul_self_of_norm (Complex.norm_exp_ofReal_mul_I _)

theorem conj_i : (conj i : ℂ) * i = 1 :=
  conj_mul_self_of_norm Complex.norm_I

theorem conj_rootHalf : (conj rootHalf : ℂ) = rootHalf :=
  Complex.conj_ofReal _

theorem conj_cosHalf (θ : Angle) : (conj (cosHalf θ) : ℂ) = cosHalf θ :=
  Complex.conj_ofReal _

theorem conj_sinHalf (θ : Angle) : (conj (sinHalf θ) : ℂ) = sinHalf θ :=
  Complex.conj_ofReal _

theorem cosHalf_sinHalf (θ : Angle) :
    (cosHalf θ : ℂ) * cosHalf θ + sinHalf θ * sinHalf θ = 1 := by
  have hreal := Real.cos_sq_add_sin_sq θ.half
  change ((Real.cos θ.half : ℝ) : ℂ) * ((Real.cos θ.half : ℝ) : ℂ) +
    ((Real.sin θ.half : ℝ) : ℂ) * ((Real.sin θ.half : ℝ) : ℂ) = 1
  rw [← Complex.ofReal_mul, ← Complex.ofReal_mul, ← Complex.ofReal_add, ← sq, ← sq, hreal,
    Complex.ofReal_one]

/-- Two rows with orthonormal columns. -/
theorem Operator.unitary_rows {a b c d : ℂ} (hac : conj a * a + conj c * c = 1)
    (hbd : conj b * b + conj d * d = 1) (horth : conj a * b + conj c * d = 0) :
    (ofRows 1 [[a, b], [c, d]]).Unitary 1 := by
  have horth' : conj b * a + conj d * c = 0 := by
    have hconj := congrArg (starRingEnd ℂ) horth
    simp only [conj_eq, map_add, map_mul, Complex.conj_conj, map_zero] at hconj
    simp only [conj_eq]
    linear_combination hconj
  have hrows : Finset.range (2 ^ 1) = {0, 1} := rfl
  intro i j hi hj
  rw [hrows, Finset.sum_pair Nat.zero_ne_one]
  have hi' : i = 0 ∨ i = 1 := by omega
  have hj' : j = 0 ∨ j = 1 := by omega
  rcases hi' with rfl | rfl <;> rcases hj' with rfl | rfl
  · exact hac
  · exact horth
  · exact horth'
  · exact hbd

theorem Operator.unitary_diagonal {a d : ℂ} (ha : conj a * a = 1) (hd : conj d * d = 1) :
    (ofRows 1 [[a, 0], [0, d]]).Unitary 1 := by
  apply unitary_rows
  · rw [mul_zero, add_zero, ha]
  · rw [mul_zero, zero_add, hd]
  · rw [mul_zero, conj_zero, zero_mul, add_zero]

/-- A matrix with a single one in each column, no two of them in the same row, is unitary. -/
theorem Operator.unitary_of_permutation {m : Operator ℂ} {row : Nat → Nat}
    (hm : ∀ l < 2 ^ n, ∀ j < 2 ^ n, m.entry l j = if row j = l then 1 else 0)
    (hlt : ∀ j < 2 ^ n, row j < 2 ^ n) (hinj : ∀ i < 2 ^ n, ∀ j < 2 ^ n, row i = row j → i = j) :
    m.Unitary n := by
  intro i j hi hj
  have hrow := hlt j hj
  rw [Finset.sum_eq_single (row j)]
  · rw [hm _ hrow i hi, hm _ hrow j hj, if_pos rfl, mul_one]
    by_cases hij : i = j
    · rw [if_pos (congrArg row hij), if_pos hij, conj_one]
    · rw [if_neg fun e => hij (hinj i hi j hj e), if_neg hij, conj_zero]
  · intro l hl hne
    rw [hm l (Finset.mem_range.mp hl) j hj, if_neg (Ne.symm hne), mul_zero]
  · intro hnot
    exact absurd (Finset.mem_range.mpr hrow) hnot

theorem Operator.unitary_swap :
    (ofRows 2 [[(1 : ℂ), 0, 0, 0], [0, 0, 1, 0], [0, 1, 0, 0], [0, 0, 0, 1]]).Unitary 2 := by
  apply @unitary_of_permutation 2 _ fun j => [0, 2, 1, 3].getD j 0
  · intro l hl j hj
    interval_cases l <;> interval_cases j <;> rfl
  · decide
  · decide

theorem Operator.unitary_halfSwap :
    (ofRows 2 [[(1 : ℂ), 0, 0, 0], [0, 0, 1, 0], [0, 0, 0, 1], [0, 1, 0, 0]]).Unitary 2 := by
  apply @unitary_of_permutation 2 _ fun j => [0, 3, 1, 2].getD j 0
  · intro l hl j hj
    interval_cases l <;> interval_cases j <;> rfl
  · decide
  · decide

/-- Every gate but a black box is unitary. -/
theorem BaseGate.unitary {g : BaseGate} (h : ∀ name n, g ≠ .blackBox name n) :
    (g.exact boxes).Unitary g.arity := by
  have hone : (conj 1 : ℂ) * 1 = 1 := by rw [conj_one, mul_one]
  have hneg : ∀ z : ℂ, conj z * z = 1 → conj (-z) * -z = 1 := by
    intro z hz
    rw [conj_neg, neg_mul_neg, hz]
  cases g with
  | h =>
    have hhalf := rootHalf_mul_self
    apply Operator.unitary_rows
    · rw [conj_rootHalf]
      linear_combination 2 * hhalf
    · rw [conj_neg, conj_rootHalf]
      linear_combination 2 * hhalf
    · rw [conj_rootHalf]
      ring
  | x =>
    apply Operator.unitary_rows
    · rw [mul_zero, zero_add, hone]
    · rw [mul_zero, add_zero, hone]
    · rw [conj_zero, zero_mul, mul_zero, add_zero]
  | y =>
    apply Operator.unitary_rows
    · rw [mul_zero, zero_add, conj_i]
    · rw [mul_zero, add_zero, hneg i conj_i]
    · rw [conj_zero, zero_mul, mul_zero, add_zero]
  | z => exact Operator.unitary_diagonal hone (hneg 1 hone)
  | s => exact Operator.unitary_diagonal hone conj_i
  | sdg => exact Operator.unitary_diagonal hone (hneg i conj_i)
  | t => exact Operator.unitary_diagonal hone (conj_cis _)
  | tdg => exact Operator.unitary_diagonal hone (conj_cis _)
  | rx θ =>
    have htrig := cosHalf_sinHalf θ
    have hi := conj_i
    apply Operator.unitary_rows
    · rw [conj_mul, conj_neg, conj_cosHalf, conj_sinHalf]
      linear_combination htrig + sinHalf θ * sinHalf θ * hi
    · rw [conj_mul, conj_neg, conj_cosHalf, conj_sinHalf]
      linear_combination htrig + sinHalf θ * sinHalf θ * hi
    · have hconj : (conj i : ℂ) = -i := Complex.conj_I
      rw [conj_mul, conj_neg, conj_cosHalf, conj_sinHalf, hconj]
      ring
  | ry θ =>
    have htrig := cosHalf_sinHalf θ
    apply Operator.unitary_rows
    · rw [conj_cosHalf, conj_sinHalf]
      linear_combination htrig
    · rw [conj_neg, conj_cosHalf, conj_sinHalf]
      linear_combination htrig
    · rw [conj_cosHalf, conj_sinHalf]
      ring
  | rz θ =>
    have he := conj_cisHalf θ
    apply Operator.unitary_diagonal
    · rw [conj_conj, mul_comm, he]
    · exact he
  | u θ φ lam =>
    have htrig := cosHalf_sinHalf θ
    have hφ := conj_cis φ
    have hlam := conj_cis lam
    apply Operator.unitary_rows
    · rw [conj_mul, conj_cosHalf, conj_sinHalf]
      linear_combination htrig + sinHalf θ * sinHalf θ * hφ
    · rw [conj_mul, conj_mul, conj_mul, conj_neg, conj_cosHalf, conj_sinHalf]
      linear_combination htrig + (sinHalf θ * sinHalf θ + cosHalf θ * cosHalf θ) * hlam +
        cosHalf θ * cosHalf θ * conj (cis lam) * cis lam * hφ
    · rw [conj_mul, conj_cosHalf, conj_sinHalf]
      linear_combination cosHalf θ * sinHalf θ * cis lam * hφ
  | swap => exact Operator.unitary_swap
  | blackBox name n => exact absurd rfl (h name n)

/-- A unitary matrix stays so under controls. -/
theorem Operator.Unitary.controlled {m : Operator ℂ} (hm : m.Unitary n) (p : Polarity) :
    (m.controlled p).Unitary (p.length + n) := by
  intro i j hi hj
  rw [Nat.pow_add] at hi hj ⊢
  by_cases hmet : p.MetAt i
  · by_cases hmet' : p.MetAt j
    · have hterm : ∀ l, conj ((m.controlled p).entry l i) * (m.controlled p).entry l j =
          if p.MetAt l then conj (m.entry (l / 2 ^ p.length) (i / 2 ^ p.length)) *
            m.entry (l / 2 ^ p.length) (j / 2 ^ p.length) else 0 := by
        intro l
        by_cases hl : p.MetAt l
        · rw [controlled_entry_of_met m hl, controlled_entry_of_met m hl, if_pos hmet,
            if_pos hmet', if_pos hl]
        · have hne : l ≠ i := fun e => hl (e ▸ hmet)
          rw [controlled_entry_of_not_met m hl, if_neg hne, conj_zero, zero_mul, if_neg hl]
      rw [Finset.sum_congr rfl fun l _ => hterm l,
        sum_metAt p fun y => conj (m.entry y (i / 2 ^ p.length)) * m.entry y (j / 2 ^ p.length),
        hm _ _ (Nat.div_lt_of_lt_mul hi) (Nat.div_lt_of_lt_mul hj)]
      simp only [hmet.div_eq_iff hmet']
    · have hij : i ≠ j := fun e => hmet' (e ▸ hmet)
      rw [if_neg hij]
      apply Finset.sum_eq_zero
      intro l _
      by_cases hl : p.MetAt l
      · rw [controlled_entry_of_met m hl j, if_neg hmet', mul_zero]
      · have hne : l ≠ i := fun e => hl (e ▸ hmet)
        rw [controlled_entry_of_not_met m hl i, if_neg hne, conj_zero, zero_mul]
  · -- the column is one of the identity, and so is the row in which it has its entry
    rw [Finset.sum_eq_single i]
    · rw [controlled_entry_of_not_met m hmet, controlled_entry_of_not_met m hmet, if_pos rfl,
        conj_one, one_mul]
    · intro l _ hne
      by_cases hl : p.MetAt l
      · rw [controlled_entry_of_met m hl i, if_neg hmet, conj_zero, zero_mul]
      · rw [controlled_entry_of_not_met m hl i, if_neg hne, conj_zero, zero_mul]
    · intro hnot
      exact absurd (Finset.mem_range.mpr hi) hnot

theorem Gate.unitary {g : Gate} (h : g.UnitaryIn boxes) (outcome : Bool) :
    (g.exact boxes outcome).Unitary g.arity := by
  have hbase : ∀ g : BaseGate, (Gate.base g).UnitaryIn boxes → (g.exact boxes).Unitary g.arity := by
    intro g hg
    by_cases hbox : ∃ name k, g = .blackBox name k
    · obtain ⟨name, k, rfl⟩ := hbox
      exact hg
    · exact BaseGate.unitary fun name k e => hbox ⟨name, k, e⟩
  cases g with
  | base g => exact hbase g h
  | halfSwap => exact Operator.unitary_halfSwap
  | reset => exact absurd h id
  | controlled g p => exact (hbase g (by cases g <;> exact h)).controlled p

theorem Gate.unitaryIn_of_operator {g : Gate} {m : Operator ℂ} (h : g.operator = .ok (some m)) :
    g.UnitaryIn boxes := by
  cases g with
  | reset => cases h
  | halfSwap => trivial
  | base g => cases g <;> first | trivial | cases h
  | controlled g p => cases g <;> first | trivial | cases h

/-- A unitary gate keeps the norm. -/
theorem Gate.total_exact {op : Operation} (hfits : op.Fits n)
    (hu : op.gate.UnitaryIn boxes) (outcome : Bool) (ψ : Nat → ℂ) :
    total n ((op.gate.exact boxes outcome).on op.wires ψ) = total n ψ :=
  total_on (hfits.arity_eq ▸ Gate.unitary hu outcome) hfits.nodup hfits.lt_width ψ

end Gates

namespace Circuit

theorem total_ground (n : Nat) : total n ground = 1 := by
  rw [total, Finset.sum_eq_single 0]
  · simp [ground, Register.weight, conj_one]
  · intro k _ hk
    simp [ground, hk, Register.weight]
  · intro hnot
    exact absurd (Finset.mem_range.mpr (Nat.two_pow_pos n)) hnot

theorem total_play {ρ : Reading} {c : Circuit}
    (hfits : ∀ id op, c.op? id = some op → op.Fits c.width) (hu : c.UnitaryIn ρ) (L : List NodeId)
    (ψ : Nat → ℂ) : total c.width (c.play ρ L ψ) = total c.width ψ := by
  induction L generalizing ψ with
  | nil => rfl
  | cons x L ih =>
    rw [play_cons, ih, perform]
    split
    next op hop => exact Gate.total_exact (hfits x op hop) (hu x op hop) _ ψ
    next => rfl

end Circuit

end BasisFlow
