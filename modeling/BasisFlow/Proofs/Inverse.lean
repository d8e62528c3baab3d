import BasisFlow.Proofs.AngleTerms
import BasisFlow.Proofs.Norm

namespace BasisFlow

open Amplitude

namespace Operator

variable {K : Type} [CommRing K]

/-- The matrix product. -/
def times (m m' : Operator K) : Operator K :=
  ⟨m.operands, fun r c => ∑ l ∈ Finset.range m.dim, m.entry r l * m'.entry l c⟩

/-- The matrix is the identity, times a number of modulus one. -/
def IsPhase (m : Operator ℂ) : Prop :=
  ∃ σ : ℂ, ‖σ‖ = 1 ∧ ∀ r < m.dim, ∀ c < m.dim, m.entry r c = if r = c then σ else 0

/-- Two matrices under the same controls multiply as they do without controls. -/
theorem controlled_times (m m' : Operator K) (p : Polarity) {r : Nat}
    (hr : r < (m.controlled p).dim) (c : Nat) :
    ((m.controlled p).times (m'.controlled p)).entry r c =
      ((m.times m').controlled p).entry r c := by
  change ∑ l ∈ Finset.range _, (m.controlled p).entry r l * (m'.controlled p).entry l c = _
  by_cases hmet : p.MetAt r
  · have hterm : ∀ l, (m.controlled p).entry r l * (m'.controlled p).entry l c =
        if p.MetAt l then m.entry (r / 2 ^ p.length) (l / 2 ^ p.length) *
          (if p.MetAt c then m'.entry (l / 2 ^ p.length) (c / 2 ^ p.length) else 0) else 0 := by
      intro l
      rw [controlled_entry_of_met m hmet]
      split
      next hl => rw [controlled_entry_of_met m' hl]
      next => rw [zero_mul]
    rw [Finset.sum_congr rfl fun l _ => hterm l, dim_controlled,
      sum_metAt p (fun j => m.entry (r / 2 ^ p.length) j *
        (if p.MetAt c then m'.entry j (c / 2 ^ p.length) else 0)),
      controlled_entry_of_met _ hmet]
    split
    next => rfl
    next => simp only [mul_zero, Finset.sum_const_zero]
  · simp only [controlled_entry_of_not_met _ hmet, ite_mul, one_mul, zero_mul]
    rw [Finset.sum_ite_eq, if_pos (Finset.mem_range.mpr hr), controlled_entry_of_not_met _ hmet]

/-- A diagonal that is `σ` where the controls are met and one elsewhere is constant only if there
are no controls or `σ` is one too. -/
theorem isPhase_iff_of_diagonal {m : Operator ℂ} {p : Polarity} {σ : ℂ} (hσ : ‖σ‖ = 1)
    (hdim : 2 ^ p.length ≤ m.dim)
    (hm : ∀ r < m.dim, ∀ c < m.dim,
      m.entry r c = if r = c then if p.MetAt r then σ else 1 else 0) :
    m.IsPhase ↔ p.isEmpty ∨ σ = 1 := by
  constructor
  · rintro ⟨τ, _, hτ⟩
    have hphase : ∀ r < 2 ^ p.length, (if p.MetAt r then σ else 1) = τ := by
      intro r hr
      have hr' := Nat.lt_of_lt_of_le hr hdim
      have hentry := (hm r hr' r hr').symm.trans (hτ r hr' r hr')
      rwa [if_pos rfl, if_pos rfl] at hentry
    by_cases hempty : p.isEmpty
    · exact Or.inl hempty
    · right
      have hlen : 0 < p.length := List.length_pos_iff.mpr (by simpa [Polarity.isEmpty] using hempty)
      have htwo : 2 ^ 1 ≤ 2 ^ p.length := Nat.pow_le_pow_right Nat.two_pos hlen
      -- of the numbers below, the controls are met only at the one that they require
      have hmetAt : ∀ r < 2 ^ p.length, (p.MetAt r ↔ r = p.toNat) :=
        fun r hr => Polarity.metAt_add_mul hr 0
      obtain ⟨r, hr, hne⟩ : ∃ r < 2 ^ p.length, r ≠ p.toNat := by
        by_cases hzero : p.toNat = 0
        · exact ⟨1, by omega, by omega⟩
        · exact ⟨0, by omega, Ne.symm hzero⟩
      have hmet := hphase p.toNat p.toNat_lt
      have hother := hphase r hr
      rw [if_pos ((hmetAt _ p.toNat_lt).mpr rfl)] at hmet
      rw [if_neg (mt (hmetAt r hr).mp hne)] at hother
      exact hmet.trans hother.symm
  · rintro (hempty | rfl)
    · have hmet : ∀ r, p.MetAt r := by
        obtain ⟨bits⟩ := p
        obtain rfl := List.isEmpty_iff.mp hempty
        exact fun _ => nofun
      exact ⟨σ, hσ, fun r hr c hc => by rw [hm r hr c hc, if_pos (hmet r)]⟩
    · exact ⟨1, norm_one, fun r hr c hc => by rw [hm r hr c hc, ite_self]⟩

/-- Two rows each, of which one matrix is the adjoint of the other times `σ`. -/
theorem rows_adjoint {σ a b c d a' b' c' d' : ℂ} (ha : a = σ * conj a') (hb : b = σ * conj c')
    (hc : c = σ * conj b') (hd : d = σ * conj d') :
    ∀ r < 2 ^ 1, ∀ l < 2 ^ 1, (ofRows 1 [[a, b], [c, d]]).entry r l =
      σ * conj ((ofRows 1 [[a', b'], [c', d']]).entry l r) := by
  intro r hr l hl
  have hr' : r = 0 ∨ r = 1 := by omega
  have hl' : l = 0 ∨ l = 1 := by omega
  rcases hr' with rfl | rfl <;> rcases hl' with rfl | rfl
  · exact ha
  · exact hb
  · exact hc
  · exact hd

end Operator

namespace BaseGate

/-- All angles of the gate. -/
def angles : BaseGate → List Angle
  | .rx θ => [θ]
  | .ry θ => [θ]
  | .rz θ => [θ]
  | .u θ φ lam => [θ, φ, lam]
  | _ => []

/-- The angle of which the gate takes the half. -/
def halved : BaseGate → Angle
  | .rx θ => θ
  | .ry θ => θ
  | .rz θ => θ
  | .u θ _ _ => θ
  | _ => .zero

variable {g g' : BaseGate}

theorem backwards_eq_ok {θ θ' : Angle} (h : backwards θ = .ok θ') : θ.neg = .ok θ' := by
  unfold backwards at h
  cases hneg : θ.neg with
  | error e => simp [hneg, Except.mapError] at h
  | ok a => simpa [hneg, Except.mapError] using h

theorem inverse_arity (h : g.inverse = .ok g') :
    g'.arity = g.arity ∧ ∀ name n, g' ≠ .blackBox name n := by
  cases g with
  | rx θ =>
    obtain ⟨_, _, h⟩ := except_bind_eq_ok.mp h
    cases h
    exact ⟨rfl, nofun⟩
  | ry θ =>
    obtain ⟨_, _, h⟩ := except_bind_eq_ok.mp h
    cases h
    exact ⟨rfl, nofun⟩
  | rz θ =>
    obtain ⟨_, _, h⟩ := except_bind_eq_ok.mp h
    cases h
    exact ⟨rfl, nofun⟩
  | u θ φ lam =>
    obtain ⟨_, _, h⟩ := except_bind_eq_ok.mp h
    obtain ⟨_, _, h⟩ := except_bind_eq_ok.mp h
    obtain ⟨_, _, h⟩ := except_bind_eq_ok.mp h
    cases h
    exact ⟨rfl, nofun⟩
  | blackBox name n => cases h
  | _ =>
    cases h
    exact ⟨rfl, nofun⟩

section Backwards

variable {θ θ' : Angle} (hθ : θ.turns.Canonical) (h : backwards θ = .ok θ')

include hθ h

theorem cosHalf_backwards : (cosHalf θ : ℂ) = θ.reversalSign * conj (cosHalf θ') := by
  rw [conj_cosHalf, Angle.cosHalf_neg hθ (backwards_eq_ok h), ← mul_assoc,
    θ.reversalSign_mul_self, one_mul]

theorem sinHalf_backwards : (sinHalf θ : ℂ) = -(θ.reversalSign * conj (sinHalf θ')) := by
  rw [conj_sinHalf, Angle.sinHalf_neg hθ (backwards_eq_ok h), mul_neg, neg_neg,
    ← mul_assoc, θ.reversalSign_mul_self, one_mul]

theorem conj_cisHalf_backwards : (conj (cisHalf θ) : ℂ) = θ.reversalSign * cisHalf θ' := by
  rw [Angle.cisHalf_neg hθ (backwards_eq_ok h), ← mul_assoc, θ.reversalSign_mul_self,
    one_mul]

theorem cisHalf_backwards : (cisHalf θ : ℂ) = θ.reversalSign * conj (cisHalf θ') := by
  have hsign : (conj θ.reversalSign : ℂ) = θ.reversalSign := by
    unfold Angle.reversalSign
    split
    next => exact conj_one
    next => rw [conj_neg, conj_one]
  rw [← conj_conj (cisHalf θ), conj_cisHalf_backwards hθ h, conj_mul, hsign]

theorem cis_backwards : (cis θ : ℂ) = conj (cis θ') := by
  rw [Angle.cis_neg hθ (backwards_eq_ok h), conj_conj]

end Backwards

/-- The matrix of a gate is the adjoint of that of its inverse, up to the sign that comes with half
an angle. -/
theorem inverse_adjoint (hangles : ∀ θ ∈ g.angles, θ.turns.Canonical) (h : g.inverse = .ok g')
    (boxes : String → Nat → Operator ℂ) :
    ∀ r < 2 ^ g.arity, ∀ l < 2 ^ g.arity,
      (g.exact boxes).entry r l = g.halved.reversalSign * conj ((g'.exact boxes).entry l r) := by
  -- a gate that takes no half of an angle comes without a sign
  have hplain : ∀ {z w : ℂ}, z = conj w → z = Angle.zero.reversalSign * conj w := by
    intro z w hz
    rw [Angle.reversalSign_zero, one_mul, hz]
  have hone := hplain conj_one.symm
  have hzero : ∀ σ : ℂ, (0 : ℂ) = σ * conj 0 := fun σ => by rw [conj_zero, mul_zero]
  have hi' : (-i : ℂ) = conj i := Complex.conj_I.symm
  have hi : (i : ℂ) = conj (-i) := by rw [conj_neg, ← hi', neg_neg]
  have hquarter : Angle.quarterPi.turns.Canonical :=
    ⟨⟨by decide, by decide⟩, by decide, by decide⟩
  have hturn : backwards .quarterPi = .ok .minusQuarterPi := by decide
  cases g with
  | h =>
    cases h
    have hentry := hplain conj_rootHalf.symm
    exact Operator.rows_adjoint hentry hentry hentry (hplain (by rw [conj_neg, conj_rootHalf]))
  | x =>
    cases h
    exact Operator.rows_adjoint (hzero _) hone hone (hzero _)
  | y =>
    cases h
    exact Operator.rows_adjoint (hzero _) (hplain hi') (hplain hi) (hzero _)
  | z =>
    cases h
    exact Operator.rows_adjoint hone (hzero _) (hzero _) (hplain (by rw [conj_neg, conj_one]))
  | s =>
    cases h
    exact Operator.rows_adjoint hone (hzero _) (hzero _) (hplain hi)
  | sdg =>
    cases h
    exact Operator.rows_adjoint hone (hzero _) (hzero _) (hplain hi')
  | t =>
    cases h
    exact Operator.rows_adjoint hone (hzero _) (hzero _) (hplain (cis_backwards hquarter hturn))
  | tdg =>
    cases h
    refine Operator.rows_adjoint hone (hzero _) (hzero _) (hplain ?_)
    rw [cis_backwards hquarter hturn, conj_conj]
  | rx θ =>
    obtain ⟨θ', hθ, h⟩ := except_bind_eq_ok.mp h
    cases h
    have hcos := cosHalf_backwards (hangles θ (by simp [angles])) hθ
    have hsin := sinHalf_backwards (hangles θ (by simp [angles])) hθ
    have hoff : -i * sinHalf θ = θ.reversalSign * conj (-i * sinHalf θ') := by
      rw [conj_mul, ← hi]
      linear_combination -i * hsin
    exact Operator.rows_adjoint hcos hoff hoff hcos
  | ry θ =>
    obtain ⟨θ', hθ, h⟩ := except_bind_eq_ok.mp h
    cases h
    have hcos := cosHalf_backwards (hangles θ (by simp [angles])) hθ
    have hsin := sinHalf_backwards (hangles θ (by simp [angles])) hθ
    have hsin' : -sinHalf θ = θ.reversalSign * conj (sinHalf θ') := by rw [hsin, neg_neg]
    have hoff : sinHalf θ = θ.reversalSign * conj (-sinHalf θ') := by rw [hsin, conj_neg, mul_neg]
    exact Operator.rows_adjoint hcos hsin' hoff hcos
  | rz θ =>
    obtain ⟨θ', hθ, h⟩ := except_bind_eq_ok.mp h
    cases h
    refine Operator.rows_adjoint ?_ (hzero _) (hzero _)
      (cisHalf_backwards (hangles θ (by simp [angles])) hθ)
    rw [conj_conj]
    exact conj_cisHalf_backwards (hangles θ (by simp [angles])) hθ
  | u θ φ lam =>
    obtain ⟨θ', hθ, h⟩ := except_bind_eq_ok.mp h
    obtain ⟨lam', hlam, h⟩ := except_bind_eq_ok.mp h
    obtain ⟨φ', hφ, h⟩ := except_bind_eq_ok.mp h
    cases h
    have hcos := cosHalf_backwards (hangles θ (by simp [angles])) hθ
    have hsin := sinHalf_backwards (hangles θ (by simp [angles])) hθ
    have hcisφ := cis_backwards (hangles φ (by simp [angles])) hφ
    have hcislam := cis_backwards (hangles lam (by simp [angles])) hlam
    have hright : -cis lam * sinHalf θ = θ.reversalSign * conj (cis lam' * sinHalf θ') := by
      rw [conj_mul, ← hcislam]
      linear_combination -cis lam * hsin
    have hleft : cis φ * sinHalf θ = θ.reversalSign * conj (-cis φ' * sinHalf θ') := by
      rw [conj_mul, conj_neg, ← hcisφ]
      linear_combination cis φ * hsin
    have hlast : cis φ * cis lam * cosHalf θ =
        θ.reversalSign * conj (cis lam' * cis φ' * cosHalf θ') := by
      rw [conj_mul, conj_mul, ← hcisφ, ← hcislam]
      linear_combination cis φ * cis lam * hcos
    exact Operator.rows_adjoint hcos hright hleft hlast
  | swap =>
    cases h
    intro r hr l hl
    change r < 4 at hr
    change l < 4 at hl
    interval_cases r <;> interval_cases l <;> first | exact hone | exact hzero _
  | blackBox name n => cases h

theorem operands_exact (hbox : ∀ name n, g ≠ .blackBox name n)
    (boxes : String → Nat → Operator ℂ) : (g.exact boxes).operands = g.arity := by
  cases g with
  | blackBox name n => exact absurd rfl (hbox name n)
  | _ => rfl

theorem ne_blackBox_of_inverse (h : g.inverse = .ok g') (name : String) (n : Nat) :
    g ≠ .blackBox name n := by
  rintro rfl
  cases h

theorem times_inverse (hangles : ∀ θ ∈ g.angles, θ.turns.Canonical) (h : g.inverse = .ok g')
    (boxes : String → Nat → Operator ℂ) {r c : Nat} (hr : r < (g.exact boxes).dim)
    (hc : c < (g.exact boxes).dim) :
    ((g.exact boxes).times (g'.exact boxes)).entry r c =
      if r = c then g.halved.reversalSign else 0 := by
  have hdim : (g.exact boxes).dim = 2 ^ g.arity := by
    rw [Operator.dim, operands_exact (ne_blackBox_of_inverse h), Nat.one_shiftLeft]
  obtain ⟨harity, hbox⟩ := inverse_arity h
  have hunitary := @BaseGate.unitary boxes g' hbox
  rw [harity] at hunitary
  rw [hdim] at hr hc
  calc ((g.exact boxes).times (g'.exact boxes)).entry r c
      = ∑ l ∈ Finset.range (2 ^ g.arity),
          (g.exact boxes).entry r l * (g'.exact boxes).entry l c := by rw [← hdim]; rfl
    _ = ∑ l ∈ Finset.range (2 ^ g.arity), g.halved.reversalSign *
          (conj ((g'.exact boxes).entry l r) * (g'.exact boxes).entry l c) := by
        apply Finset.sum_congr rfl
        intro l hl
        rw [inverse_adjoint hangles h boxes r hr l (Finset.mem_range.mp hl), mul_assoc]
    _ = if r = c then g.halved.reversalSign else 0 := by
        rw [← Finset.mul_sum, hunitary r c hr hc, mul_ite, mul_one, mul_zero]

/-- Only a sum of angles can keep a gate from having its matrix. -/
theorem operator_eq_exact_or (hbox : ∀ name n, g ≠ .blackBox name n)
    (boxes : String → Nat → Operator ℂ) :
    g.operator = .ok (some (g.exact boxes)) ∨
      ∃ θ φ lam e, g = .u θ φ lam ∧ φ.add lam = .error e := by
  cases g with
  | u θ φ lam =>
    cases hsum : φ.add lam with
    | error e => exact Or.inr ⟨θ, φ, lam, e, rfl, hsum⟩
    | ok sum =>
      left
      obtain ⟨m, hm⟩ : ∃ m : Operator ℂ, (u θ φ lam).operator = .ok (some m) := by
        simp only [operator, hsum]
        exact ⟨_, rfl⟩
      rw [exact_eq hm boxes, hm]
  | blackBox name n => exact absurd rfl (hbox name n)
  | _ => exact Or.inl rfl

end BaseGate

namespace Gate

def angles : Gate → List Angle
  | .base g => g.angles
  | .controlled g _ => g.angles
  | _ => []

def halved : Gate → Angle
  | .base g => g.halved
  | .controlled g _ => g.halved
  | _ => .zero

/-- The values that are required of the controls, of which most gates have none. -/
def polarity : Gate → Polarity
  | .controlled _ p => p
  | _ => ⟨[]⟩

variable {g g' : Gate}

theorem inverse_cases (h : g.inverse = .ok g') :
    (∃ a b, g = .base a ∧ g' = .base b ∧ a.inverse = .ok b) ∨
      ∃ a b p, g = .controlled a p ∧ g' = .controlled b p ∧ a.inverse = .ok b := by
  cases g with
  | base a =>
    obtain ⟨b, hb, h⟩ := except_bind_eq_ok.mp h
    cases h
    exact Or.inl ⟨a, b, rfl, rfl, hb⟩
  | controlled a p =>
    obtain ⟨b, hb, h⟩ := except_bind_eq_ok.mp h
    cases h
    exact Or.inr ⟨a, b, p, rfl, rfl, hb⟩
  | halfSwap => cases h
  | reset => cases h

/-- A gate and its inverse make the identity, but for a sign where the controls are met. -/
theorem times_inverse (hangles : ∀ θ ∈ g.angles, θ.turns.Canonical) (h : g.inverse = .ok g')
    (boxes : String → Nat → Operator ℂ) (outcome : Bool) :
    let m := g.exact boxes outcome
    ∀ r < m.dim, ∀ c < m.dim, (m.times (g'.exact boxes outcome)).entry r c =
      if r = c then if g.polarity.MetAt r then g.halved.reversalSign else 1 else 0 := by
  intro m r hr c hc
  rcases inverse_cases h with ⟨a, b, rfl, rfl, hab⟩ | ⟨a, b, p, rfl, rfl, hab⟩
  · have hmet : (Gate.base a).polarity.MetAt r := nofun
    rw [if_pos hmet]
    exact BaseGate.times_inverse hangles hab boxes hr hc
  · change (((a.exact boxes).controlled p).times ((b.exact boxes).controlled p)).entry r c = _
    change r < ((a.exact boxes).controlled p).dim at hr
    change c < ((a.exact boxes).controlled p).dim at hc
    rw [Operator.controlled_times _ _ p hr c]
    rw [Operator.dim_controlled] at hr hc
    by_cases hmet : p.MetAt r
    · rw [Operator.controlled_entry_of_met _ hmet]
      by_cases hmet' : p.MetAt c
      · rw [if_pos hmet', BaseGate.times_inverse hangles hab boxes (Nat.div_lt_of_lt_mul hr)
          (Nat.div_lt_of_lt_mul hc)]
        simp only [hmet.div_eq_iff hmet', polarity, halved, hmet, if_true]
      · have hne : r ≠ c := fun e => hmet' (e ▸ hmet)
        rw [if_neg hmet', if_neg hne]
    · rw [Operator.controlled_entry_of_not_met _ hmet, polarity, if_neg hmet]

theorem operands_inverse (h : g.inverse = .ok g') (boxes : String → Nat → Operator ℂ)
    (outcome : Bool) : (g'.exact boxes outcome).operands = (g.exact boxes outcome).operands := by
  have hbase : ∀ {a b : BaseGate}, a.inverse = .ok b →
      (b.exact boxes).operands = (a.exact boxes).operands := by
    intro a b hab
    obtain ⟨harity, hbox⟩ := BaseGate.inverse_arity hab
    rw [BaseGate.operands_exact hbox, harity,
      BaseGate.operands_exact (BaseGate.ne_blackBox_of_inverse hab)]
  rcases inverse_cases h with ⟨a, b, rfl, rfl, hab⟩ | ⟨a, b, p, rfl, rfl, hab⟩
  · exact hbase hab
  · exact congrArg (p.length + ·) (hbase hab)

theorem operator_inverse (h : g.inverse = .ok g') (boxes : String → Nat → Operator ℂ)
    (outcome : Bool) :
    g'.operator = .ok (some (g'.exact boxes outcome)) ∨
      ∃ θ φ lam e, φ.add lam = .error e ∧
        (g' = .base (.u θ φ lam) ∨ ∃ p, g' = .controlled (.u θ φ lam) p) := by
  rcases inverse_cases h with ⟨a, b, rfl, rfl, hab⟩ | ⟨a, b, p, rfl, rfl, hab⟩
  · rcases BaseGate.operator_eq_exact_or (BaseGate.inverse_arity hab).2 boxes with
      hop | ⟨θ, φ, lam, e, rfl, hsum⟩
    · exact Or.inl hop
    · exact Or.inr ⟨θ, φ, lam, e, hsum, Or.inl rfl⟩
  · rcases BaseGate.operator_eq_exact_or (BaseGate.inverse_arity hab).2 boxes with
      hop | ⟨θ, φ, lam, e, rfl, hsum⟩
    · left
      simp only [operator, hop]
      rfl
    · exact Or.inr ⟨θ, φ, lam, e, hsum, Or.inr ⟨p, rfl⟩⟩

theorem length_polarity_le (g : Gate) (boxes : String → Nat → Operator ℂ) (outcome : Bool) :
    g.polarity.length ≤ (g.exact boxes outcome).operands := by
  cases g with
  | controlled a p => exact Nat.le_add_right p.length (a.exact boxes).operands
  | _ => exact Nat.zero_le _

/-- A gate and its inverse make the identity, but for the sign that comes with half an angle. The
sign is there only where all controls are met, so that the product is the identity up to a phase
just when there are no controls or the angle is zero. The angles are in their one form modulo a
turn, as all computed ones are. -/
theorem inverse_isPhase_iff {m : Operator ℂ} (hangles : ∀ θ ∈ g.angles, θ.turns.Canonical)
    (hm : g.operator = .ok (some m)) (h : g.inverse = .ok g')
    (boxes : String → Nat → Operator ℂ) (outcome : Bool) :
    let m' := g'.exact boxes outcome
    (g'.operator = .ok (some m') ∨ ∃ θ φ lam e, φ.add lam = .error e ∧
      (g' = .base (.u θ φ lam) ∨ ∃ p, g' = .controlled (.u θ φ lam) p)) ∧
    m'.operands = m.operands ∧
    (∀ r < m.dim, ∀ c < m.dim, (m.times m').entry r c =
      if r = c then if g.polarity.MetAt r then g.halved.reversalSign else 1 else 0) ∧
    ((m.times m').IsPhase ↔ g.polarity.isEmpty ∨ g.halved = .zero) := by
  obtain rfl := exact_eq hm boxes outcome
  intro m'
  have hproduct := times_inverse hangles h boxes outcome
  refine ⟨operator_inverse h boxes outcome, operands_inverse h boxes outcome, hproduct, ?_⟩
  have hdim : 2 ^ g.polarity.length ≤ ((g.exact boxes outcome).times m').dim := by
    rw [Operator.dim, Nat.one_shiftLeft]
    exact Nat.pow_le_pow_right Nat.two_pos (length_polarity_le g boxes outcome)
  rw [Operator.isPhase_iff_of_diagonal g.halved.norm_reversalSign hdim hproduct,
    Angle.reversalSign_eq_one_iff]

theorem controlled_third_inverse_isPhase_iff :
    let θ : Angle := ⟨⟨1, 3⟩⟩
    let g : Gate := .controlled (.rx θ) ⟨[true]⟩
    let g' : Gate := .controlled (.rx ⟨⟨2, 3⟩⟩) ⟨[true]⟩
    (∀ a ∈ g.angles, a.Computed) ∧ g.inverse = .ok g' ∧ ∃ m m' : Operator ℂ,
      g.operator = .ok (some m) ∧ g'.operator = .ok (some m') ∧
      (m.times m').entry 0 0 = 1 ∧ (m.times m').entry 1 1 = -1 ∧ ¬(m.times m').IsPhase := by
  intro θ g g'
  let boxes : String → Nat → Operator ℂ := fun _ n => ⟨n, fun _ _ => 0⟩
  have hcomputed : ∀ a ∈ g.angles, a.Computed := by
    intro a ha
    obtain rfl := List.mem_singleton.mp ha
    exact ⟨.ofTurns 1 3, by decide⟩
  have hangles : ∀ a ∈ g.angles, a.turns.Canonical := fun a ha =>
    (hcomputed a ha).stored.toCanonical
  have hinv : g.inverse = .ok g' := by decide
  obtain ⟨_, _, hproduct, hphase⟩ :=
    inverse_isPhase_iff hangles (show g.operator = .ok (some _) from rfl) hinv boxes false
  have hsign : g.halved.reversalSign = -1 := if_neg (by decide)
  refine ⟨hcomputed, hinv, _, _, rfl, rfl, ?_, ?_, ?_⟩
  · exact (hproduct 0 (by decide) 0 (by decide)).trans (by rw [if_pos rfl, if_neg (by decide)])
  · exact (hproduct 1 (by decide) 1 (by decide)).trans
      (by rw [if_pos rfl, if_pos (by decide), hsign])
  · exact mt hphase.mp (by decide)

end Gate

end BasisFlow
