import BasisFlow.Proofs.AngleTerms
import BasisFlow.Proofs.Simulation

namespace BasisFlow

/-- The computation ends in no fault but an overflow. -/
def OnlyOverflows {α : Type} (x : Except Fault α) : Prop :=
  ∀ fault, x = .error fault → fault = .overflow

section OnlyOverflows

variable {α β : Type} {x : Except Fault α}

theorem onlyOverflows_of_not_faults (h : ¬ Faults x) : OnlyOverflows x :=
  fun fault hx => absurd ⟨fault, hx⟩ h

theorem OnlyOverflows.bind {f : α → Except Fault β} (hx : OnlyOverflows x)
    (hf : ∀ a, x = .ok a → OnlyOverflows (f a)) : OnlyOverflows (x >>= f) := by
  cases x with
  | error fault =>
    intro fault' h
    cases h
    exact hx fault rfl
  | ok a => exact hf a rfl

theorem OnlyOverflows.faults_iff (hx : OnlyOverflows x) : Faults x ↔ x = .error .overflow := by
  constructor
  · rintro ⟨fault, h⟩
    rw [h, hx fault h]
  · intro h
    exact ⟨_, h⟩

theorem Word.onlyOverflows_fit (n : Int) : OnlyOverflows (fit n) := by
  intro fault h
  unfold fit at h
  split at h
  next => cases h
  next => cases h; rfl

end OnlyOverflows

/-- Neither sums nor differences of stored fractions have the denominator zero. -/
theorem Fraction.onlyOverflows_combine {x y : Fraction} (hx : x.Stored) (hy : y.Stored)
    (op : Int → Int → Int) : OnlyOverflows (combine op x y) := by
  unfold combine
  split
  next =>
    refine (Word.onlyOverflows_fit _).bind fun num _ => ?_
    exact onlyOverflows_of_not_faults (not_faults_make hx.den_pos hx.den_le num)
  next =>
    rw [Word.lcm_eq hx.den_pos hx.den_le hy.den_pos]
    refine (Word.onlyOverflows_fit _).bind fun l hl => ?_
    have hpos : 0 < l := Word.fit_eq_ok hl ▸ lcm_den_pos hx hy
    refine (Word.onlyOverflows_fit _).bind fun _ _ => (Word.onlyOverflows_fit _).bind fun _ _ => ?_
    refine (Word.onlyOverflows_fit _).bind fun num _ => ?_
    exact onlyOverflows_of_not_faults (not_faults_make hpos (Word.inRange_of_fit hl).2 num)

namespace Angle

/-- Two angles over a common denominator, or the sum of their numerators over it, are beyond the
signed words. -/
def SumTooLong (a b : Angle) : Prop :=
  Word.greatest < (Int.lcm a.turns.den b.turns.den : Int) ∨
    Word.greatest < a.turns.num * (Int.lcm a.turns.den b.turns.den / a.turns.den) +
      b.turns.num * (Int.lcm a.turns.den b.turns.den / b.turns.den)

variable {a b : Angle}

theorem faults_add_iff (ha : a.Computed) (hb : b.Computed) :
    Faults (a.add b) ↔ a.SumTooLong b :=
  (faults_bind_ofFraction_iff fun _ => Fraction.combine_sized ha.stored.sized).trans
    (Fraction.faults_add_iff ha.stored hb.stored)

theorem onlyOverflows_add (ha : a.Computed) (hb : b.Computed) : OnlyOverflows (a.add b) := by
  refine (Fraction.onlyOverflows_combine ha.stored hb.stored _).bind fun x hx => ?_
  exact onlyOverflows_of_not_faults
    (not_faults_ofFraction (Fraction.combine_sized ha.stored.sized hx))

end Angle

section Operators

variable {K : Type} [Zero K] [One K] [Neg K] [Mul K] [Amplitude K]

/-- Only a general rotation computes with its angles, and only a black box has no matrix. -/
theorem BaseGate.operator_cases {g : BaseGate}
    (hangles : ∀ θ φ lam, g = .u θ φ lam → φ.Computed ∧ lam.Computed) :
    ((g.operator : Except Fault (Option (Operator K))) = .error .overflow ∧
      ∃ θ φ lam, g = .u θ φ lam ∧ φ.SumTooLong lam) ∨
    ∃ m : Option (Operator K), g.operator = .ok m ∧
      (m = none ↔ ∃ name n, g = .blackBox name n) ∧
      ∀ θ φ lam, g = .u θ φ lam → ¬ φ.SumTooLong lam := by
  cases g with
  | u θ φ lam =>
    obtain ⟨hφ, hlam⟩ := hangles θ φ lam rfl
    by_cases h : φ.SumTooLong lam
    · left
      refine ⟨?_, θ, φ, lam, rfl, h⟩
      have hadd := (Angle.onlyOverflows_add hφ hlam).faults_iff.mp
        ((Angle.faults_add_iff hφ hlam).mpr h)
      rw [operator, hadd]
      rfl
    · right
      obtain ⟨sum, hadd⟩ := exists_ok_of_not_faults ((Angle.faults_add_iff hφ hlam).not.mpr h)
      rw [operator, hadd]
      refine ⟨_, rfl, by simp, ?_⟩
      rintro _ _ _ ⟨⟩
      exact h
  | blackBox name n => exact .inr ⟨none, rfl, by simp, by simp⟩
  | _ => exact .inr ⟨_, rfl, by simp, by simp⟩

namespace Gate

/-- The gate is `b`, alone or under controls. -/
def Over (g : Gate) (b : BaseGate) : Prop :=
  g = .base b ∨ ∃ p, g = .controlled b p

variable {g : Gate}

@[simp] theorem base_over {b b' : BaseGate} : (Gate.base b).Over b' ↔ b = b' := by
  simp [Over]

@[simp] theorem controlled_over {b b' : BaseGate} {p : Polarity} :
    (Gate.controlled b p).Over b' ↔ b = b' := by
  simp [Over]

/-- Controls neither cause an overflow nor avoid one. -/
theorem operator_cases (hangles : ∀ θ φ lam, g.Over (.u θ φ lam) → φ.Computed ∧ lam.Computed) :
    ((g.operator : Except Fault (Option (Operator K))) = .error .overflow ∧
      ∃ θ φ lam, g.Over (.u θ φ lam) ∧ φ.SumTooLong lam) ∨
    ∃ m : Option (Operator K), g.operator = .ok m ∧
      (m = none ↔ g = .reset ∨ ∃ name n, g.Over (.blackBox name n)) ∧
      ∀ θ φ lam, g.Over (.u θ φ lam) → ¬ φ.SumTooLong lam := by
  cases g with
  | base b => simpa [operator] using BaseGate.operator_cases (K := K) (by simpa using hangles)
  | halfSwap => exact .inr ⟨_, rfl, by simp [Over], by simp [Over]⟩
  | reset => exact .inr ⟨none, rfl, by simp, by simp [Over]⟩
  | controlled b p =>
    rcases BaseGate.operator_cases (K := K) (by simpa using hangles) with
      ⟨hb, hlong⟩ | ⟨m, hb, hnone, hshort⟩
    · refine .inl ⟨?_, by simpa using hlong⟩
      rw [operator, hb]
      rfl
    · refine .inr ⟨m.map (·.controlled p), ?_, ?_, by simpa using hshort⟩
      · rw [operator, hb]
        rfl
      · simpa using hnone

/-- Where there is room for the matrix of a gate, it is an overflow exactly if the gate is a general
rotation, alone or under controls, whose last two angles have too long a sum. Of all other gates
the matrix is found, unless the gate is a reset or a black box and has none. -/
theorem allocateOperator_overflows_iff (K : Type) [Zero K] [One K] [Neg K] [Mul K] [Amplitude K]
    (hroom : g.reserveOperator = .ok ())
    (hangles : ∀ θ φ lam, g.Over (.u θ φ lam) → φ.Computed ∧ lam.Computed) :
    ((g.allocateOperator : Except Fault (Option (Operator K))) = .error .overflow ↔
      ∃ θ φ lam, g.Over (.u θ φ lam) ∧ φ.SumTooLong lam) ∧
    ((∀ θ φ lam, g.Over (.u θ φ lam) → ¬ φ.SumTooLong lam) →
      ∃ m : Option (Operator K), g.allocateOperator = .ok m ∧
        (m = none ↔ g = .reset ∨ ∃ name n, g.Over (.blackBox name n))) := by
  rw [allocateOperator_of_room hroom]
  rcases operator_cases (K := K) hangles with ⟨hg, hlong⟩ | ⟨m, hg, hnone, hshort⟩
  · refine ⟨⟨fun _ => hlong, fun _ => hg⟩, fun hshort => ?_⟩
    obtain ⟨θ, φ, lam, hover, hsum⟩ := hlong
    exact absurd hsum (hshort θ φ lam hover)
  · refine ⟨⟨fun h => ?_, ?_⟩, fun _ => ⟨m, hg, hnone⟩⟩
    · rw [hg] at h
      cases h
    · rintro ⟨θ, φ, lam, hover, hsum⟩
      exact absurd hsum (hshort θ φ lam hover)

/-- Half a turn and the smallest angle have no common denominator that is a word. A rotation by
the smallest angle alone has its matrix. -/
theorem smallest_turn_allocateOperator_overflows :
    let φ : Angle := ⟨⟨1, 2⟩⟩
    let lam : Angle := ⟨⟨1, 9223372036854775807⟩⟩
    let g : Gate := .controlled (.u .zero φ lam) ⟨[true, false]⟩
    φ.Computed ∧ lam.Computed ∧ g.reserveOperator = .ok () ∧
      (g.allocateOperator : Except Fault (Option (Operator ℂ))) = .error .overflow ∧
      ∃ m : Option (Operator ℂ), (Gate.base (.rz lam)).allocateOperator = .ok m ∧ m ≠ none := by
  intro φ lam g
  have hφ : φ.Computed := ⟨.ofTurns 1 2, by decide⟩
  have hlam : lam.Computed := ⟨.ofTurns 1 9223372036854775807, by decide⟩
  have hroom : g.reserveOperator = .ok () := by decide
  have hangles : ∀ θ' φ' lam', g.Over (.u θ' φ' lam') → φ'.Computed ∧ lam'.Computed := by
    intro θ' φ' lam' h
    obtain ⟨_, rfl, rfl⟩ := BaseGate.u.inj (controlled_over.mp h)
    exact ⟨hφ, hlam⟩
  have hlong : φ.SumTooLong lam := .inl (by decide)
  obtain ⟨hover, _⟩ := allocateOperator_overflows_iff ℂ hroom hangles
  obtain ⟨_, hother⟩ := allocateOperator_overflows_iff ℂ (g := .base (.rz lam)) rfl (by simp)
  obtain ⟨m, hm, hnone⟩ := hother (by simp)
  exact ⟨hφ, hlam, hroom, hover.mpr ⟨_, _, _, controlled_over.mpr rfl, hlong⟩, m, hm,
    hnone.not.mpr (by simp)⟩

end Gate

end Operators

end BasisFlow
