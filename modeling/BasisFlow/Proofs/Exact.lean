import BasisFlow.Gate.Operator
import Mathlib.Analysis.SpecialFunctions.Trigonometric.Basic
import Mathlib.Tactic.FieldSimp

namespace BasisFlow

open Amplitude

theorem except_bind_eq_ok {ε α β : Type} {x : Except ε α} {f : α → Except ε β} {b : β} :
    (x >>= f) = .ok b ↔ ∃ a, x = .ok a ∧ f a = .ok b := by
  cases x with
  | error e => simp [bind, Except.bind]
  | ok a => simp [bind, Except.bind]

theorem Word.fit_eq_ok {x y : Int} (h : Word.fit x = .ok y) : y = x := by
  unfold Word.fit at h
  split at h
  next => exact (Except.ok.inj h).symm
  next => cases h

noncomputable section

namespace Fraction

/-- The number that a fraction stands for. -/
def value (x : Fraction) : ℝ :=
  x.num / x.den

theorem make_value {n d : Int} {x : Fraction} (h : make n d = .ok x) :
    d ≠ 0 ∧ x.value = n / d := by
  unfold make at h
  split at h
  next => cases h
  next hd =>
    have hd' : (d : ℝ) ≠ 0 := Int.cast_ne_zero.mpr hd
    refine ⟨hd, ?_⟩
    split at h
    next hn =>
      cases h
      simp [value, hn]
    next =>
      split at h
      next hnd =>
        cases h
        simp [value, hnd, hd']
      next =>
        obtain ⟨g, hg, h⟩ := except_bind_eq_ok.mp h
        obtain rfl := Word.fit_eq_ok hg
        have hg0 : ((Int.gcd n d : Int) : ℝ) ≠ 0 := by simp [Int.gcd_eq_zero_iff, hd]
        have hnum : ((n / (Int.gcd n d : Int) : Int) : ℝ) = n / (Int.gcd n d : Int) :=
          Int.cast_div (Int.gcd_dvd_left n d) hg0
        have hden : ((d / (Int.gcd n d : Int) : Int) : ℝ) = d / (Int.gcd n d : Int) :=
          Int.cast_div (Int.gcd_dvd_right n d) hg0
        have hquot : ((n / (Int.gcd n d : Int) : Int) : ℝ) / ((d / (Int.gcd n d : Int) : Int) : ℝ) =
            n / d := by
          rw [hnum, hden, div_div_div_cancel_right₀ hg0]
        split at h
        next =>
          obtain ⟨num, hn, h⟩ := except_bind_eq_ok.mp h
          obtain ⟨den, hd, h⟩ := except_bind_eq_ok.mp h
          obtain rfl := Word.fit_eq_ok hn
          obtain rfl := Word.fit_eq_ok hd
          cases h
          rw [value, Int.cast_neg, Int.cast_neg, neg_div_neg_eq, hquot]
        next =>
          cases h
          exact hquot

theorem lcm_dvd {m n l : Int} (h : Word.lcm m n = .ok l) : m ∣ l ∧ n ∣ l := by
  obtain ⟨g, hg, h⟩ := except_bind_eq_ok.mp h
  obtain ⟨p, hp, h⟩ := except_bind_eq_ok.mp h
  obtain rfl := Word.fit_eq_ok hg
  obtain rfl := Word.fit_eq_ok hp
  obtain rfl := Word.fit_eq_ok h
  rw [Int.dvd_natAbs, Int.dvd_natAbs]
  refine ⟨Dvd.intro _ rfl, ?_⟩
  rw [← Int.mul_ediv_assoc m (Int.gcd_dvd_right m n), Int.mul_comm,
    Int.mul_ediv_assoc n (Int.gcd_dvd_left m n)]
  exact Dvd.intro _ rfl

/-- An operation that may be taken before or after a division is exact on fractions. -/
theorem combine_value {op : Int → Int → Int} {f : ℝ → ℝ → ℝ}
    (hop : ∀ a b l : Int, ((op a b : Int) : ℝ) / l = f (a / l) (b / l)) {x y z : Fraction}
    (h : combine op x y = .ok z) : z.value = f x.value y.value := by
  unfold combine at h
  split at h
  next hden =>
    obtain ⟨num, hnum, h⟩ := except_bind_eq_ok.mp h
    obtain rfl := Word.fit_eq_ok hnum
    obtain ⟨_, hz⟩ := make_value h
    rw [hz, hop, value, value, ← hden]
  next =>
    obtain ⟨l, hl, h⟩ := except_bind_eq_ok.mp h
    obtain ⟨a, ha, h⟩ := except_bind_eq_ok.mp h
    obtain ⟨b, hb, h⟩ := except_bind_eq_ok.mp h
    obtain ⟨num, hnum, h⟩ := except_bind_eq_ok.mp h
    obtain rfl := Word.fit_eq_ok ha
    obtain rfl := Word.fit_eq_ok hb
    obtain rfl := Word.fit_eq_ok hnum
    obtain ⟨hl0, hz⟩ := make_value h
    obtain ⟨hx, hy⟩ := lcm_dvd hl
    have hlr : (l : ℝ) ≠ 0 := Int.cast_ne_zero.mpr hl0
    have hpart : ∀ u v : Int, v ∣ l → ((u * (l / v) : Int) : ℝ) / l = u / v := by
      intro u v hv
      have hv0 : (v : ℝ) ≠ 0 := by
        refine Int.cast_ne_zero.mpr fun e => hl0 ?_
        rw [e] at hv
        exact Int.zero_dvd.mp hv
      rw [Int.cast_mul, Int.cast_div hv hv0]
      field_simp
    rw [hz, hop, hpart _ _ hx, hpart _ _ hy]
    rfl

theorem add_value {x y z : Fraction} (h : x.add y = .ok z) : z.value = x.value + y.value :=
  combine_value (fun a b l => by rw [Int.cast_add, add_div]) h

theorem modOne_value {x z : Fraction} (h : x.modOne = .ok z) :
    ∃ turns : Int, x.value = z.value + turns := by
  obtain ⟨hd, hz⟩ := make_value h
  have hd' : (x.den : ℝ) ≠ 0 := Int.cast_ne_zero.mpr hd
  have hsplit : (x.num : ℝ) = (x.num % x.den : Int) + x.den * (x.num / x.den : Int) := by
    exact_mod_cast (Int.emod_add_mul_ediv x.num x.den).symm
  refine ⟨x.num / x.den, ?_⟩
  rw [hz, value]
  nth_rewrite 1 [hsplit]
  rw [add_div, mul_div_cancel_left₀ _ hd']

end Fraction

/-- Half the angle, in radians. -/
def Angle.half (θ : Angle) : ℝ :=
  Real.pi * θ.turns.value

instance : Amplitude ℂ where
  i := Complex.I
  conj := starRingEnd ℂ
  rootHalf := ((√2)⁻¹ : ℝ)
  cis θ := Complex.exp ((2 * θ.half : ℝ) * Complex.I)
  cisHalf θ := Complex.exp ((θ.half : ℝ) * Complex.I)
  cosHalf θ := (Real.cos θ.half : ℝ)
  sinHalf θ := (Real.sin θ.half : ℝ)

theorem Angle.cis_add {a b s : Angle} (h : a.add b = .ok s) :
    (cis s : ℂ) = cis a * cis b := by
  obtain ⟨x, hx, h⟩ := except_bind_eq_ok.mp h
  obtain ⟨y, hy, h⟩ := except_bind_eq_ok.mp h
  cases h
  have hsum := Fraction.add_value hx
  obtain ⟨turns, hturns⟩ := Fraction.modOne_value hy
  have hperiod := Complex.exp_periodic.int_mul turns
    ((2 * (Angle.mk y).half : ℝ) * Complex.I)
  have hangle : (2 * a.half : ℝ) * Complex.I + (2 * b.half : ℝ) * Complex.I =
      (2 * (Angle.mk y).half : ℝ) * Complex.I + turns * (2 * Real.pi * Complex.I) := by
    have hreal : 2 * a.half + 2 * b.half = 2 * (Angle.mk y).half + turns * (2 * Real.pi) := by
      have hvalue : a.turns.value + b.turns.value = y.value + turns := by rw [← hsum, hturns]
      simp only [Angle.half]
      linear_combination 2 * Real.pi * hvalue
    have hcast := congrArg (fun r : ℝ => (r : ℂ)) hreal
    push_cast at hcast ⊢
    linear_combination Complex.I * hcast
  change Complex.exp _ = Complex.exp _ * Complex.exp _
  rw [← Complex.exp_add, hangle, hperiod]

/-- The matrix that was found, if one was. -/
def Operator.foundOr (fallback : Operator ℂ) :
    Except Fault (Option (Operator ℂ)) → Operator ℂ
  | .ok (some m) => m
  | _ => fallback

/-- The matrix of a gate, where black boxes have the matrices `boxes`. No sum of angles is taken for
a general rotation, so that it has a matrix in all cases. -/
def BaseGate.exact (boxes : String → Nat → Operator ℂ) : BaseGate → Operator ℂ
  | .u θ φ lam => .ofRows 1
      [[cosHalf θ, -cis lam * sinHalf θ], [cis φ * sinHalf θ, cis φ * cis lam * cosHalf θ]]
  | .blackBox name n => boxes name n
  | g => .foundOr (boxes g.name g.arity) g.operator

/-- The matrix of a gate. A reset that meets the value `outcome` leaves zero in its place. -/
def Gate.exact (boxes : String → Nat → Operator ℂ) (outcome : Bool) : Gate → Operator ℂ
  | .base g => g.exact boxes
  | .halfSwap => .foundOr (boxes "half_swap" 2) Gate.halfSwap.operator
  | .reset => ⟨1, fun r c => if r = 0 ∧ c = outcome.toNat then 1 else 0⟩
  | .controlled g p => (g.exact boxes).controlled p

/-- Wherever a gate has a matrix, it is the exact one. -/
theorem BaseGate.exact_eq {g : BaseGate} {m : Operator ℂ} (h : g.operator = .ok (some m))
    (boxes : String → Nat → Operator ℂ) : g.exact boxes = m := by
  cases g with
  | u θ φ lam =>
    obtain ⟨sum, hsum, h⟩ := except_bind_eq_ok.mp h
    cases h
    rw [exact, Angle.cis_add hsum]
  | blackBox name n => cases h
  | _ => simp only [exact, h, Operator.foundOr]

theorem Gate.exact_eq {g : Gate} {m : Operator ℂ} (h : g.operator = .ok (some m))
    (boxes : String → Nat → Operator ℂ) (outcome : Bool) : g.exact boxes outcome = m := by
  cases g with
  | base g => exact BaseGate.exact_eq h boxes
  | halfSwap => simp only [exact, h, Operator.foundOr]
  | reset => cases h
  | controlled g p =>
    obtain ⟨m', hm', h⟩ := except_bind_eq_ok.mp h
    cases m' with
    | none => cases h
    | some m' =>
      cases h
      rw [exact, BaseGate.exact_eq hm']

end

end BasisFlow
