import BasisFlow.Proofs.Exact

namespace BasisFlow

open Amplitude

namespace Fraction

/-- The denominator is positive and shares no divisor with the numerator. -/
structure Reduced (x : Fraction) : Prop where
  den_pos : 0 < x.den
  gcd_eq : Int.gcd x.num x.den = 1

/-- The one form of a fraction modulo one. -/
structure Canonical (x : Fraction) : Prop extends x.Reduced where
  num_nonneg : 0 ≤ x.num
  num_lt : x.num < x.den

theorem make_reduced {n d : Int} {x : Fraction} (h : make n d = .ok x) : x.Reduced := by
  unfold make at h
  split at h
  next => cases h
  next hd =>
    split at h
    next => cases h; exact ⟨by decide, by decide⟩
    next =>
      split at h
      next => cases h; exact ⟨by decide, by decide⟩
      next =>
        obtain ⟨g, hg, h⟩ := except_bind_eq_ok.mp h
        obtain rfl := Word.fit_eq_ok hg
        have hpos : 0 < Int.gcd n d := Int.gcd_pos_of_ne_zero_right n hd
        have hcoprime : Int.gcd (n / (Int.gcd n d : Int)) (d / (Int.gcd n d : Int)) = 1 :=
          Int.gcd_ediv_gcd_ediv_gcd hpos
        have hcancel : d / (Int.gcd n d : Int) * (Int.gcd n d : Int) = d :=
          Int.ediv_mul_cancel (Int.gcd_dvd_right n d)
        split at h
        next hneg =>
          obtain ⟨num, hn, h⟩ := except_bind_eq_ok.mp h
          obtain ⟨den, hd, h⟩ := except_bind_eq_ok.mp h
          obtain rfl := Word.fit_eq_ok hn
          obtain rfl := Word.fit_eq_ok hd
          cases h
          refine ⟨?_, by rw [Int.gcd_neg, Int.neg_gcd, hcoprime]⟩
          by_contra hnot
          have hmul : 0 ≤ d / (Int.gcd n d : Int) * (Int.gcd n d : Int) :=
            Int.mul_nonneg (by simpa using hnot) (by omega)
          omega
        next hnonneg =>
          cases h
          refine ⟨?_, hcoprime⟩
          exact Int.ediv_pos_of_pos_of_dvd (by omega) (by omega) (Int.gcd_dvd_right n d)

theorem modOne_canonical {x z : Fraction} (hx : 0 < x.den) (h : x.modOne = .ok z) :
    z.Canonical := by
  have hz := make_reduced h
  obtain ⟨_, hvalue⟩ := make_value h
  have hxden : (0 : ℝ) < x.den := Int.cast_pos.mpr hx
  have hzden : (0 : ℝ) < z.den := Int.cast_pos.mpr hz.den_pos
  have hnonneg : (0 : ℝ) ≤ (x.num % x.den : Int) := Int.cast_nonneg (Int.emod_nonneg _ hx.ne')
  have hlt : ((x.num % x.den : Int) : ℝ) < x.den := Int.cast_lt.mpr (Int.emod_lt_of_pos _ hx)
  refine ⟨hz, ?_, ?_⟩
  · have hlow : 0 ≤ z.value := hvalue ▸ div_nonneg hnonneg hxden.le
    rw [value, le_div_iff₀ hzden, zero_mul] at hlow
    exact_mod_cast hlow
  · have hhigh : z.value < 1 := hvalue ▸ (div_lt_one hxden).mpr hlt
    rw [value, div_lt_one hzden] at hhigh
    exact_mod_cast hhigh

theorem neg_eq_ok {x y : Fraction} (h : x.neg = .ok y) : y = ⟨-x.num, x.den⟩ := by
  obtain ⟨num, hnum, h⟩ := except_bind_eq_ok.mp h
  obtain rfl := Word.fit_eq_ok hnum
  cases h
  rfl

theorem combine_reduced {op : Int → Int → Int} {x y z : Fraction} (h : combine op x y = .ok z) :
    z.Reduced := by
  unfold combine at h
  split at h
  next =>
    obtain ⟨num, _, h⟩ := except_bind_eq_ok.mp h
    exact make_reduced h
  next =>
    obtain ⟨l, _, h⟩ := except_bind_eq_ok.mp h
    obtain ⟨a, _, h⟩ := except_bind_eq_ok.mp h
    obtain ⟨b, _, h⟩ := except_bind_eq_ok.mp h
    obtain ⟨num, _, h⟩ := except_bind_eq_ok.mp h
    exact make_reduced h

theorem scale_reduced {x z : Fraction} {k : Int} (h : x.scale k = .ok z) : z.Reduced := by
  obtain ⟨g, _, h⟩ := except_bind_eq_ok.mp h
  obtain ⟨num, _, h⟩ := except_bind_eq_ok.mp h
  exact make_reduced h

theorem shrink_reduced {x z : Fraction} {k : Int} (h : x.shrink k = .ok z) : z.Reduced := by
  obtain ⟨g, _, h⟩ := except_bind_eq_ok.mp h
  split at h
  next => cases h
  next =>
    obtain ⟨den, _, h⟩ := except_bind_eq_ok.mp h
    exact make_reduced h

end Fraction

namespace Angle

/-- Every operation ends by dropping whole turns from a fraction. -/
theorem bind_ofFraction_canonical {x? : Except Fault Fraction} {a : Angle}
    (hpos : ∀ x, x? = .ok x → 0 < x.den) (h : x? >>= ofFraction = .ok a) : a.turns.Canonical := by
  obtain ⟨x, hx, h⟩ := except_bind_eq_ok.mp h
  obtain ⟨turns, hturns, h⟩ := except_bind_eq_ok.mp h
  cases h
  exact Fraction.modOne_canonical (hpos x hx) hturns

/-- Only the angle zero has a zero numerator. -/
theorem eq_zero_iff {a : Angle} (h : a.turns.Canonical) : a = zero ↔ a.turns.num = 0 := by
  constructor
  · rintro rfl
    rfl
  · intro hnum
    have hden : a.turns.den = 1 := by
      have hgcd := h.gcd_eq
      rw [hnum, Int.gcd_zero_left] at hgcd
      have hpos := h.den_pos
      omega
    obtain ⟨num, den⟩ := a
    subst hnum hden
    rfl

/-- An angle other than zero is taken back from the full turn. -/
theorem neg_half {a b : Angle} (ha : a.turns.Canonical) (h : a.neg = .ok b) :
    b.half = if a = zero then a.half else Real.pi - a.half := by
  obtain ⟨x, hx, h⟩ := except_bind_eq_ok.mp h
  obtain ⟨y, hy, h⟩ := except_bind_eq_ok.mp h
  cases h
  obtain rfl := Fraction.neg_eq_ok hx
  have hvalue : y.value = ((-a.turns.num % a.turns.den : Int) : ℝ) / a.turns.den :=
    (Fraction.make_value hy).2
  have hden : (a.turns.den : ℝ) ≠ 0 := Int.cast_ne_zero.mpr ha.den_pos.ne'
  rw [half, half, hvalue, Fraction.value]
  split
  next hzero => rw [(eq_zero_iff ha).mp hzero, neg_zero, Int.zero_emod]
  next hne =>
    have hnum : a.turns.num ≠ 0 := fun e => hne ((eq_zero_iff ha).mpr e)
    have hmod : -a.turns.num % a.turns.den = a.turns.den - a.turns.num := by
      have hlow := ha.num_nonneg
      have hhigh := ha.num_lt
      calc -a.turns.num % a.turns.den = (-a.turns.num + a.turns.den) % a.turns.den :=
            (Int.add_emod_right _ _).symm
        _ = a.turns.den - a.turns.num := by
            rw [Int.emod_eq_of_lt (by omega) (by omega)]
            ring
    rw [hmod, Int.cast_sub, sub_div, div_self hden]
    ring

/-- The sign that the halves of an angle and of its negative differ by. -/
noncomputable def reversalSign (a : Angle) : ℂ :=
  if a = zero then 1 else -1

@[simp] theorem reversalSign_zero : zero.reversalSign = 1 :=
  if_pos rfl

theorem reversalSign_eq_one_iff {a : Angle} : a.reversalSign = 1 ↔ a = zero := by
  unfold reversalSign
  split
  next hzero => exact iff_of_true rfl hzero
  next hne => exact iff_of_false (by norm_num) hne

theorem norm_reversalSign (a : Angle) : ‖a.reversalSign‖ = 1 := by
  unfold reversalSign
  split
  next => exact norm_one
  next => rw [norm_neg, norm_one]

theorem reversalSign_mul_self (a : Angle) : a.reversalSign * a.reversalSign = 1 := by
  unfold reversalSign
  split <;> norm_num

theorem cisHalf_eq (a : Angle) : (cisHalf a : ℂ) = cosHalf a + sinHalf a * Complex.I := by
  change Complex.exp _ = ((Real.cos a.half : ℝ) : ℂ) + ((Real.sin a.half : ℝ) : ℂ) * Complex.I
  rw [Complex.exp_mul_I, Complex.ofReal_cos, Complex.ofReal_sin]

theorem conj_cisHalf_eq (a : Angle) :
    (conj (cisHalf a) : ℂ) = cosHalf a - sinHalf a * Complex.I := by
  rw [cisHalf_eq]
  change starRingEnd ℂ (((Real.cos a.half : ℝ) : ℂ) + ((Real.sin a.half : ℝ) : ℂ) * Complex.I) = _
  rw [map_add, map_mul, Complex.conj_ofReal, Complex.conj_ofReal, Complex.conj_I, mul_neg,
    ← sub_eq_add_neg]
  rfl

theorem cis_eq (a : Angle) : (cis a : ℂ) = cisHalf a * cisHalf a := by
  change Complex.exp _ = Complex.exp _ * Complex.exp _
  rw [← Complex.exp_add, ← add_mul, ← Complex.ofReal_add, ← two_mul]

section Neg

variable {a b : Angle} (ha : a.turns.Canonical) (h : a.neg = .ok b)

include ha h

theorem cosHalf_neg : (cosHalf b : ℂ) = a.reversalSign * cosHalf a := by
  change ((Real.cos b.half : ℝ) : ℂ) = _ * ((Real.cos a.half : ℝ) : ℂ)
  rw [neg_half ha h, reversalSign]
  split
  next => rw [one_mul]
  next => rw [Real.cos_pi_sub, Complex.ofReal_neg, neg_one_mul]

theorem sinHalf_neg : (sinHalf b : ℂ) = -(a.reversalSign * sinHalf a) := by
  change ((Real.sin b.half : ℝ) : ℂ) = -(_ * ((Real.sin a.half : ℝ) : ℂ))
  rw [neg_half ha h, reversalSign]
  split
  next hzero =>
    have hhalf : a.half = 0 := by simp [hzero, half, zero, Fraction.value]
    rw [hhalf, Real.sin_zero, Complex.ofReal_zero, mul_zero, neg_zero]
  next => rw [Real.sin_pi_sub, neg_one_mul, neg_neg]

theorem cisHalf_neg : (cisHalf b : ℂ) = a.reversalSign * conj (cisHalf a) := by
  rw [conj_cisHalf_eq, cisHalf_eq, cosHalf_neg ha h, sinHalf_neg ha h]
  ring

theorem cis_neg : (cis b : ℂ) = conj (cis a) := by
  have hsign := a.reversalSign_mul_self
  have hconj : (conj (cisHalf a * cisHalf a) : ℂ) = conj (cisHalf a) * conj (cisHalf a) :=
    map_mul (starRingEnd ℂ) _ _
  rw [cis_eq, cis_eq, hconj, cisHalf_neg ha h]
  linear_combination (conj (cisHalf a) * conj (cisHalf a) : ℂ) * hsign

end Neg

end Angle

end BasisFlow
