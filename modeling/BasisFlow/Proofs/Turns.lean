import BasisFlow.Proofs.Angles
import Mathlib.Data.Rat.Floor

namespace BasisFlow

namespace Fraction

/-- The rational number that a fraction stands for. -/
def ratio (x : Fraction) : ℚ :=
  x.num / x.den

/-- The fraction in lowest terms of a rational number. -/
def ofRat (q : ℚ) : Fraction :=
  ⟨q.num, q.den⟩

theorem ratio_ofRat (q : ℚ) : (ofRat q).ratio = q := by
  rw [ratio, ofRat, Int.cast_natCast, Rat.num_div_den]

theorem cast_ratio (x : Fraction) : ((x.ratio : ℚ) : ℝ) = x.value := by
  rw [ratio, value, Rat.cast_div, Rat.cast_intCast, Rat.cast_intCast]

theorem ratio_eq_of_value {x : Fraction} {q : ℚ} (h : x.value = q) : x.ratio = q := by
  rw [← cast_ratio] at h
  exact Rat.cast_injective h

/-- A reduced fraction is the only one of its number. -/
theorem Reduced.eq_ofRat {x : Fraction} (h : x.Reduced) : x = ofRat x.ratio := by
  obtain ⟨num, den⟩ := x
  have hnum := Rat.num_div_eq_of_coprime h.den_pos h.gcd_eq
  have hden := Rat.den_div_eq_of_coprime h.den_pos h.gcd_eq
  simp only [ofRat, ratio, hnum, hden]

theorem Canonical.ratio_mem {x : Fraction} (h : x.Canonical) : 0 ≤ x.ratio ∧ x.ratio < 1 := by
  have hden : (0 : ℚ) < x.den := Int.cast_pos.mpr h.den_pos
  exact ⟨div_nonneg (Int.cast_nonneg h.num_nonneg) hden.le,
    (div_lt_one hden).mpr (Int.cast_lt.mpr h.num_lt)⟩

theorem make_ratio {n d : Int} {x : Fraction} (h : make n d = .ok x) :
    d ≠ 0 ∧ x.ratio = n / d := by
  obtain ⟨hd, hvalue⟩ := make_value h
  refine ⟨hd, ratio_eq_of_value ?_⟩
  rw [hvalue, Rat.cast_div, Rat.cast_intCast, Rat.cast_intCast]

theorem modOne_eq_ofRat {x z : Fraction} (hx : 0 < x.den) (h : x.modOne = .ok z) :
    z = ofRat (Int.fract x.ratio) := by
  have hz := modOne_canonical hx h
  obtain ⟨hlow, hhigh⟩ := hz.ratio_mem
  obtain ⟨turns, hturns⟩ := modOne_value h
  have hratio : x.ratio = z.ratio + turns := by
    apply ratio_eq_of_value
    rw [hturns, ← cast_ratio, Rat.cast_add, Rat.cast_intCast]
  have hfract : Int.fract x.ratio = z.ratio :=
    Int.fract_eq_iff.mpr ⟨hlow, hhigh, turns, by rw [hratio]; ring⟩
  rw [hfract]
  exact hz.toReduced.eq_ofRat

theorem neg_ratio {x y : Fraction} (h : x.neg = .ok y) : y.ratio = -x.ratio := by
  rw [neg_eq_ok h, ratio, ratio, Int.cast_neg, neg_div]

theorem add_ratio {x y z : Fraction} (h : x.add y = .ok z) : z.ratio = x.ratio + y.ratio := by
  apply ratio_eq_of_value
  rw [add_value h, Rat.cast_add, cast_ratio, cast_ratio]

theorem sub_ratio {x y z : Fraction} (h : x.sub y = .ok z) : z.ratio = x.ratio - y.ratio := by
  have hvalue := combine_value (fun a b l => by rw [Int.cast_sub, sub_div]) h
  apply ratio_eq_of_value
  rw [hvalue, Rat.cast_sub, cast_ratio, cast_ratio]

theorem scale_ratio {x z : Fraction} {k : Int} (h : x.scale k = .ok z) :
    z.ratio = x.ratio * k := by
  obtain ⟨g, hg, h⟩ := except_bind_eq_ok.mp h
  obtain ⟨num, hnum, h⟩ := except_bind_eq_ok.mp h
  obtain rfl := Word.fit_eq_ok hg
  obtain rfl := Word.fit_eq_ok hnum
  obtain ⟨hden, hz⟩ := make_ratio h
  have hg0 : ((Int.gcd x.den k : Int) : ℚ) ≠ 0 := by
    refine Int.cast_ne_zero.mpr fun e => hden ?_
    rw [e, Int.ediv_zero]
  rw [hz, ratio, Int.cast_mul, Int.cast_div (Int.gcd_dvd_right x.den k) hg0,
    Int.cast_div (Int.gcd_dvd_left x.den k) hg0]
  field_simp

theorem shrink_ratio {x z : Fraction} {k : Int} (h : x.shrink k = .ok z) :
    k ≠ 0 ∧ z.ratio = x.ratio / k := by
  obtain ⟨g, hg, h⟩ := except_bind_eq_ok.mp h
  obtain rfl := Word.fit_eq_ok hg
  split at h
  next => cases h
  next hg =>
    obtain ⟨den, hden, h⟩ := except_bind_eq_ok.mp h
    obtain rfl := Word.fit_eq_ok hden
    obtain ⟨hden, hz⟩ := make_ratio h
    have hg0 : ((Int.gcd x.num k : Int) : ℚ) ≠ 0 := Int.cast_ne_zero.mpr hg
    have hk : k ≠ 0 := by
      rintro rfl
      simp at hden
    refine ⟨hk, ?_⟩
    rw [hz, ratio, Int.cast_mul, Int.cast_div (Int.gcd_dvd_right x.num k) hg0,
      Int.cast_div (Int.gcd_dvd_left x.num k) hg0]
    field_simp

end Fraction

namespace Angle

/-- The part of a turn that an angle stands for. -/
def ratio (a : Angle) : ℚ :=
  a.turns.ratio

/-- The angle of a rational number of turns: whole turns are dropped, and what is left is in lowest
terms. -/
def ofRat (q : ℚ) : Angle :=
  ⟨.ofRat (Int.fract q)⟩

theorem ratio_ofRat (q : ℚ) : (ofRat q).ratio = Int.fract q :=
  Fraction.ratio_ofRat _

theorem ofRat_eq_ofRat_iff {p q : ℚ} : ofRat p = ofRat q ↔ ∃ turns : ℤ, p - q = turns := by
  rw [← Int.fract_eq_fract]
  constructor
  · intro h
    rw [← ratio_ofRat, ← ratio_ofRat, h]
  · intro h
    rw [ofRat, ofRat, h]

theorem eq_ofRat {a : Angle} (h : a.turns.Canonical) : a = ofRat a.ratio := by
  rw [ofRat, ratio, Int.fract_eq_self.mpr h.ratio_mem]
  exact congrArg Angle.mk h.toReduced.eq_ofRat

/-- Every operation ends by dropping whole turns from the fraction that it has computed. -/
theorem bind_ofFraction_eq {x? : Except Fault Fraction} {q : ℚ} {a : Angle}
    (hx : ∀ x, x? = .ok x → 0 < x.den ∧ x.ratio = q) (h : x? >>= ofFraction = .ok a) :
    a = ofRat q := by
  obtain ⟨x, hok, h⟩ := except_bind_eq_ok.mp h
  obtain ⟨turns, hturns, h⟩ := except_bind_eq_ok.mp h
  cases h
  obtain ⟨hden, rfl⟩ := hx x hok
  exact congrArg Angle.mk (Fraction.modOne_eq_ofRat hden hturns)

section Exact

variable {a b c : Angle}

theorem ofTurns_eq {n d : Int} (h : ofTurns n d = .ok c) : d ≠ 0 ∧ c = ofRat (n / d) := by
  obtain ⟨x, hx, _⟩ := except_bind_eq_ok.mp h
  refine ⟨(Fraction.make_ratio hx).1, bind_ofFraction_eq (fun y hy => ?_) h⟩
  exact ⟨(Fraction.make_reduced hy).den_pos, (Fraction.make_ratio hy).2⟩

theorem neg_eq (ha : 0 < a.turns.den) (h : a.neg = .ok c) : c = ofRat (-a.ratio) :=
  bind_ofFraction_eq
    (fun _ hx => ⟨Fraction.neg_eq_ok hx ▸ ha, Fraction.neg_ratio hx⟩) h

theorem add_eq (h : a.add b = .ok c) : c = ofRat (a.ratio + b.ratio) :=
  bind_ofFraction_eq
    (fun _ hx => ⟨(Fraction.combine_reduced hx).den_pos, Fraction.add_ratio hx⟩) h

theorem sub_eq (h : a.sub b = .ok c) : c = ofRat (a.ratio - b.ratio) :=
  bind_ofFraction_eq
    (fun _ hx => ⟨(Fraction.combine_reduced hx).den_pos, Fraction.sub_ratio hx⟩) h

theorem scale_eq {k : Int} (h : a.scale k = .ok c) : c = ofRat (a.ratio * k) :=
  bind_ofFraction_eq
    (fun _ hx => ⟨(Fraction.scale_reduced hx).den_pos, Fraction.scale_ratio hx⟩) h

theorem shrink_eq {k : Int} (h : a.shrink k = .ok c) : k ≠ 0 ∧ c = ofRat (a.ratio / k) := by
  obtain ⟨x, hx, _⟩ := except_bind_eq_ok.mp h
  refine ⟨(Fraction.shrink_ratio hx).1, bind_ofFraction_eq (fun y hy => ?_) h⟩
  exact ⟨(Fraction.shrink_reduced hy).den_pos, (Fraction.shrink_ratio hy).2⟩

end Exact

end Angle

end BasisFlow
