import BasisFlow.Proofs.WordRange

namespace BasisFlow

namespace Fraction

namespace Convergents

/-- The denominators of both convergents are no greater than a word. -/
def Short (c : Convergents) : Prop :=
  c.den₀ ≤ Word.greatest ∧ c.den ≤ Word.greatest

theorem Short.next {c : Convergents} (h : c.Short) {a : Int} (hroom : c.hasRoom a) :
    (c.next a).Short := by
  have hden : a * c.den + c.den₀ ≤ Word.greatest := by
    simp only [hasRoom, Bool.or_eq_true, Bool.and_eq_true, beq_iff_eq, decide_eq_true_eq] at hroom
    rcases hroom with rfl | hroom
    · rw [Int.zero_mul, Int.zero_add]
      exact h.1
    · omega
  refine ⟨?_, ?_⟩
  · unfold Convergents.next
    dsimp only
    split <;> exact h.2
  · unfold Convergents.next
    dsimp only
    split
    next => exact hden
    next =>
      refine Int.ediv_le_of_le_mul (by omega) (Int.le_trans hden ?_)
      exact le_mul_of_one_le_right (by decide) (by omega)

end Convergents

theorem expand_short (target : Float) (terms : Nat) (rest : Float) {c : Convergents}
    (h : c.Short) : (expand target terms rest c).Short := by
  induction terms generalizing rest c with
  | zero => exact h
  | succ terms ih =>
    rw [expand]
    split
    next =>
      dsimp only
      split
      next hroom =>
        split
        next => exact h.next hroom
        next => exact ih _ (h.next hroom)
      next => exact h
    next => exact h

theorem ofFloat_sized {x : Float} {z : Fraction} (h : ofFloat x = .ok z) : z.Sized := by
  unfold ofFloat at h
  split at h
  next => cases h
  next =>
    dsimp only at h
    split at h
    next => cases h
    next =>
      obtain ⟨f, hf, h⟩ := except_bind_eq_ok.mp h
      have hstart : Convergents.start.Short := ⟨by decide, by decide⟩
      have hsized := make_sized (expand_short _ _ _ hstart).2 hf
      split at h
      next => exact neg_sized hsized h
      next => cases h; exact hsized

end Fraction

namespace Angle

/-- A computation of an angle. Its integers are signed words by their type. -/
inductive Term where
  | zero
  | pi
  | halfPi
  | quarterPi
  | ofTurns (n d : Int64)
  | ofRadians (x : Float)
  | neg (s : Term)
  | add (s t : Term)
  | sub (s t : Term)
  | scale (s : Term) (k : Int64)
  | shrink (s : Term) (k : Int64)

/-- The angle that is computed, one operation after the other. -/
def Term.eval : Term → Except Fault Angle
  | .zero => .ok .zero
  | .pi => .ok .pi
  | .halfPi => .ok .halfPi
  | .quarterPi => .ok .quarterPi
  | .ofTurns n d => Angle.ofTurns n.toInt d.toInt
  | .ofRadians x => Angle.ofRadians x
  | .neg s => do (← s.eval).neg
  | .add s t => do (← s.eval).add (← t.eval)
  | .sub s t => do (← s.eval).sub (← t.eval)
  | .scale s k => do (← s.eval).scale k.toInt
  | .shrink s k => do (← s.eval).shrink k.toInt

/-- Some computation ends in the angle. -/
def Computed (a : Angle) : Prop :=
  ∃ s : Term, s.eval = .ok a

theorem bind_ofFraction_stored {x? : Except Fault Fraction} {a : Angle}
    (hx : ∀ x, x? = .ok x → x.Sized) (h : x? >>= ofFraction = .ok a) : a.turns.Stored := by
  refine ⟨bind_ofFraction_canonical (fun x hok => (hx x hok).den_pos) h, ?_⟩
  obtain ⟨x, hok, h⟩ := except_bind_eq_ok.mp h
  obtain ⟨turns, hturns, h⟩ := except_bind_eq_ok.mp h
  cases h
  exact (Fraction.make_sized (hx x hok).den_le hturns).den_le

/-- Every angle that is computed is in its one stored form. -/
theorem Term.stored {s : Term} {a : Angle} (h : s.eval = .ok a) : a.turns.Stored := by
  induction s generalizing a with
  | zero | pi | halfPi | quarterPi =>
    cases h
    exact ⟨⟨⟨by decide, by decide⟩, by decide, by decide⟩, by decide⟩
  | ofTurns n d =>
    exact bind_ofFraction_stored (fun _ => Fraction.make_sized (Word.inRange_toInt d).2) h
  | ofRadians x => exact bind_ofFraction_stored (fun _ => Fraction.ofFloat_sized) h
  | neg s ih =>
    obtain ⟨x, hx, h⟩ := except_bind_eq_ok.mp h
    exact bind_ofFraction_stored (fun _ => Fraction.neg_sized (ih hx).sized) h
  | add s t ih _ | sub s t ih _ =>
    obtain ⟨x, hx, h⟩ := except_bind_eq_ok.mp h
    obtain ⟨y, _, h⟩ := except_bind_eq_ok.mp h
    exact bind_ofFraction_stored (fun _ => Fraction.combine_sized (ih hx).sized) h
  | scale s k ih =>
    obtain ⟨x, hx, h⟩ := except_bind_eq_ok.mp h
    exact bind_ofFraction_stored (fun _ => Fraction.scale_sized (ih hx).sized) h
  | shrink s k ih =>
    obtain ⟨x, hx, h⟩ := except_bind_eq_ok.mp h
    exact bind_ofFraction_stored (fun _ => Fraction.shrink_sized) h

theorem Computed.stored {a : Angle} (h : a.Computed) : a.turns.Stored := by
  obtain ⟨s, hs⟩ := h
  exact Term.stored hs

theorem neg_neg {a : Angle} (ha : a.turns.Stored) : ∃ c, a.neg = .ok c ∧ c.neg = .ok a := by
  have hreturns : ∀ {x : Angle}, x.turns.Stored → ∃ y, x.neg = .ok y := by
    intro x hx
    apply exists_ok_of_not_faults
    rw [neg, faults_bind_ofFraction_iff fun _ => Fraction.neg_sized hx.sized]
    exact Fraction.not_faults_neg hx
  obtain ⟨c, hc⟩ := hreturns ha
  have hcs := bind_ofFraction_stored (fun _ => Fraction.neg_sized ha.sized) hc
  obtain ⟨e, he⟩ := hreturns hcs
  have hratio : c.ratio = Int.fract (-a.ratio) := by rw [neg_eq ha.den_pos hc, ratio_ofRat]
  have hback : e = a := calc
    e = ofRat (-c.ratio) := neg_eq hcs.den_pos he
    _ = ofRat a.ratio := ofRat_eq_ofRat_iff.mpr ⟨⌊-a.ratio⌋, by rw [hratio, Int.fract]; ring⟩
    _ = a := (eq_ofRat ha.toCanonical).symm
  exact ⟨c, hc, hback ▸ he⟩

theorem scale_shrink {a c e : Angle} {k : Int} (ha : a.turns.Canonical) (hc : a.shrink k = .ok c)
    (he : c.scale k = .ok e) : e = a := by
  obtain ⟨hk, hquot⟩ := shrink_eq hc
  have hk0 : (k : ℚ) ≠ 0 := Int.cast_ne_zero.mpr hk
  have hratio : c.ratio = Int.fract (a.ratio / k) := by rw [hquot, ratio_ofRat]
  have hturns : c.ratio * k - a.ratio = ((-⌊a.ratio / k⌋ * k : ℤ) : ℚ) := by
    rw [hratio, Int.fract]
    push_cast
    field_simp
    ring
  calc
    e = ofRat (c.ratio * k) := scale_eq he
    _ = ofRat a.ratio := ofRat_eq_ofRat_iff.mpr ⟨_, hturns⟩
    _ = a := (eq_ofRat ha).symm

theorem eq_iff_ratio {a b : Angle} (ha : a.turns.Canonical) (hb : b.turns.Canonical) :
    a = b ↔ ∃ turns : ℤ, a.ratio - b.ratio = turns := by
  rw [← ofRat_eq_ofRat_iff, ← eq_ofRat ha, ← eq_ofRat hb]

theorem order_eq_eq_iff {a b : Angle} (ha : a.turns.Canonical) (hb : b.turns.Canonical) :
    a.order b = .eq ↔ a = b := by
  have hda : (a.turns.den : ℚ) ≠ 0 := Int.cast_ne_zero.mpr ha.den_pos.ne'
  have hdb : (b.turns.den : ℚ) ≠ 0 := Int.cast_ne_zero.mpr hb.den_pos.ne'
  have hcross : a.turns.num * b.turns.den = b.turns.num * a.turns.den ↔ a.ratio = b.ratio := by
    rw [ratio, ratio, Fraction.ratio, Fraction.ratio, div_eq_div_iff hda hdb]
    exact_mod_cast Iff.rfl
  rw [order, Fraction.order, compare_eq_iff_eq, hcross]
  constructor
  · intro h
    rw [eq_ofRat ha, eq_ofRat hb, h]
  · rintro rfl
    rfl

/-- Arithmetic on angles is exact up to whole turns, and every angle has one form. -/
theorem arithmetic_exact {s t : Term} {a b : Angle} (hs : s.eval = .ok a)
    (ht : t.eval = .ok b) :
    (0 ≤ a.turns.num ∧ a.turns.num < a.turns.den ∧ Int.gcd a.turns.num a.turns.den = 1) ∧
    (∀ (n d : Int64) c, ofTurns n.toInt d.toInt = .ok c →
      d.toInt ≠ 0 ∧ c = ofRat (n.toInt / d.toInt)) ∧
    (∀ c, a.neg = .ok c → c = ofRat (-a.ratio)) ∧
    (∀ c, a.add b = .ok c → c = ofRat (a.ratio + b.ratio)) ∧
    (∀ c, a.sub b = .ok c → c = ofRat (a.ratio - b.ratio)) ∧
    (∀ (k : Int64) c, a.scale k.toInt = .ok c → c = ofRat (a.ratio * k.toInt)) ∧
    (∀ (k : Int64) c, a.shrink k.toInt = .ok c → k.toInt ≠ 0 ∧ c = ofRat (a.ratio / k.toInt)) ∧
    (a = b ↔ ∃ turns : ℤ, a.ratio - b.ratio = turns) ∧ (a.order b = .eq ↔ a = b) ∧
    (∃ c, a.neg = .ok c ∧ c.neg = .ok a) ∧
    (∀ (k : Int64) c e, a.shrink k.toInt = .ok c → c.scale k.toInt = .ok e → e = a) := by
  have ha := Term.stored hs
  have hb := Term.stored ht
  exact ⟨⟨ha.num_nonneg, ha.num_lt, ha.gcd_eq⟩, fun _ _ _ => ofTurns_eq, fun _ => neg_eq ha.den_pos,
    fun _ => add_eq, fun _ => sub_eq, fun _ _ => scale_eq, fun _ _ => shrink_eq,
    eq_iff_ratio ha.toCanonical hb.toCanonical, order_eq_eq_iff ha.toCanonical hb.toCanonical,
    neg_neg ha, fun _ _ _ => scale_shrink ha.toCanonical⟩

/-- A difference that passes zero, of angles that were given with a quotient and with signs. -/
theorem passed_zero_arithmetic_exact :
    let s : Term := .shrink (.ofTurns 2 3) 4
    let t : Term := .ofTurns (-5) (-9)
    let a : Angle := ⟨⟨1, 6⟩⟩
    let b : Angle := ⟨⟨5, 9⟩⟩
    s.eval = .ok a ∧ t.eval = .ok b ∧ a.sub b = .ok ⟨⟨11, 18⟩⟩ ∧
      (⟨⟨11, 18⟩⟩ : Angle) = ofRat (a.ratio - b.ratio) ∧ ∃ c, a.neg = .ok c ∧ c.neg = .ok a := by
  intro s t a b
  have hs : s.eval = .ok a := by decide
  have ht : t.eval = .ok b := by decide
  have hsub : a.sub b = .ok ⟨⟨11, 18⟩⟩ := by decide
  obtain ⟨_, _, _, _, hexact, _, _, _, _, hneg, _⟩ := arithmetic_exact hs ht
  exact ⟨hs, ht, hsub, hexact _ hsub, hneg⟩

end Angle

end BasisFlow
