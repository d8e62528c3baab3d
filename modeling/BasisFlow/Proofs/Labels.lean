import BasisFlow.Proofs.OperatorRange

namespace BasisFlow

namespace Fraction

theorem notMem_repr {c : Char} (hc : ¬ c.isDigit) (k : Nat) : c ∉ k.repr.toList := by
  intro h
  rw [Nat.repr_eq_ofList_toDigits, String.toList_ofList] at h
  exact hc (Nat.isDigit_of_mem_toDigits (by decide) (by decide) h)

theorem repr_injective : Function.Injective Nat.repr := by
  intro k l h
  rw [Nat.repr_eq_ofList_toDigits, Nat.repr_eq_ofList_toDigits, String.ofList_inj] at h
  rw [← Nat.ofDigitChars_ten_toDigits (n := k), h, Nat.ofDigitChars_ten_toDigits]

/-- An integer is written with digits and at most a sign. -/
theorem toString_cases (n : Int) :
    (0 ≤ n ∧ toString n = n.toNat.repr) ∨ (n < 0 ∧ toString n = "-" ++ (-n).toNat.repr) := by
  rw [Int.toString_eq_repr, Int.repr_eq_if]
  split
  next h => exact .inl ⟨h, rfl⟩
  next h => exact .inr ⟨by omega, rfl⟩

theorem toString_injective {m n : Int} (h : toString m = toString n) : m = n := by
  have hsign : ∀ k l : Nat, k.repr ≠ "-" ++ l.repr := by
    intro k l he
    exact notMem_repr (c := '-') (by decide) k (by rw [he]; simp [String.toList_append])
  obtain ⟨hm, hmt⟩ | ⟨hm, hmt⟩ := toString_cases m <;>
    obtain ⟨hn, hnt⟩ | ⟨hn, hnt⟩ := toString_cases n <;> rw [hmt, hnt] at h
  · have hnat := repr_injective h
    omega
  · exact absurd h (hsign _ _)
  · exact absurd h.symm (hsign _ _)
  · have hnat := repr_injective ((String.append_right_inj "-").mp h)
    omega

theorem slash_notMem_toString (n : Int) : '/' ∉ (toString n).toList := by
  obtain ⟨_, hn⟩ | ⟨_, hn⟩ := toString_cases n
  · rw [hn]
    exact notMem_repr (by decide) _
  · simpa [hn, String.toList_append] using notMem_repr (c := '/') (by decide) (-n).toNat

theorem slash_mem_text_iff {x : Fraction} : '/' ∈ x.text.toList ↔ x.den ≠ 1 := by
  unfold text
  split
  next h => simpa [h] using slash_notMem_toString x.num
  next h => simp [h, String.toList_append]

/-- Every fraction has a text of its own. -/
theorem text_injective : Function.Injective text := by
  rintro ⟨m, d⟩ ⟨n, e⟩ h
  have hslash : e ≠ 1 ↔ d ≠ 1 := by
    rw [← slash_mem_text_iff (x := ⟨m, d⟩), h, slash_mem_text_iff]
  by_cases hd : d = 1
  · obtain rfl : e = 1 := by
      by_contra he
      exact hslash.mp he hd
    subst hd
    have hnum : toString m = toString n := h
    rw [toString_injective hnum]
  · have he : e ≠ 1 := hslash.mpr hd
    have hcut : (toString m).toList ++ '/' :: (toString d).toList =
        (toString n).toList ++ '/' :: (toString e).toList := by
      simpa [text, hd, he, ← String.toList_inj, String.toList_append] using h
    rw [List.append_cons_inj_of_notMem (slash_notMem_toString m) (slash_notMem_toString d),
      String.toList_inj, String.toList_inj] at hcut
    rw [toString_injective hcut.1, toString_injective hcut.2.2]

/-- How the multiple `x` of `π` is written. -/
inductive WrittenWithPi : Fraction → String → Prop
  | zero : WrittenWithPi ⟨0, 1⟩ "0"
  | pi : WrittenWithPi ⟨1, 1⟩ "π"
  | part {d : Int} (h : d ≠ 1) : WrittenWithPi ⟨1, d⟩ ("π/" ++ toString d)
  | multiple {x : Fraction} (h : x.num ≠ 0) (h' : x.num ≠ 1) :
      WrittenWithPi x ("(" ++ x.text ++ ")π")

/-- A text tells which multiple of `π` it stands for. -/
theorem WrittenWithPi.unique {x y : Fraction} {s t : String} (hx : WrittenWithPi x s)
    (hy : WrittenWithPi y t) (h : s = t) : x = y := by
  rw [← String.toList_inj] at h
  cases hx with
  | zero =>
    cases hy with
    | zero => rfl
    | _ => simp at h
  | pi =>
    cases hy with
    | pi => rfl
    | _ => simp at h
  | part _ =>
    cases hy with
    | part _ =>
      rw [String.toList_inj, String.append_right_inj] at h
      rw [toString_injective h]
    | _ => simp at h
  | multiple _ _ =>
    cases hy with
    | multiple _ _ =>
      rw [String.toList_inj, String.append_left_inj, String.append_right_inj] at h
      exact text_injective h
    | _ => simp at h

end Fraction

namespace Angle

/-- Twice the numerator is no word, and there is no two in the denominator to cancel against. -/
def DoubleTooLong (a : Angle) : Prop :=
  Odd a.turns.den ∧ Word.greatest < 2 * a.turns.num

variable {a b : Angle}

theorem faults_scale_two_iff (ha : a.turns.Stored) :
    Faults (a.turns.scale 2) ↔ a.DoubleTooLong := by
  have hlow := ha.num_nonneg
  have hhigh := ha.num_lt
  have hden := ha.den_le
  rw [Fraction.faults_scale_iff ha, DoubleTooLong]
  rcases Int.even_or_odd a.turns.den with heven | hodd
  · have hgcd : (Int.gcd a.turns.den 2 : Int) = 2 := Int.gcd_eq_right (by decide) heven.two_dvd
    have hrange : Word.InRange a.turns.num := (Word.inRange_of_nonneg hlow).mpr (by omega)
    simp [hgcd, hrange, Int.not_odd_iff_even.mpr heven]
  · have hgcd : Int.gcd a.turns.den 2 = 1 := Nat.coprime_two_right.mpr (Int.natAbs_odd.mpr hodd)
    have hdouble : a.turns.num * (2 / ((1 : Nat) : Int)) = 2 * a.turns.num := by omega
    rw [hgcd, hdouble, Word.inRange_of_nonneg (by omega), Int.not_le]
    simp [hodd]

theorem onlyOverflows_scale_two (ha : a.turns.Stored) : OnlyOverflows (a.turns.scale 2) := by
  have hden := ha.den_le
  have hpos := ha.den_pos
  have hdvd := Int.gcd_dvd_left a.turns.den 2
  have hquot : 0 < a.turns.den / (Int.gcd a.turns.den 2 : Int) :=
    Int.ediv_pos_of_pos_of_dvd hpos (by omega) hdvd
  have hle := Int.ediv_le_self (Int.gcd a.turns.den 2 : Int) hpos.le
  refine (Word.onlyOverflows_fit _).bind fun g hg => (Word.onlyOverflows_fit _).bind fun num _ => ?_
  obtain rfl := Word.fit_eq_ok hg
  exact onlyOverflows_of_not_faults (Fraction.not_faults_make hquot (Int.le_trans hle hden) num)

theorem eq_of_ratio_eq (ha : a.turns.Canonical) (hb : b.turns.Canonical)
    (h : a.ratio = b.ratio) : a = b := by
  rw [eq_ofRat ha, eq_ofRat hb, h]

theorem stored_zero : zero.turns.Stored :=
  Term.stored (s := .zero) rfl

theorem stored_pi : pi.turns.Stored :=
  Term.stored (s := .pi) rfl

/-- An angle is written as the multiple of `π` that it is, or this multiple is no fraction of
words. -/
theorem label_cases (ha : a.turns.Stored) :
    (a.label = .error .overflow ∧ a.DoubleTooLong) ∨
    ∃ (x : Fraction) (s : String), a.label = .ok s ∧ x.WrittenWithPi s ∧ x.ratio = 2 * a.ratio ∧
      ¬ a.DoubleTooLong := by
  have hzeroratio : zero.ratio = 0 := by simp [ratio, zero, Fraction.ratio]
  have hpiratio : pi.ratio = 1 / 2 := by simp [ratio, pi, Fraction.ratio]
  unfold label
  split
  next hzero =>
    subst hzero
    refine .inr ⟨_, _, rfl, .zero, by simp [hzeroratio, Fraction.ratio], ?_⟩
    rintro ⟨_, hlong⟩
    exact absurd hlong (by decide)
  next hzero =>
    split
    next hpi =>
      subst hpi
      refine .inr ⟨_, _, rfl, .pi, by norm_num [hpiratio, Fraction.ratio], ?_⟩
      rintro ⟨_, hlong⟩
      exact absurd hlong (by decide)
    next hpi =>
      by_cases hlong : a.DoubleTooLong
      · left
        have hscale := (onlyOverflows_scale_two ha).faults_iff.mp
          ((faults_scale_two_iff ha).mpr hlong)
        rw [hscale]
        exact ⟨rfl, hlong⟩
      · right
        obtain ⟨x, hx⟩ := exists_ok_of_not_faults ((faults_scale_two_iff ha).not.mpr hlong)
        have hratio : x.ratio = 2 * a.ratio := by
          rw [Fraction.scale_ratio hx, mul_comm]
          rfl
        have hnum : x.num ≠ 0 := by
          intro h
          have hx0 : x.ratio = 0 := by simp [Fraction.ratio, h]
          refine hzero (eq_of_ratio_eq ha.toCanonical stored_zero.toCanonical ?_)
          linarith
        rw [hx]
        by_cases hone : x.num = 1
        · have hden : x.den ≠ 1 := by
            intro h
            have hx1 : x.ratio = 1 := by simp [Fraction.ratio, hone, h]
            refine hpi (eq_of_ratio_eq ha.toCanonical stored_pi.toCanonical ?_)
            linarith
          refine ⟨x, _, if_pos hone, ?_, hratio, hlong⟩
          obtain ⟨num, den⟩ := x
          obtain rfl : num = 1 := hone
          exact .part hden
        · exact ⟨x, _, if_neg hone, .multiple hnum hone, hratio, hlong⟩

/-- The texts of two angles are the same only if the angles are, but an angle whose double is no
fraction of words has no text. -/
theorem label_faithful (ha : a.Computed) (hb : b.Computed) :
    (a.label = .error .overflow ↔ a.DoubleTooLong) ∧
    (¬ a.DoubleTooLong → ∃ (x : Fraction) (s : String), a.label = .ok s ∧ x.WrittenWithPi s ∧
      x.ratio = 2 * a.ratio) ∧
    (¬ a.DoubleTooLong → ¬ b.DoubleTooLong → (a.label = b.label ↔ a = b)) := by
  rcases label_cases ha.stored with ⟨hlabel, hlong⟩ | ⟨x, s, hlabel, hx, hratio, hshort⟩
  · exact ⟨iff_of_true hlabel hlong, fun hshort => absurd hlong hshort,
      fun hshort => absurd hlong hshort⟩
  · refine ⟨iff_of_false ?_ hshort, fun _ => ⟨x, s, hlabel, hx, hratio⟩, ?_⟩
    · rw [hlabel]
      nofun
    · intro _ hshort'
      rcases label_cases hb.stored with ⟨_, hlong⟩ | ⟨y, t, hlabel', hy, hratio', _⟩
      · exact absurd hlong hshort'
      · refine ⟨fun h => ?_, fun h => h ▸ rfl⟩
        rw [hlabel, hlabel', Except.ok.injEq] at h
        have hsame : x.ratio = y.ratio := by rw [hx.unique hy h]
        refine eq_of_ratio_eq ha.stored.toCanonical hb.stored.toCanonical ?_
        linarith

/-- Just above half a turn, the angle with the largest denominator has no text. Two other angles
have different ones. -/
theorem largest_denominator_label_faithful :
    let a : Angle := ⟨⟨4611686018427387904, 9223372036854775807⟩⟩
    let b : Angle := ⟨⟨1, 6⟩⟩
    let c : Angle := ⟨⟨2, 3⟩⟩
    a.Computed ∧ b.Computed ∧ c.Computed ∧ a.DoubleTooLong ∧ a.label = .error .overflow ∧
      b.label = .ok "π/3" ∧ c.label = .ok "(4/3)π" ∧ b.label ≠ c.label := by
  intro a b c
  have ha : a.Computed := ⟨.ofTurns 4611686018427387904 9223372036854775807, by decide⟩
  have hb : b.Computed := ⟨.ofTurns 1 6, by decide⟩
  have hc : c.Computed := ⟨.ofTurns 2 3, by decide⟩
  have hlong : a.DoubleTooLong := ⟨by decide, by decide⟩
  have hshort : ¬ b.DoubleTooLong ∧ ¬ c.DoubleTooLong :=
    ⟨fun h => absurd h.2 (by decide), fun h => absurd h.2 (by decide)⟩
  have hsame := (label_faithful hb hc).2.2 hshort.1 hshort.2
  exact ⟨ha, hb, hc, hlong, (label_faithful ha hb).1.mpr hlong, by decide, by decide,
    hsame.not.mpr (by decide)⟩

end Angle

/-- The computation is an overflow if `p` holds, and ends in no fault otherwise. -/
def OverflowsIff {α : Type} (x : Except Fault α) (p : Prop) : Prop :=
  (x = .error .overflow ∧ p) ∨ ((∃ a, x = .ok a) ∧ ¬ p)

namespace OverflowsIff

variable {α β : Type} {x : Except Fault α} {p q : Prop}

theorem error_iff (h : OverflowsIff x p) : x = .error .overflow ↔ p := by
  obtain ⟨hx, hp⟩ | ⟨⟨a, rfl⟩, hp⟩ := h
  · exact iff_of_true hx hp
  · exact iff_of_false nofun hp

theorem exists_ok (h : OverflowsIff x p) (hp : ¬ p) : ∃ a, x = .ok a := by
  obtain ⟨_, hp'⟩ | ⟨ha, _⟩ := h
  · exact absurd hp' hp
  · exact ha

theorem congr (h : OverflowsIff x p) (hpq : p ↔ q) : OverflowsIff x q :=
  propext hpq ▸ h

theorem ok (a : α) : OverflowsIff (.ok a) False :=
  .inr ⟨⟨a, rfl⟩, id⟩

theorem bind {f : α → Except Fault β} (hx : OverflowsIff x p) (hf : ∀ a, OverflowsIff (f a) q) :
    OverflowsIff (x >>= f) (p ∨ q) := by
  obtain ⟨rfl, hp⟩ | ⟨⟨a, rfl⟩, hp⟩ := hx
  · exact .inl ⟨rfl, .inl hp⟩
  · obtain ⟨ha, hq⟩ | ⟨ha, hq⟩ := hf a
    · exact .inl ⟨ha, .inr hq⟩
    · exact .inr ⟨ha, not_or.mpr ⟨hp, hq⟩⟩

theorem map (hx : OverflowsIff x p) (f : α → β) :
    OverflowsIff (x >>= fun a => pure (f a)) p :=
  (hx.bind fun a => ok (f a)).congr (iff_of_eq (or_false p))

/-- A list of computations overflows if one of them does. -/
theorem mapM {f : α → Except Fault β} {r : α → Prop} {l : List α}
    (h : ∀ a ∈ l, OverflowsIff (f a) (r a)) : OverflowsIff (l.mapM f) (∃ a ∈ l, r a) := by
  induction l with
  | nil => exact (ok []).congr (by simp)
  | cons a l ih =>
    have hrest := ih fun b hb => h b (by simp [hb])
    rw [List.mapM_cons]
    exact ((h a (by simp)).bind fun y => hrest.map (y :: ·)).congr (by simp)

end OverflowsIff

/-- The angles that the text of a gate shows. -/
def Gate.shownAngles : Gate → List Angle
  | .base (.rx θ) => [θ]
  | .base (.ry θ) => [θ]
  | .base (.rz θ) => [θ]
  | .base (.u θ φ lam) => [θ, φ, lam]
  | _ => []

theorem Angle.label_overflowsIff {a : Angle} (ha : a.Computed) :
    OverflowsIff a.label a.DoubleTooLong := by
  obtain hlong | ⟨_, s, hlabel, _, _, hshort⟩ := label_cases ha.stored
  · exact .inl hlong
  · exact .inr ⟨⟨s, hlabel⟩, hshort⟩

/-- A gate has a text unless the text would have to show an angle that has none. -/
theorem Gate.label_overflowsIff {g : Gate} (h : ∀ a ∈ g.shownAngles, a.Computed) :
    OverflowsIff g.label (∃ a ∈ g.shownAngles, a.DoubleTooLong) := by
  have hangle : ∀ a ∈ g.shownAngles, OverflowsIff a.label a.DoubleTooLong :=
    fun a ha => Angle.label_overflowsIff (h a ha)
  cases g with
  | base g =>
    cases g with
    | rx θ => exact ((hangle θ (by simp [shownAngles])).map _).congr (by simp [shownAngles])
    | ry θ => exact ((hangle θ (by simp [shownAngles])).map _).congr (by simp [shownAngles])
    | rz θ => exact ((hangle θ (by simp [shownAngles])).map _).congr (by simp [shownAngles])
    | u θ φ lam =>
      have hθ := hangle θ (by simp [shownAngles])
      have hφ := hangle φ (by simp [shownAngles])
      have hlam := hangle lam (by simp [shownAngles])
      exact (hθ.bind fun _ => hφ.bind fun _ => hlam.map _).congr (by simp [shownAngles])
    | _ => exact (OverflowsIff.ok _).congr (by simp [shownAngles])
  | controlled g p =>
    simp only [label]
    split <;> exact (OverflowsIff.ok _).congr (by simp [shownAngles])
  | _ => exact (OverflowsIff.ok _).congr (by simp [shownAngles])

end BasisFlow
