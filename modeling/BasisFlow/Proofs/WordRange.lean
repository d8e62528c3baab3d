import BasisFlow.Proofs.Turns

namespace BasisFlow

/-- The computation ends in a fault. -/
def Faults {α : Type} (x : Except Fault α) : Prop :=
  ∃ fault, x = .error fault

@[simp] theorem faults_error {α : Type} (fault : Fault) : Faults (.error fault : Except Fault α) :=
  ⟨fault, rfl⟩

@[simp] theorem not_faults_ok {α : Type} (a : α) : ¬ Faults (.ok a) := by
  rintro ⟨fault, h⟩
  cases h

theorem exists_ok_of_not_faults {α : Type} {x : Except Fault α} (h : ¬ Faults x) :
    ∃ a, x = .ok a := by
  cases x with
  | error fault => exact absurd (faults_error fault) h
  | ok a => exact ⟨a, rfl⟩

theorem faults_bind {α β : Type} {x : Except Fault α} {f : α → Except Fault β} :
    Faults (x >>= f) ↔ Faults x ∨ ∃ a, x = .ok a ∧ Faults (f a) := by
  cases x with
  | error fault => simp [bind, Except.bind]
  | ok a => simp [bind, Except.bind]

namespace Word

/-- The integer is a signed word. -/
def InRange (x : Int) : Prop :=
  least ≤ x ∧ x ≤ greatest

theorem inRange_toInt (x : Int64) : InRange x.toInt :=
  ⟨x.le_toInt, Int.le_of_lt_add_one x.toInt_lt⟩

theorem fit_of_inRange {x : Int} (h : InRange x) : fit x = .ok x :=
  if_pos h

theorem fit_of_not_inRange {x : Int} (h : ¬ InRange x) : fit x = .error .overflow :=
  if_neg h

theorem inRange_of_fit {x y : Int} (h : fit x = .ok y) : InRange y := by
  by_contra hr
  obtain rfl := fit_eq_ok h
  rw [fit_of_not_inRange hr] at h
  cases h

theorem faults_fit_iff {x : Int} : Faults (fit x) ↔ ¬ InRange x := by
  by_cases h : InRange x
  · simp [fit_of_inRange h, h]
  · simp [fit_of_not_inRange h, h]

theorem faults_fit_bind_iff {α : Type} {x : Int} {f : Int → Except Fault α} :
    Faults (fit x >>= f) ↔ ¬ InRange x ∨ Faults (f x) := by
  rw [faults_bind, faults_fit_iff]
  by_cases h : InRange x
  · simp [fit_of_inRange h]
  · simp [h]

theorem inRange_of_nonneg {x : Int} (h : 0 ≤ x) : InRange x ↔ x ≤ greatest := by
  unfold InRange least
  omega

/-- The least word is a power of two. -/
theorem gcd_least_eq_one_iff {d : Int} : Int.gcd least d = 1 ↔ Odd d := by
  have hpow : Int.gcd least d = Nat.gcd (2 ^ 63) d.natAbs := rfl
  rw [hpow, ← Int.natAbs_odd, ← Nat.coprime_two_left]
  exact Nat.coprime_pow_left_iff (by omega) 2 d.natAbs

/-- Division of a word moves it away from the least word, unless nothing is divided out. -/
theorem ediv_eq_least_iff {n g : Int} (hn : InRange n) (hg : 0 < g) (hdvd : g ∣ n) :
    n / g = least ↔ n = least ∧ g = 1 := by
  obtain ⟨m, rfl⟩ := hdvd
  rw [Int.mul_ediv_cancel_left m hg.ne']
  constructor
  · rintro rfl
    have hle : g ≤ 1 := by
      have := hn.1
      unfold least at this
      omega
    obtain rfl : g = 1 := by omega
    exact ⟨Int.one_mul _, rfl⟩
  · rintro ⟨h, rfl⟩
    rwa [Int.one_mul] at h

/-- A word that is brought to lowest terms stays the least one only over an odd number. -/
theorem ediv_gcd_eq_least_iff {n d : Int} (hn : InRange n) (hd : d ≠ 0) :
    n / (Int.gcd n d : Int) = least ↔ n = least ∧ Odd d := by
  have hg : (0 : Int) < Int.gcd n d := by
    exact_mod_cast Int.gcd_pos_of_ne_zero_right n hd
  rw [ediv_eq_least_iff hn hg (Int.gcd_dvd_left n d)]
  apply and_congr_right
  rintro rfl
  exact_mod_cast gcd_least_eq_one_iff

theorem InRange.ediv {n g : Int} (hn : InRange n) (hg : 0 < g) (hdvd : g ∣ n) :
    InRange (n / g) := by
  obtain ⟨m, rfl⟩ := hdvd
  rw [Int.mul_ediv_cancel_left m hg.ne']
  unfold InRange least greatest at hn ⊢
  rcases Int.le_total 0 m with hm | hm
  · have hle : m ≤ g * m := le_mul_of_one_le_left hm hg
    omega
  · have hle : g * m ≤ m := mul_le_of_one_le_left hm hg
    omega

/-- Only the least word has no negative. -/
theorem inRange_neg_iff {x : Int} (h : InRange x) : InRange (-x) ↔ x ≠ least := by
  unfold InRange least greatest at *
  omega

theorem greatest_lt_abs_iff {x : Int} : greatest < |x| ↔ ¬ InRange x ∨ x = least := by
  rw [lt_abs]
  unfold InRange least greatest
  omega

/-- The only common divisor that is no word would be the least word without its sign. -/
theorem gcd_of_ne {m n : Int} (hm : InRange m) (hn : InRange n) (hm0 : m ≠ 0) (hn0 : n ≠ 0)
    (hne : m ≠ n) : gcd m n = .ok (Int.gcd m n : Int) := by
  have hleft : Int.gcd m n ≤ m.natAbs :=
    Nat.le_of_dvd (Int.natAbs_pos.mpr hm0) (Int.gcd_dvd_natAbs_left m n)
  have hright : Int.gcd m n ≤ n.natAbs :=
    Nat.le_of_dvd (Int.natAbs_pos.mpr hn0) (Int.gcd_dvd_natAbs_right m n)
  apply fit_of_inRange
  unfold InRange least greatest at *
  omega

/-- The least common multiple of two positive words is computed without a detour. -/
theorem lcm_eq {m n : Int} (hm : 0 < m) (hm' : m ≤ greatest) (hn : 0 < n) :
    lcm m n = fit (Int.lcm m n) := by
  have hg : 0 < Int.gcd m n := Int.gcd_pos_of_ne_zero_left n hm.ne'
  have hgm : (Int.gcd m n : Int) ≤ m := Int.le_of_dvd hm (Int.gcd_dvd_left m n)
  have hproduct : m * (n / (Int.gcd m n : Int)) = Int.lcm m n := by
    have hmul : (Int.gcd m n : Int) * Int.lcm m n = m * n := by
      have hcast := congrArg (fun k : Nat => (k : Int)) (Int.gcd_mul_lcm m n)
      push_cast at hcast
      rwa [abs_of_pos hm, abs_of_pos hn] at hcast
    apply Int.eq_of_mul_eq_mul_left (Int.natCast_ne_zero.mpr hg.ne')
    rw [hmul, Int.mul_left_comm, Int.mul_ediv_cancel' (Int.gcd_dvd_right m n)]
  have hgcd : gcd m n = .ok (Int.gcd m n : Int) :=
    fit_of_inRange ((inRange_of_nonneg (by omega)).mpr (by omega))
  unfold lcm
  rw [hgcd]
  change (fit (m * (n / (Int.gcd m n : Int))) >>= fun p => fit p.natAbs) = _
  rw [hproduct]
  by_cases h : InRange (Int.lcm m n : Int)
  · rw [fit_of_inRange h]
    exact fit_of_inRange h
  · rw [fit_of_not_inRange h]
    rfl

end Word

namespace Fraction

/-- The denominator is a positive word. -/
structure Sized (x : Fraction) : Prop where
  den_pos : 0 < x.den
  den_le : x.den ≤ Word.greatest

/-- The form in which an angle is kept. -/
structure Stored (x : Fraction) : Prop extends x.Canonical where
  den_le : x.den ≤ Word.greatest

theorem Stored.sized {x : Fraction} (h : x.Stored) : x.Sized :=
  ⟨h.den_pos, h.den_le⟩

theorem not_faults_make {d : Int} (hd : 0 < d) (hd' : d ≤ Word.greatest) (n : Int) :
    ¬ Faults (make n d) := by
  have hgcd : (Int.gcd n d : Int) ≤ d := Int.le_of_dvd hd (Int.gcd_dvd_right n d)
  have hfit : Word.gcd n d = .ok (Int.gcd n d : Int) :=
    Word.fit_of_inRange ((Word.inRange_of_nonneg (by omega)).mpr (by omega))
  have hneg : ¬ d < 0 := by omega
  simp only [make, hd.ne', if_false, hfit, bind, Except.bind, hneg]
  split
  next => simp
  next => split <;> simp [pure, Except.pure]

theorem make_sized {n d : Int} {x : Fraction} (hd : d ≤ Word.greatest) (h : make n d = .ok x) :
    x.Sized := by
  refine ⟨(make_reduced h).den_pos, ?_⟩
  unfold make at h
  split at h
  next => cases h
  next hd0 =>
    split at h
    next => cases h; decide
    next =>
      split at h
      next => cases h; decide
      next =>
        obtain ⟨g, hg, h⟩ := except_bind_eq_ok.mp h
        obtain rfl := Word.fit_eq_ok hg
        split at h
        next =>
          obtain ⟨num, _, h⟩ := except_bind_eq_ok.mp h
          obtain ⟨den, hden, h⟩ := except_bind_eq_ok.mp h
          cases h
          exact (Word.inRange_of_fit hden).2
        next hneg =>
          cases h
          exact Int.le_trans (Int.ediv_le_self _ (by omega)) hd

theorem not_faults_modOne {x : Fraction} (h : x.Sized) : ¬ Faults x.modOne :=
  not_faults_make h.den_pos h.den_le _

/-- A quotient of words is no fraction of words only where a sign would have to be changed that
cannot be. -/
theorem faults_make_iff {n d : Int} (hn : Word.InRange n) (hd : Word.InRange d) :
    Faults (make n d) ↔
      d = 0 ∨ (d = Word.least ∧ Odd n) ∨ (n = Word.least ∧ d < 0 ∧ Odd d) := by
  have heven : ¬ Odd Word.least := by decide
  unfold make
  split
  next h => simp [h]
  next hd0 =>
    split
    next h =>
      subst h
      simp [hd0, Word.least]
    next hn0 =>
      split
      next h =>
        subst h
        simp only [not_faults_ok, hd0, false_or, false_iff]
        rintro (⟨h, hodd⟩ | ⟨h, _, hodd⟩) <;> exact heven (h ▸ hodd)
      next hne =>
        have hg : (0 : Int) < Int.gcd n d := by
          exact_mod_cast Int.gcd_pos_of_ne_zero_right n hd0
        have hgn := Int.gcd_dvd_left n d
        have hgd := Int.gcd_dvd_right n d
        rw [Word.gcd_of_ne hn hd hn0 hd0 hne]
        change Faults (if d < 0 then _ else _) ↔ _
        split
        next hneg =>
          have hnum := Word.ediv_gcd_eq_least_iff hn hd0
          have hden := Word.ediv_gcd_eq_least_iff hd hn0
          rw [Int.gcd_comm] at hden
          rw [Word.faults_fit_bind_iff, Word.faults_fit_bind_iff,
            Word.inRange_neg_iff (hn.ediv hg hgn), Word.inRange_neg_iff (hd.ediv hg hgd), not_not,
            not_not, hnum, hden]
          simp only [pure, Except.pure, not_faults_ok, hd0, hneg, or_false, false_or, true_and]
          exact or_comm
        next hpos =>
          have hleast : d ≠ Word.least := by
            unfold Word.least
            omega
          simp [pure, Except.pure, hd0, hpos, hleast]

theorem not_faults_neg {x : Fraction} (h : x.Stored) : ¬ Faults x.neg := by
  have hlow := h.num_nonneg
  have hhigh := h.num_lt
  have hden := h.den_le
  have hrange : Word.InRange (-x.num) := by
    unfold Word.InRange Word.least
    unfold Word.greatest at *
    omega
  unfold neg
  rw [Word.fit_of_inRange hrange]
  exact not_faults_ok _

/-- A numerator below its denominator stays below it when both are multiplied. -/
theorem Stored.expand_lt {x : Fraction} (h : x.Stored) {l : Int} (hl : 0 < l) (hdvd : x.den ∣ l) :
    0 ≤ x.num * (l / x.den) ∧ x.num * (l / x.den) < l := by
  have hfactor : 0 < l / x.den := Int.ediv_pos_of_pos_of_dvd hl h.den_pos.le hdvd
  refine ⟨Int.mul_nonneg h.num_nonneg hfactor.le, ?_⟩
  calc x.num * (l / x.den) < x.den * (l / x.den) := Int.mul_lt_mul_of_pos_right h.num_lt hfactor
    _ = l := Int.mul_ediv_cancel' hdvd

section Combine

variable {x y : Fraction} (hx : x.Stored) (hy : y.Stored)

include hx hy

theorem lcm_den_pos : (0 : Int) < Int.lcm x.den y.den := by
  exact_mod_cast Int.lcm_pos hx.den_pos.ne' hy.den_pos.ne'

/-- A sum or difference needs the common denominator and the numerator over it to be words. -/
theorem faults_combine_iff (op : Int → Int → Int) :
    Faults (combine op x y) ↔ Word.greatest < (Int.lcm x.den y.den : Int) ∨
      ¬ Word.InRange (op (x.num * (Int.lcm x.den y.den / x.den))
        (y.num * (Int.lcm x.den y.den / y.den))) := by
  unfold combine
  split
  next hden =>
    have hlcm : (Int.lcm x.den y.den : Int) = x.den := by
      rw [← hden, Int.lcm_self, Int.natAbs_of_nonneg hx.den_pos.le]
    have hle : ¬ Word.greatest < x.den := Int.not_lt.mpr hx.den_le
    rw [Word.faults_fit_bind_iff, hlcm, ← hden, Int.ediv_self hx.den_pos.ne', Int.mul_one,
      Int.mul_one]
    simp [not_faults_make hx.den_pos hx.den_le, hle]
  next hden =>
    have hpos := lcm_den_pos hx hy
    obtain ⟨hxlow, hxhigh⟩ := hx.expand_lt hpos (Int.dvd_lcm_left x.den y.den)
    obtain ⟨hylow, hyhigh⟩ := hy.expand_lt hpos (Int.dvd_lcm_right x.den y.den)
    rw [Word.lcm_eq hx.den_pos hx.den_le hy.den_pos, Word.faults_fit_bind_iff,
      Word.faults_fit_bind_iff, Word.faults_fit_bind_iff, Word.faults_fit_bind_iff,
      Word.inRange_of_nonneg hpos.le, Word.inRange_of_nonneg hxlow, Word.inRange_of_nonneg hylow,
      Int.not_le]
    by_cases hle : Word.greatest < (Int.lcm x.den y.den : Int)
    · simp [hle]
    · have hmake := not_faults_make hpos (Int.not_lt.mp hle)
      have hxfit : x.num * (Int.lcm x.den y.den / x.den) ≤ Word.greatest := by omega
      have hyfit : y.num * (Int.lcm x.den y.den / y.den) ≤ Word.greatest := by omega
      simp [hle, hxfit, hyfit, hmake]

/-- The numerators of two fractions of a turn over a common denominator differ by less than it. -/
theorem faults_sub_iff : Faults (x.sub y) ↔ Word.greatest < (Int.lcm x.den y.den : Int) := by
  have hpos := lcm_den_pos hx hy
  obtain ⟨hxlow, hxhigh⟩ := hx.expand_lt hpos (Int.dvd_lcm_left x.den y.den)
  obtain ⟨hylow, hyhigh⟩ := hy.expand_lt hpos (Int.dvd_lcm_right x.den y.den)
  rw [sub, faults_combine_iff hx hy, or_iff_left_iff_imp]
  intro hrange
  unfold Word.InRange Word.least at hrange
  unfold Word.greatest at *
  omega

theorem faults_add_iff :
    Faults (x.add y) ↔ Word.greatest < (Int.lcm x.den y.den : Int) ∨
      Word.greatest < x.num * (Int.lcm x.den y.den / x.den) +
        y.num * (Int.lcm x.den y.den / y.den) := by
  have hpos := lcm_den_pos hx hy
  obtain ⟨hxlow, _⟩ := hx.expand_lt hpos (Int.dvd_lcm_left x.den y.den)
  obtain ⟨hylow, _⟩ := hy.expand_lt hpos (Int.dvd_lcm_right x.den y.den)
  rw [add, faults_combine_iff hx hy, Word.inRange_of_nonneg (Int.add_nonneg hxlow hylow), Int.not_le]

end Combine

theorem faults_scale_iff {x : Fraction} (hx : x.Stored) (k : Int) :
    Faults (x.scale k) ↔ ¬ Word.InRange (x.num * (k / (Int.gcd x.den k : Int))) := by
  have hdvd := Int.gcd_dvd_left x.den k
  have hgcd : (Int.gcd x.den k : Int) ≤ x.den := Int.le_of_dvd hx.den_pos hdvd
  have hle := hx.den_le
  have hfit : Word.gcd x.den k = .ok (Int.gcd x.den k : Int) :=
    Word.fit_of_inRange ((Word.inRange_of_nonneg (by omega)).mpr (by omega))
  have hpos : 0 < x.den / (Int.gcd x.den k : Int) :=
    Int.ediv_pos_of_pos_of_dvd hx.den_pos (by omega) hdvd
  have hmake := not_faults_make hpos (Int.le_trans (Int.ediv_le_self _ hx.den_pos.le) hle)
  unfold scale
  rw [hfit]
  change Faults (Word.fit _ >>= _) ↔ _
  rw [Word.faults_fit_bind_iff]
  simp [hmake]

/-- Zero can be divided by everything but zero and the least word. -/
theorem faults_shrink_zero_iff {x : Fraction} (hx : x.Stored) (hnum : x.num = 0) {k : Int}
    (hk : Word.InRange k) : Faults (x.shrink k) ↔ k = 0 ∨ k = Word.least := by
  have hgcd : (Int.gcd x.num k : Int) = |k| := by rw [hnum, Int.gcd_zero_left, Int.natCast_natAbs]
  have hrange : Word.InRange |k| ↔ k ≠ Word.least := by
    rw [Word.inRange_of_nonneg (abs_nonneg k), ← Int.not_lt, Word.greatest_lt_abs_iff]
    simp [hk]
  unfold shrink Word.gcd
  rw [Word.faults_fit_bind_iff, hgcd, hrange, not_not]
  by_cases hk0 : k = 0
  · simp [hk0]
  · have hunit : x.den * (k / |k|) = x.den ∨ x.den * (k / |k|) = -x.den := by
      rcases abs_choice k with h | h
      · rw [h, Int.ediv_self hk0, Int.mul_one]
        exact .inl rfl
      · rw [h, Int.ediv_neg, Int.ediv_self hk0, Int.mul_neg_one]
        exact .inr rfl
    have hpos := hx.den_pos
    have hle := hx.den_le
    have hfit : Word.InRange (x.den * (k / |k|)) := by
      unfold Word.InRange Word.least
      unfold Word.greatest at *
      omega
    have hne : x.den * (k / |k|) ≠ 0 := by omega
    rw [if_neg (abs_ne_zero.mpr hk0), Word.faults_fit_bind_iff, hnum, Int.zero_ediv]
    simp [hfit, hk0, make, hne]

/-- The parts of a quotient have no common divisor, so its numerator is odd where its denominator is
the least word. -/
theorem Stored.gcd_shrunk {x : Fraction} (hx : x.Stored) (hnum : x.num ≠ 0) (k : Int) :
    Int.gcd (x.den * (k / (Int.gcd x.num k : Int))) (x.num / (Int.gcd x.num k : Int)) = 1 := by
  have hnumden : IsCoprime x.den x.num := (Int.isCoprime_iff_gcd_eq_one.mpr hx.gcd_eq).symm
  have hquotients : IsCoprime (k / (Int.gcd x.num k : Int)) (x.num / (Int.gcd x.num k : Int)) :=
    (Int.isCoprime_iff_gcd_eq_one.mpr
      (Int.gcd_ediv_gcd_ediv_gcd (Int.gcd_pos_of_ne_zero_left k hnum))).symm
  have hdvd := Int.ediv_dvd_of_dvd (Int.gcd_dvd_left x.num k)
  rw [← Int.isCoprime_iff_gcd_eq_one]
  exact (hnumden.of_isCoprime_of_dvd_right hdvd).mul_left hquotients

/-- A fraction other than zero can be divided if the new denominator is a word, also without its
sign. -/
theorem faults_shrink_iff {x : Fraction} (hx : x.Stored) (hnum : x.num ≠ 0) (k : Int) :
    Faults (x.shrink k) ↔
      k = 0 ∨ Word.greatest < |x.den * (k / (Int.gcd x.num k : Int))| := by
  have hnumpos : 0 < x.num := lt_of_le_of_ne hx.num_nonneg (Ne.symm hnum)
  have hnumlt := hx.num_lt
  have hdenle := hx.den_le
  have hgdvd := Int.gcd_dvd_left x.num k
  have hgle : (Int.gcd x.num k : Int) ≤ x.num := Int.le_of_dvd hnumpos hgdvd
  have hg : (0 : Int) < Int.gcd x.num k := by
    exact_mod_cast Int.gcd_pos_of_ne_zero_left k hnum
  have hgfit : Word.InRange (Int.gcd x.num k : Int) :=
    (Word.inRange_of_nonneg hg.le).mpr (by omega)
  have hquot : 0 < x.num / (Int.gcd x.num k : Int) :=
    Int.ediv_pos_of_pos_of_dvd hnumpos hg.le hgdvd
  have hquotle : x.num / (Int.gcd x.num k : Int) ≤ x.num := Int.ediv_le_self _ hnumpos.le
  have hquotfit : Word.InRange (x.num / (Int.gcd x.num k : Int)) :=
    (Word.inRange_of_nonneg hquot.le).mpr (by omega)
  unfold shrink Word.gcd
  rw [Word.faults_fit_bind_iff, if_neg hg.ne', Word.faults_fit_bind_iff]
  simp only [hgfit, not_true_eq_false, false_or]
  by_cases hk : k = 0
  · simp [hk, make]
  · have hden : x.den * (k / (Int.gcd x.num k : Int)) ≠ 0 := by
      refine Int.mul_ne_zero hx.den_pos.ne' fun h => hk ?_
      exact Int.eq_zero_of_ediv_eq_zero (Int.gcd_dvd_right x.num k) h
    have hcoprime := hx.gcd_shrunk hnum k
    generalize x.den * (k / (Int.gcd x.num k : Int)) = d at *
    rw [Word.greatest_lt_abs_iff]
    by_cases hd : Word.InRange d
    · have hodd : d = Word.least → Odd (x.num / (Int.gcd x.num k : Int)) := by
        rintro rfl
        exact Word.gcd_least_eq_one_iff.mp hcoprime
      have hnotleast : x.num / (Int.gcd x.num k : Int) ≠ Word.least := by
        unfold Word.least
        omega
      rw [faults_make_iff hquotfit hd]
      simp only [hd, hden, hk, hnotleast, not_true_eq_false, false_and, false_or, or_false]
      exact ⟨And.left, fun h => ⟨h, hodd h⟩⟩
    · simp [hd]

theorem neg_sized {x y : Fraction} (hx : x.Sized) (h : x.neg = .ok y) : y.Sized := by
  rw [neg_eq_ok h]
  exact ⟨hx.den_pos, hx.den_le⟩

theorem combine_sized {op : Int → Int → Int} {x y z : Fraction} (hx : x.Sized)
    (h : combine op x y = .ok z) : z.Sized := by
  unfold combine at h
  split at h
  next =>
    obtain ⟨num, _, h⟩ := except_bind_eq_ok.mp h
    exact make_sized hx.den_le h
  next =>
    obtain ⟨l, hl, h⟩ := except_bind_eq_ok.mp h
    obtain ⟨a, _, h⟩ := except_bind_eq_ok.mp h
    obtain ⟨b, _, h⟩ := except_bind_eq_ok.mp h
    obtain ⟨num, _, h⟩ := except_bind_eq_ok.mp h
    obtain ⟨g, _, hl⟩ := except_bind_eq_ok.mp hl
    obtain ⟨p, _, hl⟩ := except_bind_eq_ok.mp hl
    exact make_sized (Word.inRange_of_fit hl).2 h

theorem scale_sized {x z : Fraction} (hx : x.Sized) {k : Int} (h : x.scale k = .ok z) :
    z.Sized := by
  obtain ⟨g, _, h⟩ := except_bind_eq_ok.mp h
  obtain ⟨num, _, h⟩ := except_bind_eq_ok.mp h
  exact make_sized (Int.le_trans (Int.ediv_le_self _ hx.den_pos.le) hx.den_le) h

theorem shrink_sized {x z : Fraction} {k : Int} (h : x.shrink k = .ok z) : z.Sized := by
  obtain ⟨g, _, h⟩ := except_bind_eq_ok.mp h
  split at h
  next => cases h
  next =>
    obtain ⟨den, hden, h⟩ := except_bind_eq_ok.mp h
    exact make_sized (Word.inRange_of_fit hden).2 h

end Fraction

namespace Angle

theorem not_faults_ofFraction {x : Fraction} (h : x.Sized) : ¬ Faults (ofFraction x) := by
  obtain ⟨turns, hturns⟩ := exists_ok_of_not_faults (Fraction.not_faults_modOne h)
  unfold ofFraction
  rw [hturns]
  exact not_faults_ok _

/-- Dropping whole turns never fails, so an operation fails where its fraction does. -/
theorem faults_bind_ofFraction_iff {x? : Except Fault Fraction}
    (hx : ∀ x, x? = .ok x → x.Sized) : Faults (x? >>= ofFraction) ↔ Faults x? := by
  rw [faults_bind, or_iff_left_iff_imp]
  rintro ⟨x, hok, h⟩
  exact absurd h (not_faults_ofFraction (hx x hok))

/-- Exactly the operations on angles fail that need an integer beyond the signed words. -/
theorem faults_exactly (n d k : Int64) {a c : Angle} (ha : a.turns.Stored) (hc : c.turns.Stored) :
    (Faults (ofTurns n.toInt d.toInt) ↔ d.toInt = 0 ∨ (d.toInt = Word.least ∧ Odd n.toInt) ∨
      (n.toInt = Word.least ∧ d.toInt < 0 ∧ Odd d.toInt)) ∧
    ¬ Faults a.neg ∧
    (Faults (a.sub c) ↔ Word.greatest < (Int.lcm a.turns.den c.turns.den : Int)) ∧
    (Faults (a.add c) ↔ Word.greatest < (Int.lcm a.turns.den c.turns.den : Int) ∨
      Word.greatest < a.turns.num * (Int.lcm a.turns.den c.turns.den / a.turns.den) +
        c.turns.num * (Int.lcm a.turns.den c.turns.den / c.turns.den)) ∧
    (Faults (a.scale k.toInt) ↔
      ¬ Word.InRange (a.turns.num * (k.toInt / (Int.gcd a.turns.den k.toInt : Int)))) ∧
    (Faults (a.shrink k.toInt) ↔ k.toInt = 0 ∨ (a.turns.num = 0 ∧ k.toInt = Word.least) ∨
      (a.turns.num ≠ 0 ∧
        Word.greatest < |a.turns.den * (k.toInt / (Int.gcd a.turns.num k.toInt : Int))|)) := by
  refine ⟨?_, ?_, ?_, ?_, ?_, ?_⟩
  · have hd := Word.inRange_toInt d
    rw [ofTurns, faults_bind_ofFraction_iff fun _ => Fraction.make_sized hd.2]
    exact Fraction.faults_make_iff (Word.inRange_toInt n) hd
  · rw [neg, faults_bind_ofFraction_iff fun _ => Fraction.neg_sized ha.sized]
    exact Fraction.not_faults_neg ha
  · exact (faults_bind_ofFraction_iff fun _ => Fraction.combine_sized ha.sized).trans
      (Fraction.faults_sub_iff ha hc)
  · exact (faults_bind_ofFraction_iff fun _ => Fraction.combine_sized ha.sized).trans
      (Fraction.faults_add_iff ha hc)
  · rw [scale, faults_bind_ofFraction_iff fun _ => Fraction.scale_sized ha.sized]
    exact Fraction.faults_scale_iff ha k.toInt
  · rw [shrink, faults_bind_ofFraction_iff fun _ => Fraction.shrink_sized]
    by_cases hnum : a.turns.num = 0
    · rw [Fraction.faults_shrink_zero_iff ha hnum (Word.inRange_toInt k)]
      simp [hnum]
    · rw [Fraction.faults_shrink_iff ha hnum]
      simp [hnum]

/-- Two angles of more than half a turn whose difference is a fraction of words and whose sum is
not. -/
theorem long_sum_faults_exactly :
    let a : Angle := ⟨⟨4611686018427387904, 9223372036854775807⟩⟩
    let c : Angle := ⟨⟨4611686018427387905, 9223372036854775807⟩⟩
    a.turns.Stored ∧ c.turns.Stored ∧ Faults (ofTurns Int64.minValue.toInt (-1 : Int64).toInt) ∧
      ¬ Faults a.neg ∧ ¬ Faults (a.sub c) ∧ Faults (a.add c) := by
  intro a c
  have ha : a.turns.Stored := ⟨⟨⟨by decide, by decide⟩, by decide, by decide⟩, by decide⟩
  have hc : c.turns.Stored := ⟨⟨⟨by decide, by decide⟩, by decide, by decide⟩, by decide⟩
  obtain ⟨hturns, hneg, hsub, hadd, _⟩ := faults_exactly Int64.minValue (-1) 0 ha hc
  exact ⟨ha, hc, hturns.mpr (by decide), hneg, hsub.not.mpr (by decide),
    hadd.mpr (.inr (by decide))⟩

end Angle

end BasisFlow
