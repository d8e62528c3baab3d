import BasisFlow.Proofs.Exact
import BasisFlow.Proofs.Indices
import Mathlib.Data.Nat.Digits.Lemmas

namespace BasisFlow

namespace Polarity

/-- The digit of a bit. -/
def digit (b : Bool) : Char :=
  if b then '1' else '0'

/-- The binary numeral of a number in `n` digits, the highest first. -/
def numeral (n state : Nat) : String :=
  String.ofList (((Nat.digits 2 state).map Nat.digitChar).reverse.leftpad n '0')

theorem bitOfChar_eq_ok_iff {c : Char} {b : Bool} : bitOfChar c = .ok b ↔ c = digit b := by
  unfold bitOfChar
  split
  next h => cases b <;> simp [h, digit]
  next h =>
    split
    next h' => cases b <;> simp [h', digit]
    next h' => cases b <;> simp [h, h', digit]

theorem bitOfChar_eq_error_iff {c : Char} {e : GateError} :
    bitOfChar c = .error e ↔ (c ≠ '0' ∧ c ≠ '1') ∧ e = .polarityParse c := by
  unfold bitOfChar
  split
  next h => simp [h]
  next h =>
    split
    next h' => simp [h']
    next h' => simp [h, h', eq_comm]

section Characters

variable {cs : List Char}

theorem mapM_bitOfChar_eq_ok_iff {bits : List Bool} :
    cs.mapM bitOfChar = .ok bits ↔ cs = bits.map digit := by
  induction cs generalizing bits with
  | nil => cases bits <;> simp [pure, Except.pure]
  | cons c cs ih =>
    rw [List.mapM_cons, except_bind_eq_ok]
    constructor
    · rintro ⟨b, hb, h⟩
      obtain ⟨rest, hrest, h⟩ := except_bind_eq_ok.mp h
      cases h
      rw [List.map_cons, ← bitOfChar_eq_ok_iff.mp hb, ← ih.mp hrest]
    · intro h
      obtain ⟨b, rest, rfl, hb, hrest⟩ := List.map_eq_cons_iff.mp h.symm
      refine ⟨b, bitOfChar_eq_ok_iff.mpr hb.symm, ?_⟩
      rw [ih.mpr hrest.symm]
      rfl

/-- Reading stops at the first character that is no digit. -/
theorem mapM_bitOfChar_eq_error_iff {e : GateError} :
    cs.mapM bitOfChar = .error e ↔
      ∃ c, cs.find? (fun c => c ≠ '0' ∧ c ≠ '1') = some c ∧ e = .polarityParse c := by
  induction cs with
  | nil => simp [pure, Except.pure]
  | cons c cs ih =>
    rw [List.mapM_cons]
    cases hc : bitOfChar c with
    | error e' =>
      obtain ⟨hbad, rfl⟩ := bitOfChar_eq_error_iff.mp hc
      simp [hbad, bind, Except.bind, eq_comm]
    | ok b =>
      have hgood : ¬ (c ≠ '0' ∧ c ≠ '1') := by
        rw [bitOfChar_eq_ok_iff.mp hc]
        cases b <;> decide
      rw [List.find?_cons_of_neg (by simpa using hgood), ← ih]
      cases cs.mapM bitOfChar with
      | error e' => simp [bind, Except.bind]
      | ok rest => simp [bind, Except.bind, pure, Except.pure]

end Characters

/-- A polarity is read from its own text and from no other. -/
theorem parse_eq_ok_iff {t : String} {p : Polarity} : parse t = .ok p ↔ t = p.text := by
  have htext : t = p.text ↔ t.toList = p.bits.reverse.map digit := by
    rw [← String.toList_inj, text, String.toList_ofList]
    rfl
  rw [htext, ← mapM_bitOfChar_eq_ok_iff, parse, except_bind_eq_ok]
  obtain ⟨bits⟩ := p
  constructor
  · rintro ⟨read, hread, h⟩
    cases h
    rwa [List.reverse_reverse]
  · intro h
    refine ⟨_, h, ?_⟩
    rw [List.reverse_reverse]
    rfl

theorem parse_eq_error_iff {t : String} {e : GateError} :
    parse t = .error e ↔
      ∃ c, t.toList.find? (fun c => c ≠ '0' ∧ c ≠ '1') = some c ∧ e = .polarityParse c := by
  rw [← mapM_bitOfChar_eq_error_iff, parse]
  cases t.toList.mapM bitOfChar with
  | error e' => simp [bind, Except.bind]
  | ok bits => simp [bind, Except.bind, pure, Except.pure]

theorem parse_isOk_iff {t : String} :
    (∃ p, parse t = .ok p) ↔ ∀ c ∈ t.toList, c = '0' ∨ c = '1' := by
  constructor
  · rintro ⟨p, h⟩ c hc
    rw [parse_eq_ok_iff.mp h, text, String.toList_ofList, List.mem_map] at hc
    obtain ⟨b, _, rfl⟩ := hc
    cases b <;> simp
  · intro h
    cases hp : parse t with
    | ok p => exact ⟨p, rfl⟩
    | error e =>
      obtain ⟨c, hc, _⟩ := parse_eq_error_iff.mp hp
      have hgood := h c (List.mem_of_find?_eq_some hc)
      have hbad : c ≠ '0' ∧ c ≠ '1' := by simpa using List.find?_some hc
      exact absurd hgood (not_or.mpr hbad)

theorem length_text (p : Polarity) : p.text.length = p.length := by
  simp [text, length]

section OfNat

variable {state n : Nat}

theorem ofNat_of_lt (h : state < 2 ^ n) : ofNat state n = .ok ⟨(List.range n).map state.testBit⟩ :=
  if_pos (by rw [Nat.shiftRight_eq_div_pow, Nat.div_eq_of_lt h])

theorem ofNat_of_le (h : 2 ^ n ≤ state) : ofNat state n = .error (.polarityOverflow state n) := by
  refine if_neg ?_
  rw [Nat.shiftRight_eq_div_pow]
  exact (Nat.div_pos h (Nat.two_pow_pos n)).ne'

theorem ofNat_eq_ok_iff {q : Polarity} :
    ofNat state n = .ok q ↔ state < 2 ^ n ∧ q = ⟨(List.range n).map state.testBit⟩ := by
  by_cases h : state < 2 ^ n
  · simp [ofNat_of_lt h, h, eq_comm]
  · simp [ofNat_of_le (Nat.le_of_not_lt h), h]

theorem digit_testBit (state k : Nat) :
    digit (state.testBit k) = Nat.digitChar ((Nat.digits 2 state).getD k 0) := by
  rw [Nat.getD_digits state k (Nat.le_refl 2), Nat.testBit_eq_decide_div_mod_eq]
  rcases Nat.mod_two_eq_zero_or_one (state / 2 ^ k) with h | h <;> simp [h, digit]

/-- The bits of a number are its binary digits, up to leading zeros. -/
theorem map_digit_testBit (h : state < 2 ^ n) :
    (List.range n).map (fun k => digit (state.testBit k)) =
      (Nat.digits 2 state).map Nat.digitChar ++
        List.replicate (n - (Nat.digits 2 state).length) '0' := by
  have hlen : (Nat.digits 2 state).length ≤ n :=
    (Nat.digits_length_le_iff Nat.one_lt_two state).mpr h
  apply List.ext_getElem
  · rw [List.length_map, List.length_range, List.length_append, List.length_map,
      List.length_replicate, Nat.add_sub_cancel' hlen]
  · intro k _ _
    rw [List.getElem_map, List.getElem_range, digit_testBit]
    by_cases hk : k < (Nat.digits 2 state).length
    · simp [hk, List.getElem_append_left]
    · rw [List.getElem_append_right (by simpa using hk)]
      simp [hk]

theorem text_ofBits (h : state < 2 ^ n) :
    (Polarity.mk ((List.range n).map state.testBit)).text = numeral n state := by
  have hdigits : (((List.range n).map state.testBit).reverse.map digit) =
      ((List.range n).map fun k => digit (state.testBit k)).reverse := by
    rw [List.map_reverse, List.map_map]
    rfl
  change String.ofList (((List.range n).map state.testBit).reverse.map digit) = _
  rw [hdigits, map_digit_testBit h, List.reverse_append, List.reverse_replicate, numeral,
    List.leftpad, List.length_reverse, List.length_map]

end OfNat

section Allocated

variable {state n : Nat}

theorem allocateOfNat_of_lt (hn : n < 2 ^ 63) : allocateOfNat state n = ofNat state n := by
  have hroom : Word.reserve n 1 = .ok () := if_pos (by omega)
  rw [allocateOfNat, hroom]
  rfl

theorem allocateOfNat_of_le (hn : 2 ^ 63 ≤ n) :
    allocateOfNat state n = .error (.arithmetic .capacity) := by
  have hroom : Word.reserve n 1 = .error .capacity := if_neg (by omega)
  rw [allocateOfNat, hroom]
  rfl

end Allocated

/-- The lists of bits, the binary texts and the numbers that stand for polarities agree: texts are
read back, nothing else is read, and a number that has room in `n` bits gives the polarity of its
numeral. Lists of `2 ^ 63` bits or more do not fit into memory. -/
theorem encodings_agree (p : Polarity) (t : String) (s : UInt64) (n : Nat) :
    parse p.text = .ok p ∧
    ((∃ q, parse t = .ok q) ↔ ∀ c ∈ t.toList, c = '0' ∨ c = '1') ∧
    (∀ e, parse t = .error e ↔
      ∃ c, t.toList.find? (fun c => c ≠ '0' ∧ c ≠ '1') = some c ∧ e = .polarityParse c) ∧
    (∀ q, parse t = .ok q → q.text = t) ∧
    (n < 2 ^ 63 →
      ((∃ q, allocateOfNat s.toNat n = .ok q) ↔ s.toNat < 2 ^ n) ∧
      (64 ≤ n → s.toNat < 2 ^ n) ∧
      (2 ^ n ≤ s.toNat → allocateOfNat s.toNat n = .error (.polarityOverflow s.toNat n)) ∧
      ∀ q, allocateOfNat s.toNat n = .ok q → q.length = n ∧ q.text.length = n ∧
        (∀ k < n, q.get? k = some (decide (k < 64) && s.toNat.testBit k)) ∧
        q.text = numeral n s.toNat ∧ parse (numeral n s.toNat) = .ok q) ∧
    (2 ^ 63 ≤ n → allocateOfNat s.toNat n = .error (.arithmetic .capacity)) := by
  refine ⟨parse_eq_ok_iff.mpr rfl, parse_isOk_iff, fun _ => parse_eq_error_iff,
    fun _ h => (parse_eq_ok_iff.mp h).symm, ?_, allocateOfNat_of_le⟩
  intro hn
  have hwide : 64 ≤ n → s.toNat < 2 ^ n := fun h64 =>
    Nat.lt_of_lt_of_le s.toNat_lt (Nat.pow_le_pow_right Nat.two_pos h64)
  rw [allocateOfNat_of_lt hn]
  simp only [ofNat_eq_ok_iff]
  refine ⟨by simp, hwide, ofNat_of_le, ?_⟩
  rintro q ⟨hlt, rfl⟩
  have hlen : (Polarity.mk ((List.range n).map s.toNat.testBit)).length = n := by simp [length]
  refine ⟨hlen, (length_text _).trans hlen, ?_, text_ofBits hlt,
    parse_eq_ok_iff.mpr (text_ofBits hlt).symm⟩
  intro k hk
  by_cases hk64 : k < 64
  · simp [get?, hk, hk64]
  · have hhigh := lt_two_pow_iff.mp s.toNat_lt k (Nat.le_of_not_lt hk64)
    simp [get?, hk, hk64, hhigh]

/-- The number three in 65 bits and in one, and a text with two characters that are no digits. -/
theorem padded_three_encodings_agree :
    parse "01" = .ok ⟨[true, false]⟩ ∧ parse "1x0y" = .error (.polarityParse 'x') ∧
    (∃ q, allocateOfNat (3 : UInt64).toNat 65 = .ok q ∧ q.get? 1 = some true ∧
      q.get? 64 = some false ∧ parse (numeral 65 3) = .ok q) ∧
    allocateOfNat (3 : UInt64).toNat 1 = .error (.polarityOverflow 3 1) := by
  obtain ⟨hback, _, hbad, _, hroom, _⟩ := encodings_agree ⟨[true, false]⟩ "1x0y" 3 65
  obtain ⟨hfits, _, _, hspec⟩ := hroom (by decide)
  obtain ⟨q, hq⟩ := hfits.mpr (by decide)
  obtain ⟨_, _, hbits, _, hread⟩ := hspec q hq
  obtain ⟨_, _, hover, _⟩ := (encodings_agree ⟨[]⟩ "" 3 1).2.2.2.2.1 (by decide)
  exact ⟨hback, (hbad _).mpr ⟨'x', by decide, rfl⟩,
    ⟨q, hq, hbits 1 (by decide), hbits 64 (by decide), hread⟩, hover (by decide)⟩

/-- Zero needs no bits, but there is no room for `2 ^ 63` of them. -/
theorem zero_without_room :
    allocateOfNat (0 : UInt64).toNat 9223372036854775808 = .error (.arithmetic .capacity) ∧
    ¬ ∀ (s : UInt64) (n : Nat), (∃ q, allocateOfNat s.toNat n = .ok q) ↔ s.toNat < 2 ^ n := by
  have hfull : allocateOfNat (0 : UInt64).toNat 9223372036854775808 =
      .error (.arithmetic .capacity) := allocateOfNat_of_le (by omega)
  have hzero : ∀ n, (0 : UInt64).toNat < 2 ^ n := Nat.two_pow_pos
  refine ⟨hfull, fun h => ?_⟩
  obtain ⟨q, hq⟩ := (h 0 _).mpr (hzero 9223372036854775808)
  rw [hfull] at hq
  cases hq

end Polarity

end BasisFlow
