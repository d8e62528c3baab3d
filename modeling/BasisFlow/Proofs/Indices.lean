import BasisFlow.Register
import Mathlib.Data.List.Nodup
import Mathlib.Data.Nat.Bitwise
import Mathlib.Tactic.Ring

namespace BasisFlow

/-- The index with the bits of `l` on the wires `ws`, and its own bits on all others. -/
def put (ws : List Wire) (l k : Nat) : Nat :=
  clearBits (wireMask ws) k ||| scatter ws l

/-- The index with the value of one wire replaced. -/
def assign (k : Nat) (w : Wire) (b : Bool) : Nat :=
  put [w] b.toNat k

theorem testBit_two_pow_add {w x : Nat} (h : x.testBit w = false) (j : Nat) :
    (2 ^ w + x).testBit j = (decide (j = w) || x.testBit j) := by
  induction w generalizing x j with
  | zero =>
    have hx : x % 2 = 0 := by
      simp only [Nat.testBit_zero, decide_eq_false_iff_not] at h
      omega
    cases j with
    | zero =>
      have hodd : (1 + x) % 2 = 1 := by omega
      simp [hodd]
    | succ j =>
      have hhalf : (1 + x) / 2 = x / 2 := by omega
      simp [Nat.testBit_succ, hhalf]
  | succ w ih =>
    have hdouble : 2 ^ (w + 1) = 2 * 2 ^ w := Nat.pow_succ'
    cases j with
    | zero =>
      have hmod : (2 ^ (w + 1) + x) % 2 = x % 2 := by omega
      simp [hmod]
    | succ j =>
      have hhalf : (2 ^ (w + 1) + x) / 2 = 2 ^ w + x / 2 := by omega
      rw [Nat.testBit_succ] at h
      rw [Nat.testBit_succ, hhalf, ih h, Nat.testBit_succ x]
      simp

theorem testBit_gather (ws : List Wire) (k j : Nat) :
    (gather ws k).testBit j = ws[j]?.any k.testBit := by
  induction ws generalizing j with
  | nil => simp [gather]
  | cons w ws ih =>
    have hbit : (k.testBit w).toNat ≤ 1 := Bool.toNat_le _
    cases j with
    | zero =>
      rw [gather, Nat.testBit_zero]
      cases hb : k.testBit w <;> simp [hb]
    | succ j =>
      have hhalf : ((k.testBit w).toNat + 2 * gather ws k) / 2 = gather ws k := by omega
      rw [gather, Nat.testBit_succ, hhalf, ih, List.getElem?_cons_succ]

theorem gather_lt (ws : List Wire) (k : Nat) : gather ws k < 2 ^ ws.length := by
  induction ws with
  | nil => simp [gather]
  | cons w ws ih =>
    have hbit : (k.testBit w).toNat ≤ 1 := Bool.toNat_le _
    have hdouble : 2 ^ (w :: ws).length = 2 * 2 ^ ws.length := Nat.pow_succ'
    rw [gather]
    omega

theorem testBit_wireMask {ws : List Wire} (h : ws.Nodup) (j : Nat) :
    (wireMask ws).testBit j = decide (j ∈ ws) := by
  induction ws generalizing j with
  | nil => simp [wireMask]
  | cons w ws ih =>
    obtain ⟨hw, hn⟩ := List.nodup_cons.mp h
    have hoff : (wireMask ws).testBit w = false := by simp [ih hn, hw]
    have hadd : wireMask (w :: ws) = 2 ^ w + wireMask ws := by simp [wireMask, Nat.one_shiftLeft]
    rw [hadd, testBit_two_pow_add hoff, ih hn]
    simp [Bool.decide_or]

theorem testBit_scatter {ws : List Wire} (h : ws.Nodup) (l j : Nat) :
    (scatter ws l).testBit j = (decide (j ∈ ws) && l.testBit (ws.idxOf j)) := by
  induction ws generalizing l j with
  | nil => simp [scatter]
  | cons w ws ih =>
    obtain ⟨hw, hn⟩ := List.nodup_cons.mp h
    have hoff : (scatter ws (l / 2)).testBit w = false := by simp [ih hn, hw]
    have hrest : (scatter ws (l / 2)).testBit j =
        (decide (j ∈ ws) && l.testBit (ws.idxOf j + 1)) := by
      rw [ih hn, Nat.testBit_succ]
    rw [scatter]
    rcases Nat.mod_two_eq_zero_or_one l with hl | hl
    · rw [hl, Nat.zero_shiftLeft, Nat.zero_add, hrest]
      by_cases hj : j = w
      · subst j
        simp [hw, hl]
      · simp [hj, List.idxOf_cons_ne _ (Ne.symm hj)]
    · rw [hl, Nat.one_shiftLeft, testBit_two_pow_add hoff, hrest]
      by_cases hj : j = w
      · subst j
        simp [hl]
      · simp [hj, List.idxOf_cons_ne _ (Ne.symm hj)]

theorem testBit_clearBits (mask k j : Nat) :
    (clearBits mask k).testBit j = (k.testBit j && !mask.testBit j) := by
  rw [clearBits, Nat.testBit_xor, Nat.testBit_and]
  cases k.testBit j <;> simp

theorem put_zero (ws : List Wire) (l : Nat) : put ws l 0 = scatter ws l := by
  simp [put, clearBits]

theorem testBit_put {ws : List Wire} (h : ws.Nodup) (l k j : Nat) :
    (put ws l k).testBit j = if j ∈ ws then l.testBit (ws.idxOf j) else k.testBit j := by
  rw [put, Nat.testBit_or, testBit_clearBits, testBit_wireMask h, testBit_scatter h]
  by_cases hj : j ∈ ws <;> simp [hj]

theorem testBit_put_of_notMem {ws : List Wire} (h : ws.Nodup) {j : Nat} (hj : j ∉ ws) (l k : Nat) :
    (put ws l k).testBit j = k.testBit j := by
  rw [testBit_put h, if_neg hj]

theorem gather_congr {ws : List Wire} {k k' : Nat} (h : ∀ w ∈ ws, k.testBit w = k'.testBit w) :
    gather ws k = gather ws k' := by
  induction ws with
  | nil => rfl
  | cons w ws ih =>
    rw [gather, gather, h w (by simp), ih fun v hv => h v (by simp [hv])]

theorem gather_put {ws : List Wire} (h : ws.Nodup) {l : Nat} (hl : l < 2 ^ ws.length) (k : Nat) :
    gather ws (put ws l k) = l := by
  apply Nat.eq_of_testBit_eq
  intro j
  rw [testBit_gather]
  by_cases hj : j < ws.length
  · have hmem : ws[j] ∈ ws := List.getElem_mem hj
    have hidx : ws.idxOf ws[j] = j := h.idxOf_getElem j hj
    simp [List.getElem?_eq_getElem hj, testBit_put h, hmem, hidx]
  · have hle : ws.length ≤ j := by omega
    have hlt : l < 2 ^ j := Nat.lt_of_lt_of_le hl (Nat.pow_le_pow_right (by omega) hle)
    simp [List.getElem?_eq_none hle, Nat.testBit_eq_false_of_lt hlt]

theorem gather_put_of_disjoint {ws vs : List Wire} (h : vs.Nodup) (hd : ws.Disjoint vs)
    (l k : Nat) : gather ws (put vs l k) = gather ws k :=
  gather_congr fun _ hw => testBit_put_of_notMem h (hd hw) l k

theorem testBit_gather_idxOf {ws : List Wire} {j : Wire} (hj : j ∈ ws) (k : Nat) :
    (gather ws k).testBit (ws.idxOf j) = k.testBit j := by
  have hlt : ws.idxOf j < ws.length := List.idxOf_lt_length_of_mem hj
  rw [testBit_gather, List.getElem?_eq_getElem hlt, List.getElem_idxOf]
  rfl

theorem put_gather {ws : List Wire} (h : ws.Nodup) (k : Nat) : put ws (gather ws k) k = k := by
  apply Nat.eq_of_testBit_eq
  intro j
  rw [testBit_put h]
  by_cases hj : j ∈ ws
  · rw [if_pos hj, testBit_gather_idxOf hj]
  · rw [if_neg hj]

theorem put_put {ws : List Wire} (h : ws.Nodup) (l l' k : Nat) :
    put ws l (put ws l' k) = put ws l k := by
  apply Nat.eq_of_testBit_eq
  intro j
  rw [testBit_put h, testBit_put h, testBit_put h]
  by_cases hj : j ∈ ws <;> simp [hj]

theorem put_comm {ws vs : List Wire} (hw : ws.Nodup) (hv : vs.Nodup) (hd : ws.Disjoint vs)
    (l m k : Nat) : put ws l (put vs m k) = put vs m (put ws l k) := by
  apply Nat.eq_of_testBit_eq
  intro j
  rw [testBit_put hw, testBit_put hv, testBit_put hv, testBit_put hw]
  by_cases hj : j ∈ ws
  · have hjv : j ∉ vs := hd hj
    simp [hj, hjv]
  · simp [hj]

theorem lt_two_pow_iff {k n : Nat} : k < 2 ^ n ↔ ∀ j, n ≤ j → k.testBit j = false := by
  constructor
  · intro h j hj
    exact Nat.testBit_eq_false_of_lt (Nat.lt_of_lt_of_le h (Nat.pow_le_pow_right (by omega) hj))
  · intro h
    exact Nat.lt_pow_two_of_testBit k h

theorem put_lt_iff {ws : List Wire} (h : ws.Nodup) {n : Nat} (hn : ∀ w ∈ ws, w < n) (l k : Nat) :
    put ws l k < 2 ^ n ↔ k < 2 ^ n := by
  have hsame : ∀ j, n ≤ j → (put ws l k).testBit j = k.testBit j := by
    intro j hj
    apply testBit_put_of_notMem h
    intro hm
    exact absurd (hn j hm) (Nat.not_lt.mpr hj)
  rw [lt_two_pow_iff, lt_two_pow_iff]
  constructor
  · intro hk j hj
    rw [← hsame j hj, hk j hj]
  · intro hk j hj
    rw [hsame j hj, hk j hj]

theorem gather_append (cs ts : List Wire) (k : Nat) :
    gather (cs ++ ts) k = gather cs k + 2 ^ cs.length * gather ts k := by
  induction cs with
  | nil => simp [gather]
  | cons c cs ih =>
    have hdouble : 2 ^ (c :: cs).length = 2 * 2 ^ cs.length := Nat.pow_succ'
    rw [List.cons_append, gather, gather, ih, hdouble]
    ring

theorem put_append {cs ts : List Wire} (h : (cs ++ ts).Nodup) {i : Nat} (hi : i < 2 ^ cs.length)
    (l k : Nat) : put (cs ++ ts) (i + 2 ^ cs.length * l) k = put cs i (put ts l k) := by
  obtain ⟨hc, ht, hd⟩ := List.nodup_append.mp h
  apply Nat.eq_of_testBit_eq
  intro j
  rw [testBit_put h, testBit_put hc, testBit_put ht, Nat.add_comm i,
    Nat.testBit_two_pow_mul_add l hi]
  by_cases hjc : j ∈ cs
  · simp [hjc, List.idxOf_append_of_mem hjc, List.idxOf_lt_length_of_mem hjc]
  · by_cases hjt : j ∈ ts
    · simp [hjc, hjt, List.idxOf_append_of_notMem hjc]
    · simp [hjc, hjt]

theorem testBit_assign (k : Nat) (w : Wire) (b : Bool) (j : Nat) :
    (assign k w b).testBit j = if j = w then b else k.testBit j := by
  rw [assign, testBit_put (List.nodup_singleton w)]
  by_cases hj : j = w
  · subst j
    cases b <;> simp
  · simp [hj]

@[simp] theorem testBit_assign_self (k : Nat) (w : Wire) (b : Bool) :
    (assign k w b).testBit w = b := by
  simp [testBit_assign]

theorem testBit_assign_of_ne {j w : Wire} (h : j ≠ w) (k : Nat) (b : Bool) :
    (assign k w b).testBit j = k.testBit j := by
  rw [testBit_assign, if_neg h]

@[simp] theorem assign_testBit (k : Nat) (w : Wire) : assign k w (k.testBit w) = k := by
  apply Nat.eq_of_testBit_eq
  intro j
  by_cases hj : j = w <;> simp [testBit_assign, hj]

@[simp] theorem assign_assign (k : Nat) (w : Wire) (b b' : Bool) :
    assign (assign k w b) w b' = assign k w b' := by
  apply Nat.eq_of_testBit_eq
  intro j
  by_cases hj : j = w <;> simp [testBit_assign, hj]

theorem assign_comm {v w : Wire} (h : v ≠ w) (k : Nat) (b b' : Bool) :
    assign (assign k v b) w b' = assign (assign k w b') v b := by
  apply Nat.eq_of_testBit_eq
  intro j
  by_cases hv : j = v
  · subst j
    simp [testBit_assign, h]
  · simp [testBit_assign, hv]

theorem assign_put {ws : List Wire} (h : ws.Nodup) {w : Wire} (hw : w ∉ ws) (l k : Nat) (b : Bool) :
    assign (put ws l k) w b = put ws l (assign k w b) :=
  put_comm (List.nodup_singleton w) h (by simpa using hw) b.toNat l k

theorem gather_assign {ws : List Wire} {w : Wire} (hw : w ∉ ws) (k : Nat) (b : Bool) :
    gather ws (assign k w b) = gather ws k :=
  gather_put_of_disjoint (List.nodup_singleton w) (by simpa using hw) b.toNat k

theorem put_pair {a b : Wire} (h : a ≠ b) (x y : Bool) (k : Nat) :
    put [a, b] (x.toNat + 2 * y.toNat) k = assign (assign k b y) a x := by
  have hn : ([a] ++ [b]).Nodup := by simpa using h
  have hx : x.toNat < 2 ^ [a].length := by cases x <;> simp
  exact put_append hn hx y.toNat k

end BasisFlow
