import BasisFlow.Operation
import Mathlib.Data.List.Perm.Basic
import Mathlib.Logic.Relation

namespace BasisFlow

variable {α β : Type} {wires : α → List Wire}

/-- Two neighbours in a list that share no wire change places. -/
inductive Exchange (wires : α → List Wire) : List α → List α → Prop
  | swap (front back : List α) {x y : α} (apart : (wires x).Disjoint (wires y)) :
      Exchange wires (front ++ x :: y :: back) (front ++ y :: x :: back)

/-- The second list comes out of the first by finitely many exchanges. -/
def Rearranged (wires : α → List Wire) : List α → List α → Prop :=
  Relation.ReflTransGen (Exchange wires)

namespace Exchange

theorem symm {l m : List α} (h : Exchange wires l m) : Exchange wires m l := by
  obtain ⟨front, back, apart⟩ := h
  exact .swap front back fun w hy hx => apart hx hy

theorem append_left {l m : List α} (front : List α) (h : Exchange wires l m) :
    Exchange wires (front ++ l) (front ++ m) := by
  obtain ⟨first, back, apart⟩ := h
  rw [← List.append_assoc, ← List.append_assoc]
  exact .swap (front ++ first) back apart

theorem append_right {l m : List α} (back : List α) (h : Exchange wires l m) :
    Exchange wires (l ++ back) (m ++ back) := by
  obtain ⟨front, last, apart⟩ := h
  simpa using Exchange.swap front (last ++ back) apart

theorem perm {l m : List α} (h : Exchange wires l m) : l.Perm m := by
  obtain ⟨front, back, _⟩ := h
  exact (List.Perm.swap _ _ back).append_left front

/-- On every single wire an exchange shows nothing. -/
theorem filter_eq {l m : List α} (h : Exchange wires l m) (w : Wire) :
    l.filter (fun x => w ∈ wires x) = m.filter (fun x => w ∈ wires x) := by
  obtain @⟨front, back, x, y, apart⟩ := h
  rw [List.filter_append, List.filter_append]
  by_cases hx : w ∈ wires x
  · have hy : w ∉ wires y := apart hx
    simp [hx, hy]
  · simp [List.filter_cons, hx]

end Exchange

namespace Rearranged

theorem refl (l : List α) : Rearranged wires l l :=
  Relation.ReflTransGen.refl

theorem trans {l m n : List α} (h : Rearranged wires l m) (hn : Rearranged wires m n) :
    Rearranged wires l n :=
  Relation.ReflTransGen.trans h hn

theorem symm {l m : List α} (h : Rearranged wires l m) : Rearranged wires m l := by
  induction h with
  | refl => exact refl l
  | tail _ hstep ih => exact trans (Relation.ReflTransGen.single hstep.symm) ih

theorem append_left {l m : List α} (front : List α) (h : Rearranged wires l m) :
    Rearranged wires (front ++ l) (front ++ m) := by
  induction h with
  | refl => exact refl (front ++ l)
  | tail _ hstep ih => exact ih.tail (hstep.append_left front)

theorem append_right {l m : List α} (back : List α) (h : Rearranged wires l m) :
    Rearranged wires (l ++ back) (m ++ back) := by
  induction h with
  | refl => exact refl (l ++ back)
  | tail _ hstep ih => exact ih.tail (hstep.append_right back)

theorem cons (x : α) {l m : List α} (h : Rearranged wires l m) :
    Rearranged wires (x :: l) (x :: m) :=
  append_left [x] h

theorem perm {l m : List α} (h : Rearranged wires l m) : l.Perm m := by
  induction h with
  | refl => exact List.Perm.refl l
  | tail _ hstep ih => exact ih.trans hstep.perm

theorem filter_eq {l m : List α} (h : Rearranged wires l m) (w : Wire) :
    l.filter (fun x => w ∈ wires x) = m.filter (fun x => w ∈ wires x) := by
  induction h with
  | refl => rfl
  | tail _ hstep ih => exact ih.trans (hstep.filter_eq w)

/-- An entry that shares no wire with those before it can be taken first. -/
theorem to_front {x : α} {A : List α} (B : List α)
    (h : ∀ y ∈ A, (wires x).Disjoint (wires y)) :
    Rearranged wires (A ++ x :: B) (x :: (A ++ B)) := by
  induction A with
  | nil => exact refl (x :: B)
  | cons y A ih =>
    have htail := (ih fun z hz => h z (by simp [hz])).cons y
    have hhead : Exchange wires (y :: x :: (A ++ B)) (x :: y :: (A ++ B)) :=
      .swap [] (A ++ B) (List.disjoint_comm.mp (h y (by simp)))
    exact htail.trans (Relation.ReflTransGen.single hhead)

/-- Blocks that share no wire change places. -/
theorem append_comm {A B : List α} (h : ∀ x ∈ A, ∀ y ∈ B, (wires x).Disjoint (wires y)) :
    Rearranged wires (A ++ B) (B ++ A) := by
  induction B with
  | nil => simpa using refl A
  | cons y B ih =>
    have hfront := to_front B fun x hx => List.disjoint_comm.mp (h x hx y (by simp))
    exact hfront.trans ((ih fun x hx z hz => h x hx z (by simp [hz])).cons y)

/-- Entries may be unfolded into blocks that stay on their wires. -/
theorem flatMap {wires' : β → List Wire} {f : α → List β} {l m : List α}
    (h : Rearranged wires l m) (hf : ∀ x ∈ l, ∀ y ∈ f x, ∀ w ∈ wires' y, w ∈ wires x) :
    Rearranged wires' (l.flatMap f) (m.flatMap f) := by
  induction h with
  | refl => exact refl _
  | @tail m _ hl hstep ih =>
    refine ih.trans ?_
    have hm : ∀ x ∈ m, ∀ y ∈ f x, ∀ w ∈ wires' y, w ∈ wires x :=
      fun x hx => hf x ((show Rearranged wires l m from hl).perm.mem_iff.mpr hx)
    obtain @⟨front, back, x, y, apart⟩ := hstep
    have hblocks : Rearranged wires' (f x ++ f y) (f y ++ f x) := by
      apply append_comm
      intro a ha b hb w hwa hwb
      exact apart (hm x (by simp) a ha w hwa) (hm y (by simp) b hb w hwb)
    simpa using (hblocks.append_right (back.flatMap f)).append_left (front.flatMap f)

end Rearranged

/-- Lists that show the same on every single wire, and have the same entries without a wire, come
out of each other by exchanges. -/
theorem rearranged_of_filter_eq {l m : List α}
    (h : ∀ w, l.filter (fun x => w ∈ wires x) = m.filter (fun x => w ∈ wires x))
    (hfree : (l.filter fun x => wires x = []).Perm (m.filter fun x => wires x = [])) :
    Rearranged wires l m := by
  induction l generalizing m with
  | nil =>
    -- an entry of `m` would show on one of its wires or among the entries without a wire
    have hm : m = [] := by
      apply List.eq_nil_iff_forall_not_mem.mpr
      intro y hy
      cases hw : wires y with
      | nil =>
        have hmem : y ∈ m.filter fun x => wires x = [] := List.mem_filter.mpr ⟨hy, by simp [hw]⟩
        simpa using hfree.mem_iff.mpr hmem
      | cons w ws =>
        have hmem : y ∈ m.filter fun x => w ∈ wires x := List.mem_filter.mpr ⟨hy, by simp [hw]⟩
        rw [← h w] at hmem
        simp at hmem
    rw [hm]
    exact Rearranged.refl []
  | cons x l ih =>
    have hx : x ∈ m := by
      cases hw : wires x with
      | nil =>
        have hmem : x ∈ (x :: l).filter fun x => wires x = [] :=
          List.mem_filter.mpr ⟨by simp, by simp [hw]⟩
        exact List.mem_of_mem_filter (hfree.mem_iff.mp hmem)
      | cons w ws =>
        have hmem : x ∈ (x :: l).filter fun x => w ∈ wires x :=
          List.mem_filter.mpr ⟨by simp, by simp [hw]⟩
        exact List.mem_of_mem_filter (h w ▸ hmem)
    obtain ⟨A, B, rfl, hxA⟩ := List.eq_append_cons_of_mem hx
    -- the first entry of `m` on a wire of `x` is `x`, and this is behind `A`
    have hclear : ∀ w ∈ wires x, A.filter (fun y => w ∈ wires y) = [] := by
      intro w hw
      have hl := h w
      simp only [List.filter_cons, hw, decide_true, ↓reduceIte, List.filter_append] at hl
      cases hA : A.filter (fun y => w ∈ wires y) with
      | nil => rfl
      | cons z t =>
        rw [hA] at hl
        obtain ⟨rfl, _⟩ := List.cons.inj hl
        exact absurd (List.mem_of_mem_filter (by rw [hA]; simp)) hxA
    have hapart : ∀ y ∈ A, (wires x).Disjoint (wires y) := by
      intro y hy w hwx hwy
      have hm : y ∈ A.filter fun y => w ∈ wires y := List.mem_filter.mpr ⟨hy, by simpa using hwy⟩
      rw [hclear w hwx] at hm
      cases hm
    have hrest : ∀ w, l.filter (fun x => w ∈ wires x) = (A ++ B).filter (fun x => w ∈ wires x) := by
      intro w
      have hl := h w
      by_cases hw : w ∈ wires x
      · simpa [List.filter_cons, hw, hclear w hw] using hl
      · simpa [List.filter_cons, hw] using hl
    have hfree' : (l.filter fun x => wires x = []).Perm ((A ++ B).filter fun x => wires x = []) := by
      have hmoved := hfree.trans ((List.perm_middle : (A ++ x :: B).Perm _).filter _)
      by_cases hw : wires x = []
      · simpa [List.filter_cons, hw] using hmoved
      · simpa [List.filter_cons, hw] using hmoved
    exact ((ih hrest hfree').cons x).trans (Rearranged.to_front B hapart).symm

end BasisFlow
