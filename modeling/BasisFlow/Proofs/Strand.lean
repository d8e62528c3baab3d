import BasisFlow.Circuit.Edit
import Mathlib.Data.List.Nodup

namespace BasisFlow

/-- All that a circuit stores about one wire: its two ends and the leg of every node on it. -/
@[ext]
structure Strand where
  first : Option NodeId
  last : Option NodeId
  leg : NodeId → Option Leg

namespace Strand

def linkNext (s : Strand) (id target : Option NodeId) : Strand :=
  match id with
  | some a => { s with leg := fun x =>
      if x = a then (s.leg x).map fun p => { p with next := target } else s.leg x }
  | none => { s with first := target }

def linkPrev (s : Strand) (id target : Option NodeId) : Strand :=
  match id with
  | some a => { s with leg := fun x =>
      if x = a then (s.leg x).map fun p => { p with prev := target } else s.leg x }
  | none => { s with last := target }

/-- Gives a node a leg on the wire, or takes the one it has. -/
def place (s : Strand) (id : NodeId) (p : Option Leg) : Strand :=
  { s with leg := fun x => if x = id then p else s.leg x }

def hook (id : NodeId) (s : Strand) (p : Leg) : Strand :=
  (s.linkNext p.prev (some id)).linkPrev p.next (some id)

def unhook (s : Strand) (p : Leg) : Strand :=
  (s.linkNext p.prev p.next).linkPrev p.next p.prev

/-- The wire `w` is threaded through the nodes `l`: the links of each of them are its neighbours in
the list, and no other node has a leg on the wire. -/
structure Threads (s : Strand) (w : Wire) (l : List NodeId) : Prop where
  nodup : l.Nodup
  first_eq : s.first = l.head?
  last_eq : s.last = l.getLast?
  leg_eq : ∀ a x b, l = a ++ x :: b → s.leg x = some ⟨w, a.getLast?, b.head?⟩
  leg_off : ∀ x, x ∉ l → s.leg x = none

variable {s : Strand} {w : Wire}

theorem Threads.leg_mem {l : List NodeId} (h : s.Threads w l) {x : NodeId} (hx : x ∈ l) :
    ∃ a b, l = a ++ x :: b ∧ s.leg x = some ⟨w, a.getLast?, b.head?⟩ := by
  obtain ⟨a, b, hl⟩ := List.append_of_mem hx
  exact ⟨a, b, hl, h.leg_eq a x b hl⟩

theorem Threads.mem_iff {l : List NodeId} (h : s.Threads w l) {x : NodeId} :
    x ∈ l ↔ (s.leg x).isSome := by
  constructor
  · intro hx
    obtain ⟨_, _, _, hleg⟩ := h.leg_mem hx
    simp [hleg]
  · intro hx
    by_contra hn
    simp [h.leg_off x hn] at hx

/-- A place in a list around an entry is that entry or a place before or behind it. -/
theorem cut_around {A B a b : List NodeId} {id x : NodeId} (h : A ++ id :: B = a ++ x :: b) :
    (a = A ∧ x = id ∧ b = B) ∨ (∃ c, A = a ++ x :: c ∧ b = c ++ id :: B) ∨
      ∃ c, a = A ++ id :: c ∧ B = c ++ x :: b := by
  rcases List.append_eq_append_iff.mp h with ⟨c, hc, hd⟩ | ⟨c, hc, hd⟩
  · cases c with
    | nil =>
      simp only [List.nil_append, List.cons.injEq] at hd
      exact Or.inl ⟨by simp [hc], hd.1.symm, hd.2.symm⟩
    | cons y c =>
      simp only [List.cons_append, List.cons.injEq] at hd
      obtain ⟨rfl, hB⟩ := hd
      exact Or.inr (Or.inr ⟨c, hc, hB⟩)
  · cases c with
    | nil =>
      simp only [List.nil_append, List.cons.injEq] at hd
      exact Or.inl ⟨by simp [hc], hd.1, hd.2⟩
    | cons y c =>
      simp only [List.cons_append, List.cons.injEq] at hd
      obtain ⟨rfl, hb⟩ := hd
      exact Or.inr (Or.inl ⟨c, hc, hb⟩)

theorem cut_append {A B a b : List NodeId} {x : NodeId} (h : A ++ B = a ++ x :: b) :
    (∃ c, A = a ++ x :: c ∧ b = c ++ B) ∨ ∃ c, a = A ++ c ∧ B = c ++ x :: b := by
  rcases List.append_eq_append_iff.mp h with ⟨c, hc, hd⟩ | ⟨c, hc, hd⟩
  · exact Or.inr ⟨c, hc, hd⟩
  · cases c with
    | nil => exact Or.inr ⟨[], by simp [hc], by simpa using hd.symm⟩
    | cons y c =>
      simp only [List.cons_append, List.cons.injEq] at hd
      obtain ⟨rfl, hb⟩ := hd
      exact Or.inl ⟨c, hc, hb⟩

theorem getLast?_cut_iff {a c : List NodeId} {x : NodeId} (hn : (a ++ x :: c).Nodup) :
    (a ++ x :: c).getLast? = some x ↔ c = [] := by
  constructor
  · intro h
    by_contra hc
    obtain ⟨hx, _⟩ := List.nodup_cons.mp (List.nodup_append.mp hn).2.1
    rw [List.getLast?_append_of_ne_nil _ (by simp), List.getLast?_cons_of_ne_nil hc] at h
    exact hx (List.mem_of_getLast? h)
  · rintro rfl
    simp

theorem head?_cut_iff {c b : List NodeId} {x : NodeId} (hn : (c ++ x :: b).Nodup) :
    (c ++ x :: b).head? = some x ↔ c = [] := by
  constructor
  · intro h
    cases c with
    | nil => rfl
    | cons y c =>
      have hy : y = x := by simpa using h
      subst y
      exact absurd (by simp) (List.nodup_cons.mp hn).1
  · rintro rfl
    simp

@[simp] theorem first_linkNext (s : Strand) (id target : Option NodeId) :
    (s.linkNext id target).first = if id = none then target else s.first := by
  cases id <;> simp [linkNext]

@[simp] theorem last_linkNext (s : Strand) (id target : Option NodeId) :
    (s.linkNext id target).last = s.last := by
  cases id <;> rfl

@[simp] theorem leg_linkNext (s : Strand) (id target : Option NodeId) (x : NodeId) :
    (s.linkNext id target).leg x =
      (s.leg x).map fun p => if id = some x then { p with next := target } else p := by
  cases id with
  | none => simp [linkNext]
  | some a =>
    by_cases h : x = a
    · simp [linkNext, h]
    · simp [linkNext, h, Ne.symm h]

@[simp] theorem first_linkPrev (s : Strand) (id target : Option NodeId) :
    (s.linkPrev id target).first = s.first := by
  cases id <;> rfl

@[simp] theorem last_linkPrev (s : Strand) (id target : Option NodeId) :
    (s.linkPrev id target).last = if id = none then target else s.last := by
  cases id <;> simp [linkPrev]

@[simp] theorem leg_linkPrev (s : Strand) (id target : Option NodeId) (x : NodeId) :
    (s.linkPrev id target).leg x =
      (s.leg x).map fun p => if id = some x then { p with prev := target } else p := by
  cases id with
  | none => simp [linkPrev]
  | some a =>
    by_cases h : x = a
    · simp [linkPrev, h]
    · simp [linkPrev, h, Ne.symm h]

theorem place_none {id : NodeId} (h : s.leg id = none) : s.place id none = s := by
  ext x
  · rfl
  · rfl
  · by_cases hx : x = id <;> simp [place, hx, h]

/-- A node hooked in between two parts of a thread lies between them. -/
theorem Threads.insert {A B : List NodeId} {id : NodeId} (h : s.Threads w (A ++ B))
    (hid : id ∉ A ++ B) :
    ((s.hook id ⟨w, A.getLast?, B.head?⟩).place id (some ⟨w, A.getLast?, B.head?⟩)).Threads w
      (A ++ id :: B) := by
  obtain ⟨hA, hB, hAB⟩ := List.nodup_append.mp h.nodup
  have hn : (A ++ id :: B).Nodup := List.nodup_middle.mpr (List.nodup_cons.mpr ⟨hid, h.nodup⟩)
  refine ⟨hn, ?_, ?_, ?_, ?_⟩
  · cases A <;> simp [place, hook, h.first_eq]
  · cases B <;> simp [place, hook, h.last_eq, List.getLast?_cons]
  · intro a x b hl
    rcases cut_around hl with ⟨rfl, rfl, rfl⟩ | ⟨c, rfl, rfl⟩ | ⟨c, rfl, rfl⟩
    · simp [place]
    · have hx : x ≠ id := fun e => hid (by simp [e])
      have hb : B.head? ≠ some x := fun e => hAB x (by simp) x (List.mem_of_head? e) rfl
      have hleg := h.leg_eq a x (c ++ B) (by simp)
      simp only [place, hook, leg_linkPrev, leg_linkNext, hleg, hx, hb, getLast?_cut_iff hA]
      cases c <;> simp
    · have hx : x ≠ id := fun e => hid (by simp [e])
      have ha : A.getLast? ≠ some x := fun e => hAB x (List.mem_of_getLast? e) x (by simp) rfl
      have hleg := h.leg_eq (A ++ c) x b (by simp)
      simp only [place, hook, leg_linkPrev, leg_linkNext, hleg, hx, ha, head?_cut_iff hB]
      cases c <;> simp [List.getLast?_cons]
  · intro x hx
    simp only [List.mem_append, List.mem_cons, not_or] at hx
    have hoff := h.leg_off x (by simp [hx.1, hx.2.2])
    simp [place, hook, hx.2.1, hoff]

/-- Taking a node out of a thread leaves the parts around it. -/
theorem Threads.remove {A B : List NodeId} {id : NodeId} (h : s.Threads w (A ++ id :: B)) :
    ((s.place id none).unhook ⟨w, A.getLast?, B.head?⟩).Threads w (A ++ B) := by
  obtain ⟨hid, hn⟩ := List.nodup_cons.mp (List.nodup_middle.mp h.nodup)
  obtain ⟨hA, hB, hAB⟩ := List.nodup_append.mp hn
  refine ⟨hn, ?_, ?_, ?_, ?_⟩
  · cases A <;> simp [place, unhook, h.first_eq]
  · cases B <;> simp [place, unhook, h.last_eq, List.getLast?_cons]
  · intro a x b hl
    have hx : x ≠ id := fun e => hid (by simp [hl, e])
    rcases cut_append hl with ⟨c, rfl, rfl⟩ | ⟨c, rfl, rfl⟩
    · have hb : B.head? ≠ some x := fun e => hAB x (by simp) x (List.mem_of_head? e) rfl
      have hleg := h.leg_eq a x (c ++ id :: B) (by simp)
      simp only [place, unhook, leg_linkPrev, leg_linkNext, hleg, hx, hb, getLast?_cut_iff hA]
      cases c <;> simp
    · have ha : A.getLast? ≠ some x := fun e => hAB x (List.mem_of_getLast? e) x (by simp) rfl
      have hleg := h.leg_eq (A ++ id :: c) x b (by simp)
      simp only [place, unhook, leg_linkPrev, leg_linkNext, hleg, hx, ha, head?_cut_iff hB]
      cases c <;> simp [List.getLast?_cons]
  · intro x hx
    by_cases he : x = id
    · simp [place, unhook, he]
    · have hoff := h.leg_off x (by simpa [he] using hx)
      simp [place, unhook, he, hoff]

end Strand

end BasisFlow
