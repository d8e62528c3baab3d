import BasisFlow.Proofs.Requests
import Mathlib.Logic.Relation

namespace BasisFlow

namespace Strand

variable {s : Strand} {w : Wire} {l : List NodeId}

/-- The next link leads from an entry of a thread to the one behind it. -/
theorem Threads.next_eq_some_iff (h : s.Threads w l) {x y : NodeId} :
    (s.leg x).bind (·.next) = some y ↔ ∃ a b, l = a ++ x :: y :: b := by
  constructor
  · intro hy
    obtain ⟨p, hp, _⟩ := Option.bind_eq_some_iff.mp hy
    have hx : x ∈ l := h.mem_iff.mpr (by simp [hp])
    obtain ⟨a, b, hl, hleg⟩ := h.leg_mem hx
    rw [hleg] at hy
    obtain ⟨b', rfl⟩ := List.head?_eq_some_iff.mp hy
    exact ⟨a, b', hl⟩
  · rintro ⟨a, b, hl⟩
    rw [h.leg_eq a x (y :: b) hl]
    rfl

theorem Threads.prev_eq_some_iff (h : s.Threads w l) {x y : NodeId} :
    (s.leg y).bind (·.prev) = some x ↔ ∃ a b, l = a ++ x :: y :: b := by
  constructor
  · intro hx
    obtain ⟨p, hp, _⟩ := Option.bind_eq_some_iff.mp hx
    have hy : y ∈ l := h.mem_iff.mpr (by simp [hp])
    obtain ⟨a, b, hl, hleg⟩ := h.leg_mem hy
    rw [hleg] at hx
    obtain ⟨a', rfl⟩ := List.getLast?_eq_some_iff.mp hx
    exact ⟨a', b, by simp [hl]⟩
  · rintro ⟨a, b, hl⟩
    rw [h.leg_eq (a ++ [x]) y b (by simp [hl])]
    simp

theorem Threads.next_eq_none_iff (h : s.Threads w l) {x : NodeId} (hx : x ∈ l) :
    (s.leg x).bind (·.next) = none ↔ s.last = some x := by
  obtain ⟨a, b, hl, hleg⟩ := h.leg_mem hx
  have hn : (a ++ x :: b).Nodup := hl ▸ h.nodup
  rw [hleg, h.last_eq, hl, getLast?_cut_iff hn]
  simp

theorem Threads.prev_eq_none_iff (h : s.Threads w l) {x : NodeId} (hx : x ∈ l) :
    (s.leg x).bind (·.prev) = none ↔ s.first = some x := by
  obtain ⟨a, b, hl, hleg⟩ := h.leg_mem hx
  have hn : (a ++ x :: b).Nodup := hl ▸ h.nodup
  rw [hleg, h.first_eq, hl, head?_cut_iff hn]
  simp

end Strand

namespace Circuit

/-- The node before `id` on a wire. -/
def prev? (c : Circuit) (id : NodeId) (w : Wire) : Option NodeId :=
  (c.node? id).bind fun n => (n.leg? w).bind (·.prev)

/-- The second node comes directly after the first on some wire. -/
def Precedes (c : Circuit) (a b : NodeId) : Prop :=
  ∃ w, c.next? a w = some b

/-- Going along a wire from a node on, link by link, up to the output. -/
inductive Walk (c : Circuit) (w : Wire) : Option NodeId → List NodeId → Prop
  | output : Walk c w none []
  | node {id : NodeId} {l : List NodeId} (rest : Walk c w (c.next? id w) l) :
      Walk c w (some id) (id :: l)

/-- The links, the ends and the counts of a circuit tell the same story. -/
structure Consistent (c : Circuit) : Prop where
  size_eq : c.size = c.ids.length
  wires_fit : ∀ id n, c.node? id = some n → n.wires.Nodup ∧ (∀ w ∈ n.wires, w < c.width) ∧
    n.wires.length = n.gate.arity ∧ n.prevs.length = n.gate.arity ∧ n.nexts.length = n.gate.arity
  next_iff : ∀ w a b, c.onWire w a →
    (c.next? a w = some b ↔ c.onWire w b ∧ c.prev? b w = some a)
  prev_none_iff : ∀ w a, c.onWire w a → (c.prev? a w = none ↔ c.first? w = some a)
  next_none_iff : ∀ w a, c.onWire w a → (c.next? a w = none ↔ c.last? w = some a)
  first_none_iff : ∀ w, c.first? w = none ↔ ∀ id, ¬ c.onWire w id
  last_none_iff : ∀ w, c.last? w = none ↔ ∀ id, ¬ c.onWire w id
  acyclic : ∀ a, ¬ Relation.TransGen c.Precedes a a
  walk : ∀ w, c.Walk w (c.first? w) (c.lane w)
  lane_nodup : ∀ w, (c.lane w).Nodup
  mem_lane_iff : ∀ w id, id ∈ c.lane w ↔ c.onWire w id

theorem prev?_eq_leg (c : Circuit) (id : NodeId) (w : Wire) :
    c.prev? id w = ((c.strand w).leg id).bind (·.prev) := by
  cases h : c.node? id <;> simp [prev?, strand, h]

theorem Linked.next?_iff {c : Circuit} {L : List NodeId} (h : c.Linked L) {w : Wire}
    {a b : NodeId} : c.next? a w = some b ↔ c.prev? b w = some a := by
  rw [next?_eq_leg, prev?_eq_leg, (h.threads w).next_eq_some_iff, (h.threads w).prev_eq_some_iff]

theorem Linked.mem_filter_iff {c : Circuit} {L : List NodeId} (h : c.Linked L) {w : Wire}
    {id : NodeId} : id ∈ L.filter (c.onWire w) ↔ c.onWire w id := by
  rw [(h.threads w).mem_iff, leg_isSome_iff]

theorem Linked.onWire_of_next? {c : Circuit} {L : List NodeId} (h : c.Linked L) {w : Wire}
    {a b : NodeId} (hn : c.next? a w = some b) : c.onWire w b := by
  rw [next?_eq_leg, (h.threads w).next_eq_some_iff] at hn
  obtain ⟨u, v, hl⟩ := hn
  exact h.mem_filter_iff.mp (by rw [hl]; simp)

theorem Linked.mem_before_iff_precedes {c : Circuit} {L : List NodeId} (h : c.Linked L)
    {a b : NodeId} : a ∈ c.before b ↔ c.Precedes a b := by
  constructor
  · intro ha
    obtain ⟨n, hn, q, hq, hqa⟩ := mem_before_iff.mp ha
    refine ⟨q.wire, h.next?_iff.mpr ?_⟩
    simp [prev?, hn, Node.leg?_of_mem (h.fits b n hn).nodup hq, hqa]
  · rintro ⟨w, hw⟩
    rw [h.next?_iff] at hw
    obtain ⟨n, hn, hq⟩ := Option.bind_eq_some_iff.mp hw
    obtain ⟨q, hq, hqa⟩ := Option.bind_eq_some_iff.mp hq
    exact mem_before_iff.mpr ⟨n, hn, q, Node.leg?_mem hq, hqa⟩

/-- Every link leads forward in the order. -/
theorem Linked.idxOf_lt {c : Circuit} {L : List NodeId} (h : c.Linked L) {a b : NodeId}
    (hp : c.Precedes a b) : L.idxOf a < L.idxOf b := by
  have hbefore := h.mem_before_iff_precedes.mpr hp
  obtain ⟨n, hn, _⟩ := mem_before_iff.mp hbefore
  obtain ⟨d, e, rfl⟩ := List.append_of_mem ((h.mem_iff b).mpr (by simp [hn]))
  have ha : a ∈ d := h.isTopological.after d b e rfl a hbefore
  have hbd : b ∉ d := fun hm => (List.nodup_append.mp h.nodup).2.2 b hm b (by simp) rfl
  rw [List.idxOf_append_of_mem ha, List.idxOf_append_of_notMem hbd, List.idxOf_cons_self]
  have := List.idxOf_lt_length_of_mem ha
  omega

theorem Linked.acyclic {c : Circuit} {L : List NodeId} (h : c.Linked L) (a : NodeId) :
    ¬ Relation.TransGen c.Precedes a a := by
  have hlt : ∀ x y, Relation.TransGen c.Precedes x y → L.idxOf x < L.idxOf y := by
    intro x y hxy
    induction hxy with
    | single hs => exact h.idxOf_lt hs
    | tail _ hs ih => exact Nat.lt_trans ih (h.idxOf_lt hs)
  exact fun ha => Nat.lt_irrefl _ (hlt a a ha)

theorem walk_of_threads {c : Circuit} {w : Wire} {a l : List NodeId}
    (h : (c.strand w).Threads w (a ++ l)) : c.Walk w l.head? l := by
  induction l generalizing a with
  | nil => exact .output
  | cons x l ih =>
    have hnext : c.next? x w = l.head? := by
      rw [next?_eq_leg, h.leg_eq a x l rfl]
      rfl
    exact .node (hnext ▸ ih (a := a ++ [x]) (by simpa using h))

theorem Linked.consistent {c : Circuit} {L : List NodeId} (h : c.Linked L) : c.Consistent := by
  have hfirst : ∀ w, c.first? w = (L.filter (c.onWire w)).head? := fun w => (h.threads w).first_eq
  have hlast : ∀ w, c.last? w = (L.filter (c.onWire w)).getLast? := fun w => (h.threads w).last_eq
  have hempty : ∀ w, L.filter (c.onWire w) = [] ↔ ∀ id, ¬ c.onWire w id := by
    intro w
    rw [List.eq_nil_iff_forall_not_mem]
    exact forall_congr' fun id => not_congr h.mem_filter_iff
  refine ⟨?_, ?_, ?_, ?_, ?_, ?_, ?_, h.acyclic, ?_, ?_, ?_⟩
  · rw [h.size_eq, h.perm_ids.length_eq]
  · intro id n hn
    have hfits := h.fits id n hn
    have hlen : n.legs.length = n.gate.arity := by simpa [Node.op, Node.wires] using hfits.arity_eq
    exact ⟨hfits.nodup, hfits.lt_width, by simp [Node.wires, hlen], by simp [Node.prevs, hlen],
      by simp [Node.nexts, hlen]⟩
  · intro w a b _
    rw [h.next?_iff]
    exact ⟨fun hp => ⟨h.onWire_of_next? (h.next?_iff.mpr hp), hp⟩, fun hp => hp.2⟩
  · intro w a ha
    rw [prev?_eq_leg]
    exact (h.threads w).prev_eq_none_iff (h.mem_filter_iff.mpr ha)
  · intro w a ha
    rw [next?_eq_leg]
    exact (h.threads w).next_eq_none_iff (h.mem_filter_iff.mpr ha)
  · intro w
    rw [hfirst, List.head?_eq_none_iff, hempty]
  · intro w
    rw [hlast, List.getLast?_eq_none_iff, hempty]
  · intro w
    rw [h.lane_eq, hfirst]
    exact walk_of_threads (a := []) (h.threads w)
  · intro w
    rw [h.lane_eq]
    exact (h.threads w).nodup
  · intro w id
    rw [h.lane_eq]
    exact h.mem_filter_iff

end Circuit

end BasisFlow
