import BasisFlow.Proofs.Links

namespace BasisFlow

/-- An operation that a circuit of `width` wires can hold. -/
structure Operation.Fits (op : Operation) (width : Nat) : Prop where
  arity_eq : op.wires.length = op.gate.arity
  nodup : op.wires.Nodup
  lt_width : ∀ w ∈ op.wires, w < width

theorem firstRepeated_eq_none {seen ws : List Wire} (h : firstRepeated seen ws = none) :
    ws.Nodup ∧ ∀ w ∈ ws, w ∉ seen := by
  induction ws generalizing seen with
  | nil => simp
  | cons w ws ih =>
    simp only [firstRepeated] at h
    split at h
    next => simp at h
    next hw =>
      obtain ⟨hn, hs⟩ := ih h
      refine ⟨List.nodup_cons.mpr ⟨fun hm => hs w hm (by simp), hn⟩, ?_⟩
      intro v hv
      rcases List.mem_cons.mp hv with rfl | hv
      · exact hw
      · exact fun hm => hs v hv (by simp [hm])

theorem firstRepeated_of_nodup {seen ws : List Wire} (hn : ws.Nodup) (h : ∀ w ∈ ws, w ∉ seen) :
    firstRepeated seen ws = none := by
  induction ws generalizing seen with
  | nil => rfl
  | cons w ws ih =>
    obtain ⟨hw, hn⟩ := List.nodup_cons.mp hn
    rw [firstRepeated, if_neg (h w (by simp))]
    apply ih hn
    intro v hv hm
    rcases List.mem_cons.mp hm with rfl | hm
    · exact hw hv
    · exact h v (by simp [hv]) hm

theorem Operation.fits_of_check {op : Operation} {width : Nat}
    (h : op.check width = .ok ()) : op.Fits width := by
  unfold check Gate.countedArity Word.fitCount at h
  split at h
  next =>
    simp only [Except.mapError, bind, Except.bind] at h
    split at h
    next => simp at h
    next hlen =>
      cases hr : op.wires.find? (width ≤ ·) with
      | some w => simp [hr] at h
      | none =>
        cases hd : firstRepeated [] op.wires with
        | some w => simp [hr, hd] at h
        | none =>
          refine ⟨(not_not.mp hlen).symm, (firstRepeated_eq_none hd).1, ?_⟩
          intro w hw
          simpa using List.find?_eq_none.mp hr w hw
  next => simp [Except.mapError, bind, Except.bind] at h

theorem Operation.Fits.length_le {op : Operation} {n : Nat} (h : op.Fits n) :
    op.wires.length ≤ n := by
  have hsub : op.wires ⊆ List.range n := fun w hw => List.mem_range.mpr (h.lt_width w hw)
  simpa using h.nodup.length_le_of_subset hsub

theorem Operation.counted_of_check {op : Operation} {width : Nat}
    (h : op.check width = .ok ()) : op.gate.countedArity = .ok op.gate.arity := by
  unfold check Gate.countedArity Word.fitCount at h
  split at h
  next hlt => exact if_pos hlt
  next => simp [Except.mapError, bind, Except.bind] at h

theorem Operation.Fits.check_of_counted {op : Operation} {width : Nat} (h : op.Fits width)
    (hc : op.gate.countedArity = .ok op.gate.arity) : op.check width = .ok () := by
  have hrange : op.wires.find? (width ≤ ·) = none := by
    apply List.find?_eq_none.mpr
    intro w hw
    simpa using h.lt_width w hw
  have hrep : firstRepeated [] op.wires = none := firstRepeated_of_nodup h.nodup (by simp)
  simp only [check, hc, Except.mapError, bind, Except.bind, h.arity_eq, ne_eq,
    not_true_eq_false, ↓reduceIte, hrange, hrep]

namespace Circuit

/-- The nodes `L`, each once, are the nodes of a circuit, and on every wire the links of its nodes
follow their order in `L`. -/
structure Linked (c : Circuit) (L : List NodeId) : Prop where
  nodup : L.Nodup
  mem_iff : ∀ id, id ∈ L ↔ (c.node? id).isSome
  size_eq : c.size = L.length
  fits : ∀ id n, c.node? id = some n → n.op.Fits c.width
  threads : ∀ w, (c.strand w).Threads w (L.filter (c.onWire w))

/-- The leg has its neighbours in the nodes `A` before and in the nodes `B` behind it. -/
def Between (c : Circuit) (A B : List NodeId) (p : Leg) : Prop :=
  p.prev = (A.filter (c.onWire p.wire)).getLast? ∧ p.next = (B.filter (c.onWire p.wire)).head?

theorem empty_linked (width : Nat) : (empty width).Linked [] := by
  have hnode : ∀ id, (empty width).node? id = none := by simp [empty, node?]
  refine ⟨List.nodup_nil, by simp [hnode], rfl, by simp [hnode], ?_⟩
  intro w
  refine ⟨List.nodup_nil, ?_, ?_, by simp, by simp [strand, hnode]⟩
  · by_cases h : w < width <;> simp [strand, first?, empty, h]
  · by_cases h : w < width <;> simp [strand, last?, empty, h]

theorem node?_eq_none_of_le {c : Circuit} {id : NodeId} (h : c.slots.size ≤ id) :
    c.node? id = none := by
  simp [node?, Array.getElem?_eq_none h]

theorem Linked.lt_size {c : Circuit} {L : List NodeId} (h : c.Linked L) {id : NodeId}
    (hid : id ∈ L) : id < c.slots.size := by
  by_contra hn
  have hs := (h.mem_iff id).mp hid
  rw [node?_eq_none_of_le (Nat.le_of_not_lt hn)] at hs
  simp at hs

theorem op?_isSome {c : Circuit} {id : NodeId} : (c.op? id).isSome = (c.node? id).isSome := by
  simp [op?]

theorem Linked.mem_iff_op {c : Circuit} {L : List NodeId} (h : c.Linked L) (id : NodeId) :
    id ∈ L ↔ (c.op? id).isSome := by
  rw [op?_isSome, h.mem_iff]

theorem Linked.op_fits {c : Circuit} {L : List NodeId} (h : c.Linked L) {id : NodeId}
    {op : Operation} (ho : c.op? id = some op) : op.Fits c.width := by
  obtain ⟨n, hn, rfl⟩ := Option.map_eq_some_iff.mp ho
  exact h.fits id n hn

theorem onWire_congr {c d : Circuit} {id : NodeId} (h : c.op? id = d.op? id) (w : Wire) :
    c.onWire w id = d.onWire w id := by
  simp [onWire, h]

theorem filter_onWire_congr {c d : Circuit} {L : List NodeId}
    (h : ∀ id ∈ L, c.op? id = d.op? id) (w : Wire) :
    L.filter (c.onWire w) = L.filter (d.onWire w) :=
  List.filter_congr fun id hid => onWire_congr (h id hid) w

theorem Between.congr {c d : Circuit} {A B : List NodeId} {p : Leg}
    (h : ∀ id ∈ A ++ B, c.op? id = d.op? id) (hp : c.Between A B p) : d.Between A B p := by
  have hA := filter_onWire_congr (fun id hid => h id (List.mem_append_left B hid)) p.wire
  have hB := filter_onWire_congr (fun id hid => h id (List.mem_append_right A hid)) p.wire
  exact ⟨hp.1.trans (congrArg _ hA), hp.2.trans (congrArg _ hB)⟩

theorem Between.eq_leg {c : Circuit} {A B : List NodeId} {p : Leg} (hp : c.Between A B p) :
    p = ⟨p.wire, (A.filter (c.onWire p.wire)).getLast?, (B.filter (c.onWire p.wire)).head?⟩ := by
  rw [← hp.1, ← hp.2]

section Insert

variable {c : Circuit} {n : Node}

theorem frame_hooked (c : Circuit) (n : Node) :
    (n.legs.foldl (hook c.slots.size) c).frame = c.frame :=
  frame_foldl (frame_hook c.slots.size) n.legs c

theorem node?_insert (c : Circuit) (n : Node) (x : NodeId) :
    (c.insert n).node? x =
      if x = c.slots.size then some n else (n.legs.foldl (hook c.slots.size) c).node? x := by
  have hs : (n.legs.foldl (hook c.slots.size) c).slots.size = c.slots.size :=
    congrArg Frame.capacity (frame_hooked c n)
  by_cases h : x = c.slots.size
  · subst x
    have hp : ((n.legs.foldl (hook c.slots.size) c).slots.push (some n))[
        (n.legs.foldl (hook c.slots.size) c).slots.size]? = some (some n) := Array.getElem?_push_size
    rw [hs] at hp
    simp only [node?, insert, hp, if_pos]
    rfl
  · simp [node?, insert, Array.getElem?_push, hs, h]

theorem op?_insert (c : Circuit) (n : Node) (x : NodeId) :
    (c.insert n).op? x = if x = c.slots.size then some n.op else c.op? x := by
  have ho : (n.legs.foldl (hook c.slots.size) c).op? = c.op? :=
    congrArg Frame.op (frame_hooked c n)
  rw [op?, node?_insert, ← ho]
  split <;> rfl

theorem width_insert (c : Circuit) (n : Node) : (c.insert n).width = c.width :=
  congrArg Frame.width (frame_hooked c n)

theorem slots_size_insert (c : Circuit) (n : Node) :
    (c.insert n).slots.size = c.slots.size + 1 := by
  have hs : (n.legs.foldl (hook c.slots.size) c).slots.size = c.slots.size :=
    congrArg Frame.capacity (frame_hooked c n)
  simp [insert, hs]

theorem size_insert (c : Circuit) (n : Node) : (c.insert n).size = c.size + 1 :=
  congrArg (fun f => Frame.size f + 1) (frame_hooked c n)

theorem strand_insert (c : Circuit) (n : Node) (v : Wire) :
    (c.insert n).strand v =
      ((n.legs.foldl (hook c.slots.size) c).strand v).place c.slots.size (n.leg? v) := by
  have hleg : ((c.insert n).strand v).leg = fun x => if x = c.slots.size then n.leg? v
      else ((n.legs.foldl (hook c.slots.size) c).strand v).leg x := by
    funext x
    change ((c.insert n).node? x).bind (·.leg? v) = _
    rw [node?_insert]
    split <;> rfl
  rw [Strand.place, ← hleg]
  rfl

end Insert

/-- A node put between its neighbours comes between them in the order. -/
theorem Linked.insert {c : Circuit} {n : Node} {A B : List NodeId} (h : c.Linked (A ++ B))
    (hn : n.op.Fits c.width) (hlegs : ∀ p ∈ n.legs, c.Between A B p) :
    (c.insert n).Linked (A ++ c.slots.size :: B) := by
  have hfresh : c.slots.size ∉ A ++ B := fun hm => Nat.lt_irrefl _ (h.lt_size hm)
  have hsame : ∀ id ∈ A ++ B, c.op? id = (c.insert n).op? id := by
    intro id hid
    rw [op?_insert, if_neg (Nat.ne_of_lt (h.lt_size hid))]
  refine ⟨List.nodup_middle.mpr (List.nodup_cons.mpr ⟨hfresh, h.nodup⟩), ?_, ?_, ?_, ?_⟩
  · intro id
    rw [← op?_isSome, op?_insert]
    by_cases he : id = c.slots.size
    · simp [he]
    · simpa [he] using h.mem_iff_op id
  · rw [size_insert, h.size_eq]
    simp only [List.length_append, List.length_cons]
    omega
  · intro id m hm
    rw [width_insert]
    have hop : (c.insert n).op? id = some m.op := by simp [op?, hm]
    rw [op?_insert] at hop
    split at hop
    next => exact Option.some.inj hop ▸ hn
    next => exact h.op_fits hop
  · intro w
    have hA := filter_onWire_congr (fun id hid => hsame id (List.mem_append_left B hid)) w
    have hB := filter_onWire_congr (fun id hid => hsame id (List.mem_append_right A hid)) w
    have hthread := h.threads w
    rw [List.filter_append] at hthread
    have hwidth : ∀ p ∈ n.legs, p.wire < c.width := fun p hp =>
      hn.lt_width p.wire (List.mem_map_of_mem hp)
    have honw : (c.insert n).onWire w c.slots.size = decide (w ∈ n.wires) := by
      simp [onWire, op?_insert, Node.op]
    rw [List.filter_append, List.filter_cons, honw, ← hA, ← hB, strand_insert]
    by_cases hw : w ∈ n.wires
    · obtain ⟨p, hp, rfl⟩ := List.mem_map.mp hw
      have hfold := strand_foldl_at (frame_hook c.slots.size)
        (fun d q v hq => strand_hook hq c.slots.size v) hwidth hn.nodup hp
      have hnew : c.slots.size ∉ A.filter (c.onWire p.wire) ++ B.filter (c.onWire p.wire) := by
        rw [← List.filter_append]
        exact fun hm => hfresh (List.mem_of_mem_filter hm)
      have hins := hthread.insert hnew
      rw [← (hlegs p hp).eq_leg] at hins
      rw [hfold, Node.leg?_of_mem hn.nodup hp]
      simpa [hw] using hins
    · have hfold := strand_foldl_off (frame_hook c.slots.size)
        (fun d q v hq => strand_hook hq c.slots.size v) hwidth
        (fun p hp e => hw (List.mem_map.mpr ⟨p, hp, e⟩))
      have hnone : (c.strand w).leg c.slots.size = none := by
        simp [strand, node?_eq_none_of_le (Nat.le_refl c.slots.size)]
      rw [hfold, Node.leg?_eq_none_iff.mpr hw, Strand.place_none hnone]
      simpa [hw] using hthread

end Circuit

end BasisFlow
