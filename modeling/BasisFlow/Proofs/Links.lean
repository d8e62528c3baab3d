import BasisFlow.Proofs.Strand

namespace BasisFlow

namespace Node

theorem leg?_wire {n : Node} {v : Wire} {p : Leg} (h : n.leg? v = some p) : p.wire = v := by
  simpa using List.find?_some h

theorem leg?_mem {n : Node} {v : Wire} {p : Leg} (h : n.leg? v = some p) : p ∈ n.legs :=
  List.mem_of_find?_eq_some h

theorem leg?_isSome_iff {n : Node} {v : Wire} : (n.leg? v).isSome ↔ v ∈ n.wires := by
  simp [leg?, wires, List.find?_isSome]

theorem leg?_eq_none_iff {n : Node} {v : Wire} : n.leg? v = none ↔ v ∉ n.wires := by
  rw [← leg?_isSome_iff, Option.not_isSome_iff_eq_none]

/-- On wires without repetition a leg is found by its wire. -/
theorem leg?_of_mem {n : Node} {p : Leg} (hn : n.wires.Nodup) (hp : p ∈ n.legs) :
    n.leg? p.wire = some p := by
  obtain ⟨q, hq⟩ := Option.isSome_iff_exists.mp
    (leg?_isSome_iff.mpr (List.mem_map_of_mem (f := fun r : Leg => r.wire) hp))
  have he := List.inj_on_of_nodup_map hn (leg?_mem hq) hp (leg?_wire hq)
  rw [hq, he]

section Relink

variable {w : Wire} {g : Leg → Leg}

/-- Changing the links of the leg on one wire. -/
theorem leg?_relink (hg : ∀ p, (g p).wire = p.wire) (n : Node) (v : Wire) :
    (n.legs.map fun p => if p.wire = w then g p else p).find? (·.wire = v) =
      if v = w then (n.leg? v).map g else n.leg? v := by
  have hf : ∀ p : Leg, (if p.wire = w then g p else p).wire = p.wire := by
    intro p
    split
    next => exact hg p
    next => rfl
  have hm : (n.legs.map fun p => if p.wire = w then g p else p).find? (·.wire = v) =
      (n.leg? v).map fun p => if p.wire = w then g p else p := by
    simp only [leg?, List.find?_map, Function.comp_def, hf]
  rw [hm]
  cases hp : n.leg? v with
  | none => simp
  | some p => by_cases h : v = w <;> simp [leg?_wire hp, h]

theorem map_relink {α : Type} {view : Leg → α} (hg : ∀ p, view (g p) = view p) (n : Node) :
    (n.legs.map fun p => if p.wire = w then g p else p).map view = n.legs.map view := by
  rw [List.map_map]
  apply List.map_congr_left
  intro p _
  by_cases h : p.wire = w
  · simp [h, hg]
  · simp [h]

end Relink

theorem leg?_setNext (n : Node) (w v : Wire) (target : Option NodeId) :
    (n.setNext w target).leg? v =
      if v = w then (n.leg? v).map fun p => { p with next := target } else n.leg? v :=
  leg?_relink (fun p => by rfl) n v

theorem leg?_setPrev (n : Node) (w v : Wire) (target : Option NodeId) :
    (n.setPrev w target).leg? v =
      if v = w then (n.leg? v).map fun p => { p with prev := target } else n.leg? v :=
  leg?_relink (fun p => by rfl) n v

theorem op_setNext (n : Node) (w : Wire) (target : Option NodeId) :
    (n.setNext w target).op = n.op :=
  congrArg (Operation.mk n.gate) (map_relink (fun p => by rfl) n)

theorem op_setPrev (n : Node) (w : Wire) (target : Option NodeId) :
    (n.setPrev w target).op = n.op :=
  congrArg (Operation.mk n.gate) (map_relink (fun p => by rfl) n)

end Node

namespace Circuit

/-- What a circuit stores about one wire. -/
def strand (c : Circuit) (w : Wire) : Strand :=
  ⟨c.first? w, c.last? w, fun id => (c.node? id).bind (·.leg? w)⟩

/-- The operation of a node. -/
def op? (c : Circuit) (id : NodeId) : Option Operation :=
  (c.node? id).map (·.op)

/-- Whether a node lies on a wire. -/
def onWire (c : Circuit) (w : Wire) (id : NodeId) : Bool :=
  (c.op? id).any fun op => w ∈ op.wires

theorem onWire_iff {c : Circuit} {w : Wire} {id : NodeId} :
    c.onWire w id ↔ ∃ n, c.node? id = some n ∧ w ∈ n.wires := by
  cases h : c.node? id with
  | none => simp [onWire, op?, h]
  | some n => simp [onWire, op?, h, Node.op]

theorem leg_isSome_iff {c : Circuit} {w : Wire} {id : NodeId} :
    ((c.strand w).leg id).isSome ↔ c.onWire w id := by
  rw [onWire_iff]
  cases h : c.node? id with
  | none => simp [strand, h]
  | some n => simp [strand, h, Node.leg?_isSome_iff]

/-- What links have no part in. -/
@[ext]
structure Frame where
  width : Nat
  capacity : Nat
  size : Nat
  op : NodeId → Option Operation

def frame (c : Circuit) : Frame :=
  ⟨c.width, c.slots.size, c.size, c.op?⟩

theorem node?_modifyNode (c : Circuit) (a x : NodeId) (f : Node → Node) :
    (c.modifyNode a f).node? x = if x = a then (c.node? x).map f else c.node? x := by
  by_cases h : x = a
  · subst x
    cases hs : c.slots[a]? with
    | none => simp [node?, modifyNode, Array.getElem?_modify, hs]
    | some n => simp [node?, modifyNode, Array.getElem?_modify, hs]
  · simp [node?, modifyNode, Array.getElem?_modify, h, Ne.symm h]

theorem frame_modifyNode {c : Circuit} {a : NodeId} {f : Node → Node}
    (hf : ∀ n, (f n).op = n.op) : (c.modifyNode a f).frame = c.frame := by
  have hop : (c.modifyNode a f).op? = c.op? := by
    funext x
    rw [op?, op?, node?_modifyNode]
    split
    next => cases c.node? x <;> simp [hf]
    next => rfl
  rw [frame, hop]
  simp [frame, width, modifyNode]

theorem frame_modifyRail (c : Circuit) (w : Wire) (f : Rail → Rail) :
    (c.modifyRail w f).frame = c.frame := by
  simp [frame, width, modifyRail]
  rfl

theorem frame_linkNext (c : Circuit) (id : Option NodeId) (w : Wire) (target : Option NodeId) :
    (c.linkNext id w target).frame = c.frame := by
  cases id with
  | none => exact frame_modifyRail c w _
  | some a => exact frame_modifyNode fun n => n.op_setNext w target

theorem frame_linkPrev (c : Circuit) (id : Option NodeId) (w : Wire) (target : Option NodeId) :
    (c.linkPrev id w target).frame = c.frame := by
  cases id with
  | none => exact frame_modifyRail c w _
  | some a => exact frame_modifyNode fun n => n.op_setPrev w target

/-- Changing the leg of a node on one wire changes what is stored about this wire. -/
theorem strand_modifyNode {f : Node → Node} {g : Leg → Leg} {w : Wire}
    (hf : ∀ n v, (f n).leg? v = if v = w then (n.leg? v).map g else n.leg? v)
    (c : Circuit) (a : NodeId) (v : Wire) :
    (c.modifyNode a f).strand v =
      if v = w then { c.strand v with leg := fun x =>
        if x = a then ((c.strand v).leg x).map g else (c.strand v).leg x }
      else c.strand v := by
  have hleg : ((c.modifyNode a f).strand v).leg = fun x =>
      if x = a ∧ v = w then ((c.strand v).leg x).map g else (c.strand v).leg x := by
    funext x
    change ((c.modifyNode a f).node? x).bind (·.leg? v) =
      if x = a ∧ v = w then ((c.node? x).bind (·.leg? v)).map g else (c.node? x).bind (·.leg? v)
    rw [node?_modifyNode]
    cases c.node? x with
    | none => simp
    | some n => by_cases hx : x = a <;> by_cases hv : v = w <;> simp [hx, hv, hf]
  have hs : (c.modifyNode a f).strand v =
      { c.strand v with leg := ((c.modifyNode a f).strand v).leg } := rfl
  rw [hs, hleg]
  by_cases hv : v = w <;> simp [hv]

theorem strand_modifyRail {c : Circuit} {w : Wire} {r : Rail} (hr : c.rails[w]? = some r)
    (f : Rail → Rail) (v : Wire) : (c.modifyRail w f).strand v =
      if v = w then { c.strand v with first := (f r).first, last := (f r).last }
      else c.strand v := by
  by_cases h : v = w
  · subst v
    simp [strand, modifyRail, first?, last?, node?, Array.getElem?_modify, hr]
  · simp [strand, modifyRail, first?, last?, node?, Array.getElem?_modify, h, Ne.symm h]

theorem rail_of_lt_width {c : Circuit} {w : Wire} (hw : w < c.width) :
    ∃ r, c.rails[w]? = some r :=
  ⟨_, Array.getElem?_eq_getElem hw⟩

theorem strand_linkNext {c : Circuit} {w : Wire} (hw : w < c.width)
    (id target : Option NodeId) (v : Wire) :
    (c.linkNext id w target).strand v =
      if v = w then (c.strand v).linkNext id target else c.strand v := by
  cases id with
  | none =>
    obtain ⟨r, hr⟩ := rail_of_lt_width hw
    rw [linkNext, strand_modifyRail hr]
    by_cases h : v = w
    · subst v
      simp [Strand.linkNext, strand, last?, hr]
    · simp [h]
  | some a => exact strand_modifyNode (fun n v => n.leg?_setNext w v target) c a v

theorem strand_linkPrev {c : Circuit} {w : Wire} (hw : w < c.width)
    (id target : Option NodeId) (v : Wire) :
    (c.linkPrev id w target).strand v =
      if v = w then (c.strand v).linkPrev id target else c.strand v := by
  cases id with
  | none =>
    obtain ⟨r, hr⟩ := rail_of_lt_width hw
    rw [linkPrev, strand_modifyRail hr]
    by_cases h : v = w
    · subst v
      simp [Strand.linkPrev, strand, first?, hr]
    · simp [h]
  | some a => exact strand_modifyNode (fun n v => n.leg?_setPrev w v target) c a v

theorem width_linkNext (c : Circuit) (id : Option NodeId) (w : Wire) (target : Option NodeId) :
    (c.linkNext id w target).width = c.width :=
  congrArg Frame.width (frame_linkNext c id w target)

theorem frame_hook (id : NodeId) (c : Circuit) (p : Leg) : (c.hook id p).frame = c.frame :=
  (frame_linkPrev _ _ _ _).trans (frame_linkNext _ _ _ _)

theorem frame_unhook (c : Circuit) (p : Leg) : (c.unhook p).frame = c.frame :=
  (frame_linkPrev _ _ _ _).trans (frame_linkNext _ _ _ _)

theorem strand_hook {c : Circuit} {p : Leg} (hw : p.wire < c.width) (id : NodeId) (v : Wire) :
    (c.hook id p).strand v = if v = p.wire then (c.strand v).hook id p else c.strand v := by
  rw [hook, strand_linkPrev (by simpa [width_linkNext] using hw), strand_linkNext hw]
  by_cases h : v = p.wire <;> simp [h, Strand.hook]

theorem strand_unhook {c : Circuit} {p : Leg} (hw : p.wire < c.width) (v : Wire) :
    (c.unhook p).strand v = if v = p.wire then (c.strand v).unhook p else c.strand v := by
  rw [unhook, strand_linkPrev (by simpa [width_linkNext] using hw), strand_linkNext hw]
  by_cases h : v = p.wire <;> simp [h, Strand.unhook]

section Fold

variable {f : Circuit → Leg → Circuit} {g : Strand → Leg → Strand}

theorem frame_foldl (hf : ∀ c p, (f c p).frame = c.frame) (legs : List Leg) (c : Circuit) :
    (legs.foldl f c).frame = c.frame := by
  induction legs generalizing c with
  | nil => rfl
  | cons p legs ih => exact (ih (f c p)).trans (hf c p)

/-- Steps that each change one wire of their own leave the other wires alone. -/
theorem strand_foldl_off (hf : ∀ c p, (f c p).frame = c.frame)
    (hg : ∀ c p v, p.wire < c.width →
      (f c p).strand v = if v = p.wire then g (c.strand v) p else c.strand v)
    {legs : List Leg} {c : Circuit} (hw : ∀ p ∈ legs, p.wire < c.width) {v : Wire}
    (hv : ∀ p ∈ legs, p.wire ≠ v) : (legs.foldl f c).strand v = c.strand v := by
  induction legs generalizing c with
  | nil => rfl
  | cons p legs ih =>
    have hwidth : (f c p).width = c.width := congrArg Frame.width (hf c p)
    have hne : v ≠ p.wire := Ne.symm (hv p (by simp))
    rw [List.foldl_cons, ih (fun q hq => by rw [hwidth]; exact hw q (by simp [hq]))
      (fun q hq => hv q (by simp [hq])), hg c p v (hw p (by simp)), if_neg hne]

/-- On the wire of one of its legs a fold of such steps takes just the step of this leg. -/
theorem strand_foldl_at (hf : ∀ c p, (f c p).frame = c.frame)
    (hg : ∀ c p v, p.wire < c.width →
      (f c p).strand v = if v = p.wire then g (c.strand v) p else c.strand v)
    {legs : List Leg} {c : Circuit} (hw : ∀ p ∈ legs, p.wire < c.width)
    (hn : (legs.map (·.wire)).Nodup) {p : Leg} (hp : p ∈ legs) :
    (legs.foldl f c).strand p.wire = g (c.strand p.wire) p := by
  induction legs generalizing c with
  | nil => simp at hp
  | cons q legs ih =>
    obtain ⟨hq, hn'⟩ := List.nodup_cons.mp hn
    have hwidth : (f c q).width = c.width := congrArg Frame.width (hf c q)
    have hw' : ∀ r ∈ legs, r.wire < (f c q).width := by
      intro r hr
      rw [hwidth]
      exact hw r (by simp [hr])
    rw [List.foldl_cons]
    rcases List.mem_cons.mp hp with rfl | hp
    · rw [strand_foldl_off hf hg hw' (fun r hr e => hq (List.mem_map.mpr ⟨r, hr, e⟩)),
        hg c p p.wire (hw p (by simp)), if_pos rfl]
    · have hne : p.wire ≠ q.wire := fun e => hq (List.mem_map.mpr ⟨p, hp, e⟩)
      rw [ih hw' hn' hp, hg c q p.wire (hw q (by simp)), if_neg hne]

end Fold

end Circuit

end BasisFlow
