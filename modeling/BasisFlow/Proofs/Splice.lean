import BasisFlow.Proofs.Arrangement
import Mathlib.Data.List.Induction

namespace BasisFlow

namespace Fragment

/-- A fragment is put together gate by gate, each of them checked against its width. -/
inductive Built : Fragment → Prop
  | empty (width : Nat) : Built (Fragment.empty width)
  | push {f g : Fragment} {op : Operation} (built : Built f) (h : f.push op = .ok g) : Built g

/-- All operations of a fragment fit its width. -/
def Fits (f : Fragment) : Prop :=
  ∀ op ∈ f.ops, op.Fits f.width

theorem push_eq_ok {f g : Fragment} {op : Operation} (h : f.push op = .ok g) :
    op.check f.width = .ok () ∧ g = { f with ops := f.ops ++ [op] } := by
  unfold push at h
  cases hc : op.check f.width with
  | error e => simp [hc, bind, Except.bind] at h
  | ok u =>
    simp only [hc, bind, Except.bind, pure, Except.pure, Except.ok.injEq] at h
    exact ⟨rfl, h.symm⟩

theorem Built.check {f : Fragment} (h : f.Built) : ∀ op ∈ f.ops, op.check f.width = .ok () := by
  induction h with
  | empty width => simp [Fragment.empty]
  | @push f g op _ hp ih =>
    obtain ⟨hc, rfl⟩ := push_eq_ok hp
    intro o ho
    rcases List.mem_append.mp ho with ho | ho
    · exact ih o ho
    · rw [List.mem_singleton.mp ho]
      exact hc

theorem built_iff {f : Fragment} : f.Built ↔ ∀ op ∈ f.ops, op.check f.width = .ok () := by
  refine ⟨Built.check, ?_⟩
  obtain ⟨width, ops⟩ := f
  intro h
  induction ops using List.reverseRecOn with
  | nil => exact .empty width
  | append_singleton ops op ih =>
    have hpush : (Fragment.mk width ops).push op = .ok ⟨width, ops ++ [op]⟩ := by
      rw [push, h op (by simp)]
      rfl
    exact .push (ih fun o ho => h o (by simp [ho])) hpush

theorem Built.fits {f : Fragment} (h : f.Built) : f.Fits :=
  fun op hop => Operation.fits_of_check (h.check op hop)

end Fragment

theorem Operation.Fits.getElem? {op : Operation} {ws : List Wire} (h : op.Fits ws.length)
    {k : Nat} (hk : k ∈ op.wires) : ws[k]? = some (ws.getD k 0) := by
  simp [List.getD_eq_getElem?_getD, List.getElem?_eq_getElem (h.lt_width k hk)]

/-- Renaming local wires along a list of distinct wires. -/
theorem Operation.Fits.onto {op : Operation} {ws : List Wire} (h : op.Fits ws.length)
    (hn : ws.Nodup) :
    (op.onto ws).wires.length = op.gate.arity ∧ (op.onto ws).wires.Nodup ∧
      ∀ w ∈ (op.onto ws).wires, w ∈ ws := by
  refine ⟨by simp [Operation.onto, h.arity_eq], ?_, ?_⟩
  · apply List.Nodup.map_on _ h.nodup
    intro j hj k hk he
    have hjk : ws[j]? = ws[k]? := by rw [h.getElem? hj, h.getElem? hk, he]
    exact (List.getElem?_inj (h.lt_width j hj) hn).mp hjk
  · intro w hw
    obtain ⟨k, hk, rfl⟩ := List.mem_map.mp hw
    exact List.mem_of_getElem? (h.getElem? hk)

namespace Circuit

/-- The circuit without a node, before its neighbours are told. -/
def vacate (c : Circuit) (id : NodeId) : Circuit :=
  { c with slots := c.slots.setIfInBounds id none, size := c.size - 1 }

theorem remove_eq_ok {c c' : Circuit} {id : NodeId} {n : Node} (h : c.remove id = .ok (n, c')) :
    c.node? id = some n ∧ c' = n.legs.foldl unhook (c.vacate id) := by
  unfold remove at h
  cases hn : c.node? id with
  | none => simp [hn] at h
  | some m =>
    simp only [hn, Except.ok.injEq, Prod.mk.injEq] at h
    obtain ⟨rfl, rfl⟩ := h
    exact ⟨rfl, rfl⟩

theorem node?_vacate (c : Circuit) (id x : NodeId) :
    (c.vacate id).node? x = if x = id then none else c.node? x := by
  by_cases h : x = id
  · subst x
    by_cases hs : id < c.slots.size
    · simp [node?, vacate, hs]
    · simp [node?, vacate, hs]
  · simp [node?, vacate, h, Ne.symm h]

theorem strand_vacate (c : Circuit) (id : NodeId) (v : Wire) :
    (c.vacate id).strand v = (c.strand v).place id none := by
  have hleg : ((c.vacate id).strand v).leg =
      fun x => if x = id then none else (c.strand v).leg x := by
    funext x
    change ((c.vacate id).node? x).bind (·.leg? v) = _
    rw [node?_vacate]
    split <;> rfl
  rw [Strand.place, ← hleg]
  rfl

theorem op?_vacate (c : Circuit) (id x : NodeId) :
    (c.vacate id).op? x = if x = id then none else c.op? x := by
  rw [op?, node?_vacate]
  split <;> rfl

theorem frame_removed (c : Circuit) (id : NodeId) (n : Node) :
    (n.legs.foldl unhook (c.vacate id)).frame = (c.vacate id).frame :=
  frame_foldl frame_unhook n.legs (c.vacate id)

theorem op?_remove {c c' : Circuit} {id : NodeId} {n : Node} (h : c.remove id = .ok (n, c'))
    (x : NodeId) : c'.op? x = if x = id then none else c.op? x := by
  obtain ⟨_, rfl⟩ := remove_eq_ok h
  rw [← op?_vacate]
  exact congrFun (congrArg Frame.op (frame_removed c id n)) x

theorem width_remove {c c' : Circuit} {id : NodeId} {n : Node} (h : c.remove id = .ok (n, c')) :
    c'.width = c.width := by
  obtain ⟨_, rfl⟩ := remove_eq_ok h
  exact congrArg Frame.width (frame_removed c id n)

/-- The legs of a node name its neighbours in the order. -/
theorem Linked.between {c : Circuit} {A B : List NodeId} {id : NodeId} {n : Node}
    (h : c.Linked (A ++ id :: B)) (hn : c.node? id = some n) {p : Leg} (hp : p ∈ n.legs) :
    c.Between A B p := by
  have hon : c.onWire p.wire id := onWire_iff.mpr ⟨n, hn, List.mem_map_of_mem hp⟩
  have hthread := h.threads p.wire
  rw [List.filter_append, List.filter_cons, if_pos hon] at hthread
  have hleg := hthread.leg_eq _ id _ rfl
  have hfind := Node.leg?_of_mem (h.fits id n hn).nodup hp
  simp only [strand, hn, Option.bind_some, hfind, Option.some.injEq] at hleg
  exact ⟨congrArg Leg.prev hleg, congrArg Leg.next hleg⟩

/-- Taking out a node takes it out of the order. -/
theorem Linked.remove {c c' : Circuit} {A B : List NodeId} {id : NodeId} {n : Node}
    (h : c.Linked (A ++ id :: B)) (hr : c.remove id = .ok (n, c')) : c'.Linked (A ++ B) := by
  obtain ⟨hn, hc'⟩ := remove_eq_ok hr
  obtain ⟨hid, hnodup⟩ := List.nodup_cons.mp (List.nodup_middle.mp h.nodup)
  have hsame : ∀ x ∈ A ++ B, c.op? x = c'.op? x := by
    intro x hx
    rw [op?_remove hr, if_neg]
    rintro rfl
    exact hid hx
  refine ⟨hnodup, ?_, ?_, ?_, ?_⟩
  · intro x
    rw [← op?_isSome, op?_remove hr]
    by_cases he : x = id
    · simpa [he] using hid
    · simpa [he] using h.mem_iff_op x
  · have hsize : c'.size = c.size - 1 := by
      rw [hc']
      exact congrArg Frame.size (frame_removed c id n)
    rw [hsize, h.size_eq]
    simp only [List.length_append, List.length_cons]
    omega
  · intro x m hm
    rw [width_remove hr]
    have hop : c'.op? x = some m.op := by simp [op?, hm]
    rw [op?_remove hr] at hop
    split at hop
    next => simp at hop
    next => exact h.op_fits hop
  · intro w
    have hA := filter_onWire_congr (fun x hx => hsame x (List.mem_append_left B hx)) w
    have hB := filter_onWire_congr (fun x hx => hsame x (List.mem_append_right A hx)) w
    have hthread := h.threads w
    have hfits := h.fits id n hn
    have hwidth : ∀ p ∈ n.legs, p.wire < (c.vacate id).width := fun p hp =>
      hfits.lt_width p.wire (List.mem_map_of_mem hp)
    rw [List.filter_append, ← hA, ← hB, hc']
    rw [List.filter_append, List.filter_cons] at hthread
    by_cases hw : w ∈ n.wires
    · obtain ⟨p, hp, rfl⟩ := List.mem_map.mp hw
      have hfold := strand_foldl_at frame_unhook
        (fun d q v hq => strand_unhook hq v) hwidth hfits.nodup hp
      rw [if_pos (onWire_iff.mpr ⟨n, hn, hw⟩)] at hthread
      have hrem := hthread.remove
      rw [← (h.between hn hp).eq_leg] at hrem
      rw [hfold, strand_vacate]
      exact hrem
    · have hoff : c.onWire w id = false := by simp [onWire, op?, hn, Node.op, hw]
      have hfold := strand_foldl_off frame_unhook (fun d q v hq => strand_unhook hq v) hwidth
        (fun p hp e => hw (List.mem_map.mpr ⟨p, hp, e⟩))
      have hnone : (c.strand w).leg id = none := by
        simp [strand, hn, Node.leg?_eq_none_iff.mpr hw]
      rw [hfold, strand_vacate, Strand.place_none hnone]
      simpa [hoff] using hthread

theorem append_eq_ok {c c' : Circuit} {op : Operation} {id : NodeId}
    (h : c.append op = .ok (id, c')) :
    op.check c.width = .ok () ∧ id = c.slots.size ∧
      c' = c.insert ⟨op.gate, op.wires.map fun w => ⟨w, c.last? w, none⟩⟩ := by
  unfold append at h
  cases hc : op.check c.width with
  | error e => simp [hc, bind, Except.bind] at h
  | ok u =>
    simp only [hc, bind, Except.bind, pure, Except.pure, Except.ok.injEq, Prod.mk.injEq] at h
    exact ⟨rfl, h.1.symm, h.2.symm⟩

/-- A node added at the end of its wires comes last in the order. -/
theorem Linked.append {c c' : Circuit} {op : Operation} {id : NodeId} {L : List NodeId}
    (h : c.Linked L) (ha : c.append op = .ok (id, c')) :
    c'.Linked (L ++ [id]) ∧ (∀ x, c'.op? x = if x = id then some op else c.op? x) ∧
      id = c.slots.size ∧ c'.width = c.width := by
  obtain ⟨hc, rfl, rfl⟩ := append_eq_ok ha
  have hop : (Node.mk op.gate (op.wires.map fun w => ⟨w, c.last? w, none⟩)).op = op := by
    simp [Node.op, Node.wires, Function.comp_def]
  refine ⟨?_, ?_, rfl, width_insert c _⟩
  · apply Linked.insert (by simpa using h) (by rw [hop]; exact Operation.fits_of_check hc)
    intro p hp
    obtain ⟨w, _, rfl⟩ := List.mem_map.mp hp
    exact ⟨(h.threads w).last_eq, rfl⟩
  · intro x
    rw [op?_insert, hop]

section Fill

variable {gap : List Leg}

theorem legsIn_mem {ws : List Wire} {p : Leg} (h : p ∈ legsIn gap ws) : p ∈ gap := by
  obtain ⟨w, _, hw⟩ := List.mem_filterMap.mp h
  exact List.mem_of_find?_eq_some hw

theorem wires_legsIn {ws : List Wire} (h : ∀ w ∈ ws, w ∈ gap.map (·.wire)) :
    (legsIn gap ws).map (·.wire) = ws := by
  induction ws with
  | nil => rfl
  | cons w ws ih =>
    obtain ⟨p, hp, hpw⟩ := List.mem_map.mp (h w (by simp))
    obtain ⟨q, hq⟩ := Option.isSome_iff_exists.mp
      (List.find?_isSome.mpr ⟨p, hp, by simpa using hpw⟩ :
        (gap.find? (·.wire = w)).isSome)
    have hqw : q.wire = w := by simpa using List.find?_some hq
    have hrest := ih fun v hv => h v (by simp [hv])
    simp only [legsIn] at hrest
    simp [legsIn, hq, hqw, hrest]

theorem wires_narrow (ws : List Wire) (id : NodeId) :
    (narrow gap ws id).map (·.wire) = gap.map (·.wire) := by
  rw [narrow, List.map_map]
  apply List.map_congr_left
  intro p _
  by_cases h : p.wire ∈ ws <;> simp [h]

/-- Behind a node put into a gap, what is left of the gap starts at this node on its wires. -/
theorem between_narrow {c : Circuit} {n : Node} {A B : List NodeId} (hc : c.Linked (A ++ B))
    (hgap : ∀ p ∈ gap, c.Between A B p) :
    ∀ p ∈ narrow gap n.wires c.slots.size, (c.insert n).Between (A ++ [c.slots.size]) B p := by
  have hsame : ∀ x ∈ A ++ B, c.op? x = (c.insert n).op? x := by
    intro x hx
    rw [op?_insert, if_neg (Nat.ne_of_lt (hc.lt_size hx))]
  have honw : ∀ w, (c.insert n).onWire w c.slots.size = decide (w ∈ n.wires) := by
    intro w
    simp [onWire, op?_insert, Node.op]
  intro p hp
  obtain ⟨q, hq, rfl⟩ := List.mem_map.mp hp
  obtain ⟨hprev, hnext⟩ := (hgap q hq).congr hsame
  by_cases hw : q.wire ∈ n.wires
  · simp only [hw, ↓reduceIte]
    exact ⟨by simp [List.filter_append, honw, hw], hnext⟩
  · simp only [hw, ↓reduceIte]
    exact ⟨by simpa [List.filter_append, honw, hw] using hprev, hnext⟩

/-- Filling a gap puts the new nodes one after the other into its place in the order. -/
theorem Linked.fill {c : Circuit} {A B : List NodeId} {ops : List Operation}
    (h : c.Linked (A ++ B)) (hgap : ∀ p ∈ gap, c.Between A B p)
    (hops : ∀ op ∈ ops, op.Fits c.width ∧ ∀ w ∈ op.wires, w ∈ gap.map (·.wire)) :
    (c.fill gap ops).2.Linked (A ++ ((c.fill gap ops).1 ++ B)) ∧
      (c.fill gap ops).1.map (c.fill gap ops).2.op? = ops.map some ∧
      (∀ x ∈ A ++ B, (c.fill gap ops).2.op? x = c.op? x) ∧
      (∀ x ∈ (c.fill gap ops).1, c.slots.size ≤ x) ∧
      (c.fill gap ops).2.width = c.width := by
  induction ops generalizing c gap A with
  | nil => exact ⟨h, rfl, fun _ _ => rfl, by simp [Circuit.fill], rfl⟩
  | cons op ops ih =>
    obtain ⟨hfits, hin⟩ := hops op (by simp)
    let n : Node := ⟨op.gate, legsIn gap op.wires⟩
    have hwires : n.wires = op.wires := wires_legsIn hin
    have hop : n.op = op := by
      simp only [Node.op, hwires]
      rfl
    have hins : (c.insert n).Linked ((A ++ [c.slots.size]) ++ B) := by
      have := h.insert (hop ▸ hfits) fun p hp => hgap p (legsIn_mem hp)
      simpa using this
    have hgap' := between_narrow (n := n) h hgap
    rw [hwires] at hgap'
    have hops' : ∀ o ∈ ops, o.Fits (c.insert n).width ∧
        ∀ w ∈ o.wires, w ∈ (narrow gap op.wires c.slots.size).map (·.wire) := by
      intro o ho
      rw [width_insert, wires_narrow]
      exact hops o (by simp [ho])
    obtain ⟨hl, hm, hold, hnew, hwd⟩ := ih hins hgap' hops'
    have hfill : c.fill gap (op :: ops) =
        (c.slots.size :: ((c.insert n).fill (narrow gap op.wires c.slots.size) ops).1,
          ((c.insert n).fill (narrow gap op.wires c.slots.size) ops).2) := rfl
    rw [hfill]
    refine ⟨by simpa using hl, ?_, ?_, ?_, hwd.trans (width_insert c n)⟩
    · rw [List.map_cons, List.map_cons, hm, hold _ (by simp), op?_insert, if_pos rfl, hop]
    · intro x hx
      have hlt := h.lt_size hx
      rw [hold x (by simp at hx ⊢; tauto), op?_insert, if_neg (Nat.ne_of_lt hlt)]
    · intro x hx
      rcases List.mem_cons.mp hx with rfl | hx
      · exact Nat.le_refl _
      · have := hnew x hx
        rw [slots_size_insert] at this
        exact Nat.le_of_succ_le this

end Fill

theorem slots_size_remove {c c' : Circuit} {id : NodeId} {n : Node}
    (h : c.remove id = .ok (n, c')) : c'.slots.size = c.slots.size := by
  obtain ⟨_, rfl⟩ := remove_eq_ok h
  have hf : (n.legs.foldl unhook (c.vacate id)).slots.size = (c.vacate id).slots.size :=
    congrArg Frame.capacity (frame_removed c id n)
  rw [hf]
  simp [vacate]

theorem substitute_eq_ok {c c' : Circuit} {id : NodeId} {f : Fragment} {ws : List Wire}
    {ids : List NodeId} (h : c.substitute id f ws = .ok (ids, c')) :
    ∃ n d, c.remove id = .ok (n, d) ∧ f.width = ws.length ∧ (∀ w ∈ ws, w ∈ n.wires) ∧ ws.Nodup ∧
      d.fill n.legs (f.ops.map (·.onto ws)) = (ids, c') := by
  unfold substitute at h
  cases hn : c.node? id with
  | none => simp [hn] at h
  | some n =>
    simp only [hn] at h
    split at h
    next => simp at h
    next hwidth =>
      split at h
      next => simp at h
      next hin =>
        split at h
        next => simp at h
        next hrep =>
          cases hr : c.remove id with
          | error e => simp [hr, bind, Except.bind] at h
          | ok r =>
            obtain ⟨m, d⟩ := r
            have hm := (remove_eq_ok hr).1
            rw [hn, Option.some.injEq] at hm
            subst m
            simp only [hr, bind, Except.bind, pure, Except.pure, Except.ok.injEq] at h
            refine ⟨n, d, rfl, not_not.mp hwidth, ?_, (firstRepeated_eq_none hrep).1, h⟩
            intro w hw
            simpa using List.find?_eq_none.mp hin w hw

/-- The gap that a node leaves takes the operations of a fragment on wires of the node. -/
theorem Linked.opened {c d : Circuit} {A B : List NodeId} {id : NodeId} {n : Node} {f : Fragment}
    {ws : List Wire} (h : c.Linked (A ++ id :: B)) (hr : c.remove id = .ok (n, d)) (hf : f.Fits)
    (hwidth : f.width = ws.length) (hin : ∀ w ∈ ws, w ∈ n.wires) (hnodup : ws.Nodup) :
    (∀ x ∈ A ++ B, d.op? x = c.op? x) ∧ (∀ p ∈ n.legs, d.Between A B p) ∧
      ∀ op ∈ f.ops.map (·.onto ws), op.Fits d.width ∧ ∀ w ∈ op.wires, w ∈ n.legs.map (·.wire) := by
  obtain ⟨hn, _⟩ := remove_eq_ok hr
  obtain ⟨hid, _⟩ := List.nodup_cons.mp (List.nodup_middle.mp h.nodup)
  have hsame : ∀ x ∈ A ++ B, d.op? x = c.op? x := by
    intro x hx
    rw [op?_remove hr, if_neg]
    rintro rfl
    exact hid hx
  refine ⟨hsame, ?_, ?_⟩
  · exact fun p hp => (h.between hn hp).congr fun x hx => (hsame x hx).symm
  · intro op hop
    obtain ⟨o, ho, rfl⟩ := List.mem_map.mp hop
    obtain ⟨harity, hdistinct, hsub⟩ := (hwidth ▸ hf o ho).onto hnodup
    refine ⟨⟨harity, hdistinct, ?_⟩, fun w hw => hin w (hsub w hw)⟩
    intro w hw
    rw [width_remove hr]
    exact (h.fits id n hn).lt_width w (hin w (hsub w hw))

/-- A fragment put in the place of a node takes its place in the order. -/
theorem Linked.substitute {c c' : Circuit} {A B ids : List NodeId} {id : NodeId} {f : Fragment}
    {ws : List Wire} (h : c.Linked (A ++ id :: B)) (hf : f.Fits)
    (hs : c.substitute id f ws = .ok (ids, c')) :
    c'.Linked (A ++ (ids ++ B)) ∧ ids.map c'.op? = f.ops.map (fun op => some (op.onto ws)) ∧
      (∀ x ∈ A ++ B, c'.op? x = c.op? x) ∧ (∀ x ∈ ids, c.slots.size ≤ x) ∧
      c'.width = c.width := by
  obtain ⟨n, d, hr, hwidth, hin, hnodup, hfill⟩ := substitute_eq_ok hs
  obtain ⟨hsame, hgap, hops⟩ := h.opened hr hf hwidth hin hnodup
  have hfilled := (h.remove hr).fill hgap hops
  rw [hfill, List.map_map] at hfilled
  obtain ⟨hl, hm, hold, hnew, hwd⟩ := hfilled
  refine ⟨hl, hm, fun x hx => (hold x hx).trans (hsame x hx), ?_, hwd.trans (width_remove hr)⟩
  intro x hx
  rw [← slots_size_remove hr]
  exact hnew x hx

end Circuit

end BasisFlow
