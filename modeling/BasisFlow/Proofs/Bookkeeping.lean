import BasisFlow.Proofs.Requests

namespace BasisFlow

namespace Circuit

section Checked

/-- Sets a link only if there is a node with a leg on the wire, or a wire, to set it on. -/
def linkNext? (c : Circuit) (id : Option NodeId) (w : Wire) (target : Option NodeId) :
    Option Circuit :=
  match id with
  | some a => do
    let n ← c.node? a
    let _ ← n.leg? w
    return c.linkNext (some a) w target
  | none => do
    let _ ← c.rails[w]?
    return c.linkNext none w target

@[inherit_doc linkNext?]
def linkPrev? (c : Circuit) (id : Option NodeId) (w : Wire) (target : Option NodeId) :
    Option Circuit :=
  match id with
  | some a => do
    let n ← c.node? a
    let _ ← n.leg? w
    return c.linkPrev (some a) w target
  | none => do
    let _ ← c.rails[w]?
    return c.linkPrev none w target

def hook? (id : NodeId) (c : Circuit) (p : Leg) : Option Circuit := do
  let d ← c.linkNext? p.prev p.wire (some id)
  d.linkPrev? p.next p.wire (some id)

def unhook? (c : Circuit) (p : Leg) : Option Circuit := do
  let d ← c.linkNext? p.prev p.wire p.next
  d.linkPrev? p.next p.wire p.prev

def insert? (c : Circuit) (n : Node) : Option Circuit := do
  let hooked ← n.legs.foldlM (hook? c.slots.size) c
  return { hooked with slots := hooked.slots.push (some n), size := hooked.size + 1 }

/-- The same as `append`, but nothing at all where a wire without ends or a missing link is met. -/
def append? (c : Circuit) (op : Operation) : Option (Except CircuitError (NodeId × Circuit)) :=
  match op.check c.width with
  | .error e => some (.error e)
  | .ok () => do
    let legs ← op.wires.mapM fun w => c.rails[w]?.map fun r => ⟨w, r.last, none⟩
    let d ← c.insert? ⟨op.gate, legs⟩
    return .ok (c.slots.size, d)

/-- The same as `remove`, but nothing at all where a missing link is met or no node is counted. -/
def remove? (c : Circuit) (id : NodeId) : Option (Except CircuitError (Node × Circuit)) :=
  match c.node? id with
  | none => some (.error (.missingNode id))
  | some n =>
    if c.size = 0 then none
    else do
      let d ← n.legs.foldlM unhook? (c.vacate id)
      return .ok (n, d)

def fill? (c : Circuit) (gap : List Leg) : List Operation → Option (List NodeId × Circuit)
  | [] => some ([], c)
  | op :: ops => do
    let legs ← op.wires.mapM fun w => gap.find? (·.wire = w)
    let d ← c.insert? ⟨op.gate, legs⟩
    let (ids, filled) ← d.fill? (narrow gap op.wires c.slots.size) ops
    return (c.slots.size :: ids, filled)

/-- The same as `substitute`, but nothing at all where a local wire has no name, a wire is not in
the gap, or a missing link is met. -/
def substitute? (c : Circuit) (id : NodeId) (f : Fragment) (wires : List Wire) :
    Option (Except CircuitError (List NodeId × Circuit)) :=
  match c.node? id with
  | none => some (.error (.missingNode id))
  | some n =>
    if f.width ≠ wires.length then some (.error (.substitutionWidth f.width wires.length))
    else match wires.find? (· ∉ n.wires) with
      | some w => some (.error (.substitutionWire w id))
      | none =>
        match firstRepeated [] wires with
        | some w => some (.error (.duplicateOperand w))
        | none => do
          let ops ← f.ops.mapM fun op => do
            let ws ← op.wires.mapM fun k => wires[k]?
            return Operation.mk op.gate ws
          match ← c.remove? id with
          | .error e => return .error e
          | .ok (n, opened) =>
            let filled ← opened.fill? n.legs ops
            return .ok filled

end Checked

/-- There is something to set a link on. -/
def CanLink (c : Circuit) (w : Wire) : Option NodeId → Prop
  | some a => c.onWire w a
  | none => w < c.width

theorem CanLink.congr {c d : Circuit} {w : Wire} {id : Option NodeId} (h : c.frame = d.frame)
    (hl : c.CanLink w id) : d.CanLink w id := by
  have hop : c.op? = d.op? := congrArg Frame.op h
  have hwd : c.width = d.width := congrArg Frame.width h
  cases id with
  | none =>
    change w < d.width
    rw [← hwd]
    exact hl
  | some a =>
    change d.onWire w a
    rw [← onWire_congr (congrFun hop a) w]
    exact hl

theorem linkNext?_eq {c : Circuit} {w : Wire} {id : Option NodeId} (h : c.CanLink w id)
    (target : Option NodeId) : c.linkNext? id w target = some (c.linkNext id w target) := by
  cases id with
  | none =>
    obtain ⟨r, hr⟩ := rail_of_lt_width h
    simp [linkNext?, hr]
  | some a =>
    obtain ⟨n, hn, hw⟩ := onWire_iff.mp h
    obtain ⟨p, hp⟩ := Option.isSome_iff_exists.mp (Node.leg?_isSome_iff.mpr hw)
    simp [linkNext?, hn, hp]

theorem linkPrev?_eq {c : Circuit} {w : Wire} {id : Option NodeId} (h : c.CanLink w id)
    (target : Option NodeId) : c.linkPrev? id w target = some (c.linkPrev id w target) := by
  cases id with
  | none =>
    obtain ⟨r, hr⟩ := rail_of_lt_width h
    simp [linkPrev?, hr]
  | some a =>
    obtain ⟨n, hn, hw⟩ := onWire_iff.mp h
    obtain ⟨p, hp⟩ := Option.isSome_iff_exists.mp (Node.leg?_isSome_iff.mpr hw)
    simp [linkPrev?, hn, hp]

/-- Both neighbours of a leg are there. -/
def Anchored (c : Circuit) (p : Leg) : Prop :=
  c.CanLink p.wire p.prev ∧ c.CanLink p.wire p.next

theorem hook?_eq {c : Circuit} {p : Leg} (h : c.Anchored p) (id : NodeId) :
    c.hook? id p = some (c.hook id p) := by
  have hnext := h.2.congr (frame_linkNext c p.prev p.wire (some id)).symm
  simp [hook?, hook, linkNext?_eq h.1, linkPrev?_eq hnext]

theorem unhook?_eq {c : Circuit} {p : Leg} (h : c.Anchored p) :
    c.unhook? p = some (c.unhook p) := by
  have hnext := h.2.congr (frame_linkNext c p.prev p.wire p.next).symm
  simp [unhook?, unhook, linkNext?_eq h.1, linkPrev?_eq hnext]

/-- Steps that succeed on legs whose neighbours are there succeed on all of them in turn. -/
theorem foldlM_eq {f : Circuit → Leg → Option Circuit} {g : Circuit → Leg → Circuit}
    (hf : ∀ c p, c.Anchored p → f c p = some (g c p)) (hg : ∀ c p, (g c p).frame = c.frame)
    {legs : List Leg} {c : Circuit} (h : ∀ p ∈ legs, c.Anchored p) :
    legs.foldlM f c = some (legs.foldl g c) := by
  induction legs generalizing c with
  | nil => rfl
  | cons p legs ih =>
    have hrest : ∀ q ∈ legs, (g c p).Anchored q := by
      intro q hq
      obtain ⟨hprev, hnext⟩ := h q (by simp [hq])
      exact ⟨hprev.congr (hg c p).symm, hnext.congr (hg c p).symm⟩
    rw [List.foldlM_cons, hf c p (h p (by simp))]
    exact ih hrest

/-- The neighbours that a leg has in a list of nodes are there. -/
theorem Between.anchored {c : Circuit} {A B : List NodeId} {p : Leg} (h : c.Between A B p)
    (hw : p.wire < c.width) : c.Anchored p := by
  obtain ⟨hprev, hnext⟩ := h
  refine ⟨?_, ?_⟩
  · cases hp : p.prev with
    | none => exact hw
    | some a =>
      rw [hp] at hprev
      exact (List.mem_filter.mp (List.mem_of_getLast? hprev.symm)).2
  · cases hp : p.next with
    | none => exact hw
    | some a =>
      rw [hp] at hnext
      exact (List.mem_filter.mp (List.mem_of_head? hnext.symm)).2

theorem insert?_eq {c : Circuit} {n : Node} {A B : List NodeId} (hn : n.op.Fits c.width)
    (hlegs : ∀ p ∈ n.legs, c.Between A B p) : c.insert? n = some (c.insert n) := by
  have hanchored : ∀ p ∈ n.legs, c.Anchored p := fun p hp =>
    (hlegs p hp).anchored (hn.lt_width p.wire (List.mem_map_of_mem hp))
  rw [insert?, foldlM_eq (fun d p hp => hook?_eq hp c.slots.size) (frame_hook c.slots.size)
    hanchored]
  rfl

theorem mapM_eq_some {α β : Type} {f : α → Option β} {g : α → β} {l : List α}
    (h : ∀ x ∈ l, f x = some (g x)) : l.mapM f = some (l.map g) := by
  induction l with
  | nil => rfl
  | cons x l ih =>
    rw [List.mapM_cons, h x (by simp), ih fun y hy => h y (by simp [hy])]
    rfl

theorem mapM_eq_filterMap {α β : Type} {f : α → Option β} {l : List α}
    (h : ∀ x ∈ l, (f x).isSome) : l.mapM f = some (l.filterMap f) := by
  induction l with
  | nil => rfl
  | cons x l ih =>
    obtain ⟨y, hy⟩ := Option.isSome_iff_exists.mp (h x (by simp))
    rw [List.mapM_cons, hy, ih fun z hz => h z (by simp [hz]), List.filterMap_cons_some hy]
    rfl

/-- Every operation of a fragment can be renamed to as many wires as the fragment has. -/
theorem mapM_onto {ws : List Wire} {ops : List Operation} (h : ∀ op ∈ ops, op.Fits ws.length) :
    (ops.mapM fun op => do
      let us ← op.wires.mapM fun k => ws[k]?
      return Operation.mk op.gate us) = some (ops.map (·.onto ws)) := by
  apply mapM_eq_some
  intro op hop
  rw [mapM_eq_some fun k hk => (h op hop).getElem? hk]
  rfl

theorem mapM_last {c : Circuit} {op : Operation} (h : op.Fits c.width) :
    (op.wires.mapM fun w => c.rails[w]?.map fun r => (⟨w, r.last, none⟩ : Leg)) =
      some (op.wires.map fun w => ⟨w, c.last? w, none⟩) := by
  apply mapM_eq_some
  intro w hw
  obtain ⟨r, hr⟩ := rail_of_lt_width (h.lt_width w hw)
  simp [last?, hr]

theorem Linked.append?_eq {c : Circuit} {L : List NodeId} (h : c.Linked L) (op : Operation) :
    c.append? op = some (c.append op) := by
  cases hc : op.check c.width with
  | error e => simp [append?, Circuit.append, hc, bind, Except.bind]
  | ok u =>
    have hfits := Operation.fits_of_check hc
    have hop : (Node.mk op.gate (op.wires.map fun w => ⟨w, c.last? w, none⟩)).op = op := by
      simp [Node.op, Node.wires, Function.comp_def]
    have hins := insert?_eq (A := L) (B := []) (hop.symm ▸ hfits) fun p hp => by
      obtain ⟨w, _, rfl⟩ := List.mem_map.mp hp
      exact ⟨(h.threads w).last_eq, rfl⟩
    simp [append?, Circuit.append, hc, mapM_last hfits, hins, bind, Except.bind]
    rfl

theorem Linked.remove?_eq {c : Circuit} {L : List NodeId} (h : c.Linked L) (id : NodeId) :
    c.remove? id = some (c.remove id) := by
  cases hn : c.node? id with
  | none => simp [remove?, Circuit.remove, hn]
  | some n =>
    obtain ⟨A, B, rfl⟩ := List.append_of_mem ((h.mem_iff id).mpr (by simp [hn]))
    obtain ⟨hid, _⟩ := List.nodup_cons.mp (List.nodup_middle.mp h.nodup)
    have hfits := h.fits id n hn
    have hsize : c.size ≠ 0 := by
      rw [h.size_eq]
      simp
    have hsame : ∀ x ∈ A ++ B, c.op? x = (c.vacate id).op? x := by
      intro x hx
      rw [op?_vacate, if_neg]
      rintro rfl
      exact hid hx
    have hanchored : ∀ p ∈ n.legs, (c.vacate id).Anchored p := fun p hp =>
      ((h.between hn hp).congr hsame).anchored (hfits.lt_width p.wire (List.mem_map_of_mem hp))
    have hfold := foldlM_eq (fun d p hp => unhook?_eq hp) frame_unhook hanchored
    simp only [remove?, Circuit.remove, hn, hsize, ↓reduceIte, hfold]
    rfl

theorem Linked.fill?_eq {c : Circuit} {A B : List NodeId} {gap : List Leg} {ops : List Operation}
    (h : c.Linked (A ++ B)) (hgap : ∀ p ∈ gap, c.Between A B p)
    (hops : ∀ op ∈ ops, op.Fits c.width ∧ ∀ w ∈ op.wires, w ∈ gap.map (·.wire)) :
    c.fill? gap ops = some (c.fill gap ops) := by
  induction ops generalizing c gap A with
  | nil => rfl
  | cons op ops ih =>
    obtain ⟨hfits, hin⟩ := hops op (by simp)
    let n : Node := ⟨op.gate, legsIn gap op.wires⟩
    have hop : n.op = op := by
      simp only [Node.op, Node.wires, n, wires_legsIn hin]
    have hlegs : (op.wires.mapM fun w => gap.find? (·.wire = w)) =
        some (legsIn gap op.wires) := by
      exact mapM_eq_filterMap fun w hw => by
        obtain ⟨p, hp, hpw⟩ := List.mem_map.mp (hin w hw)
        exact List.find?_isSome.mpr ⟨p, hp, by simpa using hpw⟩
    have hfitn : n.op.Fits c.width := hop.symm ▸ hfits
    have hlink : ∀ p ∈ n.legs, c.Between A B p := fun p hp => hgap p (legsIn_mem hp)
    have hins := insert?_eq hfitn hlink
    have hnext : (c.insert n).Linked ((A ++ [c.slots.size]) ++ B) := by
      simpa using h.insert hfitn hlink
    have hgap' := between_narrow (n := n) h hgap
    rw [show n.wires = op.wires from congrArg Operation.wires hop] at hgap'
    have hrest := ih hnext hgap' fun o ho => by
      rw [width_insert, wires_narrow]
      exact hops o (by simp [ho])
    simp only [fill?, hlegs, n] at hins hrest ⊢
    simp [hins, hrest]
    rfl

theorem Linked.substitute?_eq {c : Circuit} {L : List NodeId} (h : c.Linked L) (id : NodeId)
    {f : Fragment} (hf : f.Fits) (ws : List Wire) :
    c.substitute? id f ws = some (c.substitute id f ws) := by
  cases hn : c.node? id with
  | none => simp [substitute?, Circuit.substitute, hn]
  | some n =>
    by_cases hwidth : f.width = ws.length
    · cases hin : ws.find? (· ∉ n.wires) with
      | some w => simp only [substitute?, Circuit.substitute, hn, hwidth, ne_eq, not_true, if_false, hin]
      | none =>
        cases hrep : firstRepeated [] ws with
        | some w =>
          simp only [substitute?, Circuit.substitute, hn, hwidth, ne_eq, not_true, if_false, hin, hrep]
        | none =>
          have hsub : ∀ w ∈ ws, w ∈ n.wires := fun w hw => by
            simpa using List.find?_eq_none.mp hin w hw
          have hops := mapM_onto fun op hop => hwidth ▸ hf op hop
          have hremove := h.remove?_eq id
          obtain ⟨A, B, rfl⟩ := List.append_of_mem ((h.mem_iff id).mpr (by simp [hn]))
          cases hr : c.remove id with
          | error e => simp [Circuit.remove, hn] at hr
          | ok r =>
            obtain ⟨m, d⟩ := r
            have hm := (remove_eq_ok hr).1
            rw [hn, Option.some.injEq] at hm
            subst m
            obtain ⟨_, hgap, hfit⟩ := h.opened hr hf hwidth hsub (firstRepeated_eq_none hrep).1
            have hfill := (h.remove hr).fill?_eq hgap hfit
            rw [hr] at hremove
            simp only [substitute?, Circuit.substitute, hn, hwidth, hin, hrep, hops, hremove, hr]
            simp [hfill, bind, Except.bind]
            rfl
    · simp [substitute?, Circuit.substitute, hn, hwidth]

end Circuit

end BasisFlow
