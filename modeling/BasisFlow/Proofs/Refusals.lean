import BasisFlow.Proofs.Bookkeeping

namespace BasisFlow

/-- The first entry of a list that has a property. -/
def FirstWith (P : Wire → Prop) (ws : List Wire) (w : Wire) : Prop :=
  ∃ front back, ws = front ++ w :: back ∧ P w ∧ ∀ v ∈ front, ¬ P v

/-- The entry of a list whose second occurrence comes first. -/
def RepeatedFirst (ws : List Wire) (w : Wire) : Prop :=
  ∃ front back, ws = front ++ w :: back ∧ w ∈ front ∧ front.Nodup

theorem find?_eq_some_iff_firstWith {P : Wire → Prop} [DecidablePred P] {ws : List Wire} {w : Wire} :
    ws.find? (fun v => decide (P v)) = some w ↔ FirstWith P ws w := by
  rw [List.find?_eq_some_iff_append]
  constructor
  · rintro ⟨hw, front, back, rfl, hfront⟩
    exact ⟨front, back, rfl, by simpa using hw, fun v hv => by simpa using hfront v hv⟩
  · rintro ⟨front, back, rfl, hw, hfront⟩
    exact ⟨by simpa using hw, front, back, rfl, fun v hv => by simpa using hfront v hv⟩

/-- The scan for a repetition, with entries `seen` before the list. -/
theorem firstRepeated_eq_some_iff {seen ws : List Wire} {w : Wire} :
    firstRepeated seen ws = some w ↔ ∃ front back, ws = front ++ w :: back ∧
      (w ∈ seen ∨ w ∈ front) ∧ front.Nodup ∧ ∀ v ∈ front, v ∉ seen := by
  induction ws generalizing seen with
  | nil => simp [firstRepeated]
  | cons u ws ih =>
    rw [firstRepeated]
    split
    next hu =>
      constructor
      · intro h
        cases h
        exact ⟨[], ws, rfl, .inl hu, List.nodup_nil, by simp⟩
      · rintro ⟨front, back, hsplit, _, _, hfresh⟩
        cases front with
        | nil => rw [(List.cons.inj hsplit).1]
        | cons v front =>
          obtain ⟨rfl, _⟩ := List.cons.inj hsplit
          exact absurd hu (hfresh u (by simp))
    next hu =>
      rw [ih]
      constructor
      · rintro ⟨front, back, rfl, hw, hnodup, hfresh⟩
        have huf : u ∉ front := fun hm => hfresh u hm (by simp)
        refine ⟨u :: front, back, rfl, ?_, List.nodup_cons.mpr ⟨huf, hnodup⟩, ?_⟩
        · simp only [List.mem_cons] at hw ⊢
          tauto
        · intro v hv
          rcases List.mem_cons.mp hv with rfl | hv
          · exact hu
          · exact fun hm => hfresh v hv (by simp [hm])
      · rintro ⟨front, back, hsplit, hw, hnodup, hfresh⟩
        cases front with
        | nil =>
          obtain ⟨rfl, _⟩ := List.cons.inj hsplit
          simp [hu] at hw
        | cons v front =>
          obtain ⟨rfl, rfl⟩ := List.cons.inj hsplit
          obtain ⟨huf, hnodup⟩ := List.nodup_cons.mp hnodup
          refine ⟨front, back, rfl, ?_, hnodup, ?_⟩
          · simp only [List.mem_cons] at hw ⊢
            tauto
          · intro v hv hm
            rcases List.mem_cons.mp hm with rfl | hm
            · exact huf hv
            · exact hfresh v (by simp [hv]) hm

theorem firstRepeated_eq_some_iff_repeatedFirst {ws : List Wire} {w : Wire} :
    firstRepeated [] ws = some w ↔ RepeatedFirst ws w := by
  rw [firstRepeated_eq_some_iff]
  simp [RepeatedFirst]

/-- Why a circuit of `width` wires refuses an operation: the first condition that is broken, with
the first wire that breaks it. -/
inductive Operation.Refused (op : Operation) (width : Nat) : CircuitError → Prop
  | count (h : op.wires.length ≠ op.gate.arity) :
    Refused op width (.operandCount op.gate.name op.gate.arity op.wires.length)
  | range {w : Wire} (count : op.wires.length = op.gate.arity)
    (h : FirstWith (width ≤ ·) op.wires w) : Refused op width (.wireOutOfRange w width)
  | repetition {w : Wire} (count : op.wires.length = op.gate.arity)
    (range : ∀ v ∈ op.wires, v < width) (h : RepeatedFirst op.wires w) :
    Refused op width (.duplicateOperand w)

/-- Why a circuit refuses to put a fragment in the place of a node: the first condition that is
broken, with the first wire that breaks it. -/
inductive Circuit.RefusedSubstitution (c : Circuit) (id : NodeId) (f : Fragment) (ws : List Wire) :
    CircuitError → Prop
  | missing (h : c.node? id = none) : RefusedSubstitution c id f ws (.missingNode id)
  | width {n : Node} (node : c.node? id = some n) (h : f.width ≠ ws.length) :
    RefusedSubstitution c id f ws (.substitutionWidth f.width ws.length)
  | wire {n : Node} {w : Wire} (node : c.node? id = some n) (width : f.width = ws.length)
    (h : FirstWith (· ∉ n.wires) ws w) : RefusedSubstitution c id f ws (.substitutionWire w id)
  | repetition {n : Node} {w : Wire} (node : c.node? id = some n) (width : f.width = ws.length)
    (wires : ∀ v ∈ ws, v ∈ n.wires) (h : RepeatedFirst ws w) :
    RefusedSubstitution c id f ws (.duplicateOperand w)

theorem Operation.check_eq_error_iff {op : Operation}
    (hc : op.gate.countedArity = .ok op.gate.arity) {width : Nat} {e : CircuitError} :
    op.check width = .error e ↔ op.Refused width e := by
  unfold check
  simp only [hc, Except.mapError, bind, Except.bind]
  constructor
  · intro h
    split at h
    next hcount =>
      cases h
      exact .count (Ne.symm hcount)
    next hcount =>
      have hcount := (not_not.mp hcount).symm
      split at h
      next w hw =>
        cases h
        exact .range hcount (find?_eq_some_iff_firstWith.mp hw)
      next hrange =>
        split at h
        next w hw =>
          cases h
          refine .repetition hcount ?_ (firstRepeated_eq_some_iff_repeatedFirst.mp hw)
          intro v hv
          simpa using List.find?_eq_none.mp hrange v hv
        next => cases h
  · intro h
    cases h with
    | count h => rw [if_pos (Ne.symm h)]
    | range hcount h =>
      rw [if_neg (not_not.mpr hcount.symm), find?_eq_some_iff_firstWith.mpr h]
    | repetition hcount hrange h =>
      have hnone : op.wires.find? (width ≤ ·) = none :=
        List.find?_eq_none.mpr fun v hv => by simpa using hrange v hv
      rw [if_neg (not_not.mpr hcount.symm), hnone, firstRepeated_eq_some_iff_repeatedFirst.mpr h]

theorem Operation.check_eq_ok_iff {op : Operation}
    (hc : op.gate.countedArity = .ok op.gate.arity) {width : Nat} :
    op.check width = .ok () ↔ op.Fits width :=
  ⟨fits_of_check, fun h => h.check_of_counted hc⟩

namespace Circuit

theorem append_eq_error_iff {c : Circuit} {op : Operation} {e : CircuitError} :
    c.append op = .error e ↔ op.check c.width = .error e := by
  unfold append
  cases op.check c.width <;> simp [bind, Except.bind, pure, Except.pure]

theorem append_isOk_iff {c : Circuit} {op : Operation} :
    (∃ id d, c.append op = .ok (id, d)) ↔ op.check c.width = .ok () := by
  unfold append
  cases op.check c.width <;> simp [bind, Except.bind, pure, Except.pure]

theorem remove_eq_error_iff {c : Circuit} {id : NodeId} {e : CircuitError} :
    c.remove id = .error e ↔ c.node? id = none ∧ e = .missingNode id := by
  unfold remove
  cases c.node? id with
  | none => simp [eq_comm]
  | some n => simp

theorem remove_isOk_iff {c : Circuit} {id : NodeId} :
    (∃ n d, c.remove id = .ok (n, d)) ↔ (c.node? id).isSome := by
  unfold remove
  cases c.node? id <;> simp

theorem substitute_eq_error_iff {c : Circuit} {id : NodeId} {f : Fragment} {ws : List Wire}
    {e : CircuitError} : c.substitute id f ws = .error e ↔ c.RefusedSubstitution id f ws e := by
  unfold substitute
  constructor
  · intro h
    split at h
    next hn =>
      cases h
      exact .missing hn
    next n hn =>
      split at h
      next hwidth =>
        cases h
        exact .width hn hwidth
      next hwidth =>
        have hwidth := not_not.mp hwidth
        split at h
        next w hw =>
          cases h
          exact .wire hn hwidth (find?_eq_some_iff_firstWith.mp hw)
        next hin =>
          split at h
          next w hw =>
            cases h
            refine .repetition hn hwidth ?_ (firstRepeated_eq_some_iff_repeatedFirst.mp hw)
            intro v hv
            simpa using List.find?_eq_none.mp hin v hv
          next =>
            obtain ⟨_, _, hr⟩ := remove_isOk_iff.mpr (Option.isSome_of_eq_some hn)
            simp [hr, bind, Except.bind, pure, Except.pure] at h
  · intro h
    cases h with
    | missing hn => simp only [hn]
    | width hn h => simp only [hn, if_pos h]
    | wire hn hwidth h =>
      simp only [hn, hwidth, ne_eq, not_true, if_false, find?_eq_some_iff_firstWith.mpr h]
    | @repetition n w hn hwidth hin h =>
      have hnone : ws.find? (· ∉ n.wires) = none :=
        List.find?_eq_none.mpr fun v hv => by simpa using hin v hv
      simp only [hn, hwidth, ne_eq, not_true, if_false, hnone,
        firstRepeated_eq_some_iff_repeatedFirst.mpr h]

theorem substitute_isOk_iff {c : Circuit} {id : NodeId} {f : Fragment} {ws : List Wire} :
    (∃ ids d, c.substitute id f ws = .ok (ids, d)) ↔
      ∃ n, c.node? id = some n ∧ f.width = ws.length ∧ (∀ w ∈ ws, w ∈ n.wires) ∧ ws.Nodup := by
  constructor
  · rintro ⟨ids, d, h⟩
    obtain ⟨n, _, hr, hwidth, hin, hnodup, _⟩ := substitute_eq_ok h
    exact ⟨n, (remove_eq_ok hr).1, hwidth, hin, hnodup⟩
  · rintro ⟨n, hn, hwidth, hin, hnodup⟩
    cases hs : c.substitute id f ws with
    | ok r => exact ⟨r.1, r.2, rfl⟩
    | error e =>
      -- each refusal contradicts one of the conditions
      cases substitute_eq_error_iff.mp hs with
      | missing h => simp [hn] at h
      | width _ h => exact absurd hwidth h
      | wire hm _ h =>
        obtain rfl := Option.some.inj (hn.symm.trans hm)
        obtain ⟨front, back, rfl, hw, _⟩ := h
        exact absurd (hin _ (by simp)) hw
      | repetition _ _ _ h =>
        obtain ⟨front, back, rfl, hw, _⟩ := h
        exact absurd rfl ((List.nodup_append.mp hnodup).2.2 _ hw _ (by simp))

end Circuit

/-- Why an edit stops: the request is refused, or something is missing that a circuit has to have. -/
inductive Stop where
  | refused (e : CircuitError)
  | broken

/-- A change of a circuit in place, one write after the other. What has been written when it stops
stays written. -/
abbrev Edit := EStateM Stop Circuit

namespace Edit

def expect {α : Type} : Option α → Edit α
  | some a => pure a
  | none => throw .broken

def demand {α : Type} : Except CircuitError α → Edit α
  | .ok a => pure a
  | .error e => throw (.refused e)

/-- One write, if what is to be written to is there. -/
def write (f : Circuit → Option Circuit) : Edit Unit := do
  set (← expect (f (← get)))

def hook (id : NodeId) (p : Leg) : Edit Unit := do
  write (·.linkNext? p.prev p.wire (some id))
  write (·.linkPrev? p.next p.wire (some id))

def unhook (p : Leg) : Edit Unit := do
  write (·.linkNext? p.prev p.wire p.next)
  write (·.linkPrev? p.next p.wire p.prev)

def insert (n : Node) : Edit NodeId := do
  let id := (← get).slots.size
  n.legs.forM (hook id)
  modify fun c => { c with slots := c.slots.push (some n), size := c.size + 1 }
  return id

def append (op : Operation) : Edit NodeId := do
  let c ← get
  demand (op.check c.width)
  let legs ← expect (op.wires.mapM fun w => c.rails[w]?.map fun r => ⟨w, r.last, none⟩)
  insert ⟨op.gate, legs⟩

/-- The slot is emptied first, and everything else is put in order behind it. -/
def remove (id : NodeId) : Edit Node := do
  let n ← demand ((← get).node? id |>.elim (.error (.missingNode id)) .ok)
  modify fun c => { c with slots := c.slots.setIfInBounds id none }
  write fun c => if c.size = 0 then none else some { c with size := c.size - 1 }
  n.legs.forM unhook
  return n

/-- Each operation is renamed to the wires only when its turn comes. -/
def fill (ws : List Wire) : List Leg → List Operation → Edit (List NodeId)
  | _, [] => return []
  | gap, op :: ops => do
    let us ← expect (op.wires.mapM fun k => ws[k]?)
    let legs ← expect (us.mapM fun w => gap.find? (·.wire = w))
    let id ← insert ⟨op.gate, legs⟩
    let ids ← fill ws (Circuit.narrow gap us id) ops
    return id :: ids

def substitute (id : NodeId) (f : Fragment) (ws : List Wire) : Edit (List NodeId) := do
  let n ← demand ((← get).node? id |>.elim (.error (.missingNode id)) .ok)
  if f.width ≠ ws.length then throw (.refused (.substitutionWidth f.width ws.length))
  if let some w := ws.find? (· ∉ n.wires) then throw (.refused (.substitutionWire w id))
  if let some w := firstRepeated [] ws then throw (.refused (.duplicateOperand w))
  let n ← remove id
  fill ws n.legs f.ops

/-- How an edit ends whose result is known: a refusal leaves the circuit as it was. -/
def ending {α : Type} (c : Circuit) :
    Except CircuitError (α × Circuit) → EStateM.Result Stop Circuit α
  | .ok (a, d) => .ok a d
  | .error e => .error (.refused e) c

theorem run_bind_of_ok {α β : Type} {x : Edit α} {f : α → Edit β} {c d : Circuit} {a : α}
    (h : x.run c = .ok a d) : (x >>= f).run c = (f a).run d := by
  rw [EStateM.run_bind, h]

theorem run_bind_of_error {α β : Type} {x : Edit α} {f : α → Edit β} {c d : Circuit} {s : Stop}
    (h : x.run c = .error s d) : (x >>= f).run c = .error s d := by
  rw [EStateM.run_bind, h]

theorem run_get (c : Circuit) : (get : Edit Circuit).run c = .ok c c :=
  rfl

theorem run_expect {α : Type} {x : Option α} {a : α} (h : x = some a) (c : Circuit) :
    (expect x).run c = .ok a c := by
  rw [h]
  rfl

theorem run_demand {α : Type} {x : Except CircuitError α} {a : α} (h : x = .ok a) (c : Circuit) :
    (demand x).run c = .ok a c := by
  rw [h]
  rfl

theorem run_demand_error {α : Type} {x : Except CircuitError α} {e : CircuitError}
    (h : x = .error e) (c : Circuit) : (demand x).run c = .error (.refused e) c := by
  rw [h]
  rfl

theorem run_write {f : Circuit → Option Circuit} {c d : Circuit} (h : f c = some d) :
    (write f).run c = .ok () d := by
  rw [write, run_bind_of_ok (run_get c), run_bind_of_ok (run_expect h c)]
  rfl

theorem run_hook {c d : Circuit} {id : NodeId} {p : Leg} (h : c.hook? id p = some d) :
    (hook id p).run c = .ok () d := by
  obtain ⟨b, hb, hd⟩ := Option.bind_eq_some_iff.mp h
  rw [hook, run_bind_of_ok (run_write hb), run_write hd]

theorem run_unhook {c d : Circuit} {p : Leg} (h : c.unhook? p = some d) :
    (unhook p).run c = .ok () d := by
  obtain ⟨b, hb, hd⟩ := Option.bind_eq_some_iff.mp h
  rw [unhook, run_bind_of_ok (run_write hb), run_write hd]

/-- Writes that are all possible in turn are all made. -/
theorem run_forM {f : Circuit → Leg → Option Circuit} {g : Leg → Edit Unit}
    (hg : ∀ c p d, f c p = some d → (g p).run c = .ok () d) {legs : List Leg} {c d : Circuit}
    (h : legs.foldlM f c = some d) : (legs.forM g).run c = .ok () d := by
  induction legs generalizing c with
  | nil =>
    cases h
    rfl
  | cons p legs ih =>
    rw [List.foldlM_cons] at h
    obtain ⟨b, hb, hd⟩ := Option.bind_eq_some_iff.mp h
    exact (run_bind_of_ok (hg c p b hb)).trans (ih hd)

theorem run_insert {c d : Circuit} {n : Node} (h : c.insert? n = some d) :
    (insert n).run c = .ok c.slots.size d := by
  obtain ⟨b, hb, hd⟩ := Option.bind_eq_some_iff.mp h
  cases hd
  have hhooks := run_forM (fun _ _ _ hp => run_hook hp) hb
  exact (run_bind_of_ok (run_get c)).trans (run_bind_of_ok hhooks)

theorem run_append {c : Circuit} {op : Operation}
    {r : Except CircuitError (NodeId × Circuit)} (h : c.append? op = some r) :
    (append op).run c = ending c r := by
  unfold Circuit.append? at h
  rw [append, run_bind_of_ok (run_get c)]
  split at h
  next e he =>
    cases h
    exact run_bind_of_error (run_demand_error he c)
  next he =>
    obtain ⟨legs, hlegs, h⟩ := Option.bind_eq_some_iff.mp h
    obtain ⟨d, hd, h⟩ := Option.bind_eq_some_iff.mp h
    cases h
    rw [run_bind_of_ok (run_demand he c), run_bind_of_ok (run_expect hlegs c)]
    exact run_insert hd

theorem run_remove {c : Circuit} {id : NodeId} {r : Except CircuitError (Node × Circuit)}
    (h : c.remove? id = some r) : (remove id).run c = ending c r := by
  unfold Circuit.remove? at h
  rw [remove, run_bind_of_ok (run_get c)]
  split at h
  next hn =>
    cases h
    exact run_bind_of_error (run_demand_error (by rw [hn]; rfl) c)
  next n hn =>
    split at h
    next => cases h
    next hsize =>
      obtain ⟨d, hd, h⟩ := Option.bind_eq_some_iff.mp h
      cases h
      rw [run_bind_of_ok (run_demand (a := n) (by rw [hn]; rfl) c)]
      let emptied : Circuit := { c with slots := c.slots.setIfInBounds id none }
      have hwrite : (write fun c => if c.size = 0 then none else
          some { c with size := c.size - 1 }).run emptied = .ok () (c.vacate id) :=
        run_write (if_neg hsize)
      have hunhooks := run_forM (fun _ _ _ hp => run_unhook hp) hd
      exact (run_bind_of_ok hwrite).trans (run_bind_of_ok hunhooks)

theorem run_fill {ws : List Wire} {c : Circuit} {gap : List Leg} {ops : List Operation}
    {r : List NodeId × Circuit} (hws : ∀ op ∈ ops, op.Fits ws.length)
    (h : c.fill? gap (ops.map (·.onto ws)) = some r) : (fill ws gap ops).run c = .ok r.1 r.2 := by
  induction ops generalizing c gap r with
  | nil =>
    cases h
    rfl
  | cons op ops ih =>
    obtain ⟨legs, hlegs, h⟩ := Option.bind_eq_some_iff.mp h
    obtain ⟨d, hd, h⟩ := Option.bind_eq_some_iff.mp h
    obtain ⟨s, hs, h⟩ := Option.bind_eq_some_iff.mp h
    cases h
    have hnames : op.wires.mapM (fun k => ws[k]?) = some (op.onto ws).wires :=
      Circuit.mapM_eq_some fun k hk => (hws op (by simp)).getElem? hk
    have hrest := ih (fun o ho => hws o (by simp [ho])) hs
    rw [fill, run_bind_of_ok (run_expect hnames c), run_bind_of_ok (run_expect hlegs c)]
    exact (run_bind_of_ok (run_insert hd)).trans (run_bind_of_ok hrest)

theorem run_substitute {c : Circuit} {id : NodeId} {f : Fragment} (hf : f.Fits) {ws : List Wire}
    {r : Except CircuitError (List NodeId × Circuit)} (h : c.substitute? id f ws = some r) :
    (substitute id f ws).run c = ending c r := by
  unfold Circuit.substitute? at h
  rw [substitute, run_bind_of_ok (run_get c)]
  split at h
  next hn =>
    cases h
    exact run_bind_of_error (run_demand_error (by rw [hn]; rfl) c)
  next n hn =>
    rw [run_bind_of_ok (run_demand (a := n) (by rw [hn]; rfl) c)]
    split at h
    next hwidth =>
      cases h
      rw [if_pos hwidth]
      rfl
    next hwidth =>
      rw [if_neg hwidth]
      split at h
      next w hw =>
        cases h
        simp only [hw]
        rfl
      next hin =>
        split at h
        next w hw =>
          cases h
          simp only [hin, hw]
          rfl
        next hrep =>
          simp only [hin, hrep]
          have hfits : ∀ op ∈ f.ops, op.Fits ws.length := not_not.mp hwidth ▸ hf
          obtain ⟨ops, hops, h⟩ := Option.bind_eq_some_iff.mp h
          obtain rfl := Option.some.inj (hops.symm.trans (Circuit.mapM_onto hfits))
          obtain ⟨removed, hremoved, h⟩ := Option.bind_eq_some_iff.mp h
          have hremove := run_remove hremoved
          cases removed with
          | error e =>
            cases h
            exact run_bind_of_error hremove
          | ok removed =>
            obtain ⟨filled, hfill, h⟩ := Option.bind_eq_some_iff.mp h
            cases h
            exact (run_bind_of_ok hremove).trans (run_fill hfits hfill)

end Edit

namespace Circuit

/-- An edit is carried out exactly if it is granted. Otherwise it stops with the refusal that
applies, and nothing has been written. -/
structure Decides (c : Circuit) {α : Type} (edit : Edit α)
    (result : Except CircuitError (α × Circuit)) (granted : Prop) (refused : CircuitError → Prop) :
    Prop where
  ok_iff : (∃ a d, result = .ok (a, d)) ↔ granted
  error_iff : ∀ e, result = .error e ↔ refused e
  run_of_ok : ∀ a d, result = .ok (a, d) → edit.run c = .ok a d
  run_of_error : ∀ e, result = .error e → edit.run c = .error (.refused e) c

theorem decides_of_run {c : Circuit} {α : Type} {edit : Edit α}
    {result : Except CircuitError (α × Circuit)} {granted : Prop} {refused : CircuitError → Prop}
    (hok : (∃ a d, result = .ok (a, d)) ↔ granted) (herror : ∀ e, result = .error e ↔ refused e)
    (hrun : edit.run c = Edit.ending c result) : c.Decides edit result granted refused := by
  refine ⟨hok, herror, ?_, ?_⟩
  · rintro a d rfl
    exact hrun
  · rintro e rfl
    exact hrun

/-- Whatever is asked of a circuit: it is done exactly if all conditions hold. Otherwise the first
condition that is broken is the error, and the circuit is as it was, also when the request is
carried out in place. -/
theorem Reachable.requests_decided {width : Nat} {c : Circuit} (h : c.Reachable width) :
    (∀ op, op.gate.countedArity = .ok op.gate.arity →
      c.Decides (Edit.append op) (c.append op)
        (op.wires.length = op.gate.arity ∧ (∀ w ∈ op.wires, w < width) ∧ op.wires.Nodup)
        (op.Refused width)) ∧
    (∀ id, c.Decides (Edit.remove id) (c.remove id) (c.node? id).isSome
      fun e => c.node? id = none ∧ e = .missingNode id) ∧
    ∀ id (f : Fragment) ws, f.Built →
      c.Decides (Edit.substitute id f ws) (c.substitute id f ws)
        (∃ n, c.node? id = some n ∧ f.width = ws.length ∧ (∀ w ∈ ws, w ∈ n.wires) ∧ ws.Nodup)
        (c.RefusedSubstitution id f ws) := by
  obtain ⟨L, hL⟩ := h.linked
  obtain rfl := h.width_eq
  refine ⟨?_, ?_, ?_⟩
  · intro op hc
    refine decides_of_run ?_ ?_ (Edit.run_append (hL.append?_eq op))
    · rw [append_isOk_iff, Operation.check_eq_ok_iff hc]
      exact ⟨fun h => ⟨h.arity_eq, h.lt_width, h.nodup⟩, fun h => ⟨h.1, h.2.2, h.2.1⟩⟩
    · intro e
      rw [append_eq_error_iff, Operation.check_eq_error_iff hc]
  · intro id
    exact decides_of_run remove_isOk_iff (fun _ => remove_eq_error_iff)
      (Edit.run_remove (hL.remove?_eq id))
  · intro id f ws hf
    exact decides_of_run substitute_isOk_iff (fun _ => substitute_eq_error_iff)
      (Edit.run_substitute hf.fits (hL.substitute?_eq id hf.fits ws))

/-- A node in the middle of a circuit is not taken out when one of the wires for its replacement is
named twice. -/
theorem named_twice_requests_decided :
    let f : Fragment := ⟨3, []⟩
    let c := [Request.append ⟨.base .h, [0]⟩, .append ⟨.ccx, [0, 2, 1]⟩, .append ⟨.cx, [1, 0]⟩].foldl
      after (empty 3)
    c.Reachable 3 ∧ c.RefusedSubstitution 1 f [2, 1, 2] (.duplicateOperand 2) ∧
      (Edit.substitute 1 f [2, 1, 2]).run c = .error (.refused (.duplicateOperand 2)) c := by
  intro f c
  have hc : c.Reachable 3 := ⟨_, rfl⟩
  have hdecided := hc.requests_decided.2.2 1 f [2, 1, 2] (.empty 3)
  have herror : c.substitute 1 f [2, 1, 2] = .error (.duplicateOperand 2) := rfl
  exact ⟨hc, (hdecided.error_iff _).mp herror, hdecided.run_of_error _ herror⟩

end Circuit

end BasisFlow
