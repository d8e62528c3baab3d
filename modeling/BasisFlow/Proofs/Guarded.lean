import BasisFlow.Proofs.Refinement
import BasisFlow.Proofs.Traversal

namespace BasisFlow

section Checked

/-- The fragment of the given operations, each of them checked as it is added. -/
def Fragment.build? (width : Nat) (ops : List Operation) : Option Fragment :=
  ops.foldlM (fun f op => (f.push op).toOption) (.empty width)

/-- The replacement by operations on local wires, put together by `Fragment.build?`. -/
def Reduction.build? (ops : List Operation) (wires : List Wire) : Option Reduction :=
  (Fragment.build? wires.length ops).map (.substitute · wires)

/-- The replacement by one gate, of which controls are asked for by `Gate.control`. -/
def Reduction.controlled? (g : BaseGate) (cs : List (Wire × Bool)) (targets : List Wire) :
    Option Reduction := do
  let gate ← if cs.isEmpty then some (.base g) else ((Gate.base g).control ⟨cs.map (·.2)⟩).toOption
  let wires := cs.map (·.1) ++ targets
  build? [⟨gate, List.range wires.length⟩] wires

namespace Controls

def survey? (t : Tracking) : List (Wire × Bool) → Option Survey
  | [] => some (.surviving [])
  | (w, required) :: rest => do
    let s ← t.get? w
    match s.bit? with
    | some b => if b = required then survey? t rest else return .contradicted w
    | none =>
      let result ← survey? t rest
      match result with
      | .surviving controls => return .surviving ((w, required) :: controls)
      | .contradicted w => return .contradicted w

def kickback? : List (Wire × Bool) → Option (Except ReductionError Decision)
  | [] => some (.ok ⟨.remove, some .allSatisfied⟩)
  | [(w, _)] => do
    let r ← Reduction.controlled? .z [] [w]
    return .ok ⟨r, none⟩
  | survivors =>
    match survivors.find? (·.2) with
    | none => some (.error (.openControlsOnMinus (survivors.map (·.1))))
    | some target => do
      let r ← Reduction.controlled? .z (survivors.erase target) [target.1]
      return .ok ⟨r, none⟩

/-- The same as `reduce`, but nothing at all where a count is no word, a wire is not tracked, there
is no room for the controls, or a gate or fragment cannot be made. -/
def reduce? (node : NodeId) (g : BaseGate) (p : Polarity) (wires : List Wire) (t : Tracking) :
    Option (Except ReductionError Decision) := do
  let needed ← (Gate.controlled g p).countedArity.toOption
  if wires.length ≠ needed then
    return .error (.controlOperands g.name needed node wires.length)
  else if p.isEmpty then return .ok ⟨.keep, none⟩
  else if wires.length < p.length then none
  else match (wires.drop p.length).getLast? with
    | none => return .error (.controlOperands g.name p.length node 0)
    | some target =>
      let flipped ← if g = .x then t.get? target else some .unknown
      if flipped = .plus then return .ok ⟨.remove, some .idleTarget⟩
      else
        let _ ← (Word.reserve p.length 16).toOption
        let result ← survey? t (pairs p wires)
        match result with
        | .contradicted w => return .ok ⟨.remove, some (.neverFires w)⟩
        | .surviving survivors =>
          if flipped = .minus then kickback? survivors
          else if survivors.length = p.length then return .ok ⟨.keep, none⟩
          else
            let r ← Reduction.controlled? g survivors (wires.drop p.length)
            return .ok ⟨r, none⟩

end Controls

namespace Swaps

/-- The same as `reduce`, but nothing at all where a wire is not tracked, the table has no entry, or
a fragment cannot be made. -/
def reduce? (node : NodeId) (wires : List Wire) (t : Tracking) :
    Option (Except ReductionError Decision) :=
  match wires with
  | [top, bottom] => do
    let s ← t.get? top
    let r ← t.get? bottom
    if s = r then
      if s = .unknown then return .ok ⟨.keep, none⟩ else return .ok ⟨.remove, none⟩
    else
      let (steps, o) ← lookup? s r
      let k ← Reduction.build? (steps.map (·.op o)) [top, bottom]
      return .ok ⟨k, some (.swapTable s r o)⟩
  | _ => some (.error (.swapOperands node wires.length))

end Swaps

def Rule.decide? (rule : Rule) (node : NodeId) (op : Operation) (t : Tracking) :
    Option (Except ReductionError (Option Decision)) :=
  match rule, op.gate with
  | .controls, .controlled g p => (Controls.reduce? node g p op.wires t).map (·.map some)
  | .swaps, .base .swap => (Swaps.reduce? node op.wires t).map (·.map some)
  | _, _ => some (.ok none)

def Reduction.commit? (r : Reduction) (c : Circuit) (id : NodeId) :
    Option (Except CircuitError (Outcome × Circuit)) :=
  match r with
  | .keep => some (.ok (.kept, c))
  | .remove => (c.remove? id).map (·.map fun x => (.removed, x.2))
  | .substitute f ws => (c.substitute? id f ws).map (·.map fun x => (.substituted, x.2))

/-- The same as `track`, but nothing at all where a local wire has no name. -/
def Finding.track? (f : Finding) (t : Tracking) : Option Tracking :=
  match f.rule, f.decision.reduction with
  | .controls, .substitute fragment ws => do
    let ops ← fragment.ops.mapM fun op => do
      let us ← op.wires.mapM fun k => ws[k]?
      return Operation.mk op.gate us
    return ops.foldl Tracking.propagate t
  | _, _ => some (f.track t)

namespace Progress

def visit? (o : Options) (p : Progress) (id : NodeId) :
    Option (Except ReductionError (Outcome × Progress)) :=
  match p.circuit.node? id with
  | none => some (.error (.circuit (.missingNode id)))
  | some n =>
    match o.rule? n.gate.kind with
    | none =>
      some (.ok (.kept, ⟨p.circuit, p.states.propagate n.op, p.report.record .kept⟩))
    | some rule => do
      match ← rule.decide? id n.op p.states with
      | .error e => return .error e
      | .ok none => return .ok (.kept, ⟨p.circuit, p.states, p.report.record .kept⟩)
      | .ok (some d) =>
        match ← d.reduction.commit? p.circuit id with
        | .error e => return .error (.circuit e)
        | .ok (outcome, c) =>
          let t ← Finding.track? ⟨rule, id, n.op, d⟩ p.states
          return .ok (outcome, ⟨c, t, p.report.record outcome⟩)

def walk? (o : Options) (p : Progress) : List NodeId → Option (Progress × Option ReductionError)
  | [] => some (p, none)
  | id :: ids => do
    match ← p.visit? o id with
    | .ok (_, next) => next.walk? o ids
    | .error e => return (p, some e)

end Progress

/-- The same as `run`, but nothing at all where a traversal, a visit or the storage of the states
fails in another way than by an error of the pass. -/
def Pass.run? (p : Pass) (c : Circuit) :
    Option (Pass × Circuit × Except ReductionError Report) := do
  let states ← (Tracking.allocate c.width).toOption
  let order ← c.order?
  match ← Progress.walk? p.options ⟨c, states, .empty⟩ order with
  | (last, none) => return (⟨p.options, some last.states⟩, last.circuit, .ok last.report)
  | (last, some e) => return (⟨p.options, none⟩, last.circuit, .error e)

end Checked

/-- The number of wires of a circuit for which there is storage. -/
def Roomy (n : Nat) : Prop :=
  n * 16 < 9223372036854775808

theorem Roomy.of_allocate {n : Nat} {c : Circuit} (h : Circuit.allocate n = .ok c) : Roomy n := by
  unfold Circuit.allocate Word.reserve at h
  split at h
  next hn => exact hn
  next => cases h

theorem Operation.Fits.check {op : Operation} {n : Nat} (h : op.Fits n) (hn : Roomy n) :
    op.check n = .ok () := by
  have hle := h.length_le
  have harity : op.gate.arity < 18446744073709551616 := by
    rw [← h.arity_eq]
    unfold Roomy at hn
    omega
  exact h.check_of_counted (if_pos harity)

theorem Fragment.build?_eq {n : Nat} (hn : Roomy n) {ops : List Operation}
    (h : ∀ op ∈ ops, op.Fits n) : build? n ops = some ⟨n, ops⟩ := by
  have hfold : ∀ done, ops.foldlM (fun f op => (f.push op).toOption) (Fragment.mk n done) =
      some ⟨n, done ++ ops⟩ := by
    induction ops with
    | nil => simp
    | cons op ops ih =>
      intro done
      have hpush : (Fragment.mk n done).push op = .ok ⟨n, done ++ [op]⟩ := by
        simp only [push, (h op (by simp)).check hn]
        rfl
      rw [List.foldlM_cons, hpush]
      change ops.foldlM _ (Fragment.mk n (done ++ [op])) = _
      rw [ih fun a ha => h a (by simp [ha])]
      simp
  exact hfold []

theorem Roomy.of_le {m n : Nat} (hn : Roomy n) (h : m ≤ n) : Roomy m :=
  Nat.lt_of_le_of_lt (Nat.mul_le_mul_right 16 h) hn

namespace Reduction

theorem build?_eq {f : Fragment} {ws : List Wire} (hf : f.Fits) (hwidth : f.width = ws.length)
    (hn : Roomy ws.length) : build? f.ops ws = some (.substitute f ws) := by
  obtain ⟨width, ops⟩ := f
  obtain rfl : width = ws.length := hwidth
  rw [build?, Fragment.build?_eq hn hf]
  rfl

theorem controlled?_eq {g : BaseGate} {cs : List (Wire × Bool)} {targets : List Wire}
    {op : Operation} (h : (Controls.strip g cs targets).StaysOn op)
    (hn : Roomy (cs.map (·.1) ++ targets).length) :
    controlled? g cs targets = some (Controls.strip g cs targets) := by
  obtain ⟨hf, hwidth, _, _⟩ := h _ _ rfl
  have hbuild := build?_eq hf hwidth hn
  unfold controlled?
  cases cs with
  | nil => exact hbuild
  | cons c cs => exact hbuild

end Reduction

namespace Controls

variable {node : NodeId} {g : BaseGate} {p : Polarity} {wires : List Wire} {t : Tracking}

theorem survey?_eq (t : Tracking) (cs : List (Wire × Bool)) :
    survey? t cs = (survey t cs).toOption := by
  induction cs with
  | nil => rfl
  | cons c cs ih =>
    obtain ⟨w, required⟩ := c
    simp only [survey?, survey]
    cases hs : t.get? w with
    | none => simp [Tracking.look, Tracking.read, hs, Except.mapError, bind, Except.bind,
        Except.toOption]
    | some s =>
      simp only [Tracking.look_of_get? hs, bind, Except.bind, Option.bind_some, ih]
      cases s.bit? with
      | some b =>
        by_cases hb : b = required
        · simp only [hb, ↓reduceIte]
        · simp only [hb, ↓reduceIte]
          rfl
      | none =>
        cases survey t cs with
        | error e => rfl
        | ok result => cases result <;> rfl

theorem kickback?_eq {S : List (Wire × Bool)} (hn : (S.map (·.1)).Nodup) (hroom : Roomy S.length) :
    kickback? S = some (kickback S) := by
  have hstay : ∀ d, kickback S = .ok d → d.reduction.StaysOn ⟨.reset, S.map (·.1)⟩ :=
    fun d h => kickback_staysOn h hn fun c hc => List.mem_map.mpr ⟨c, hc, rfl⟩
  cases S with
  | nil => rfl
  | cons c S =>
    cases S with
    | nil =>
      have hz := @Reduction.controlled?_eq .z [] [c.1] _ (hstay _ rfl) hroom
      simp only [kickback?, hz]
      rfl
    | cons d S =>
      cases hfind : (c :: d :: S).find? (·.2) with
      | none => simp only [kickback?, kickback, hfind]
      | some target =>
        have hm := List.mem_of_find?_eq_some hfind
        have hlen : ((c :: d :: S).erase target).length = S.length + 1 := by
          rw [List.length_erase_of_mem hm]
          rfl
        -- of two survivors or more, one at least is left to control the phase flip
        have hstrip : Controls.strip .z ((c :: d :: S).erase target) [target.1] =
            .single (.controlled .z ⟨((c :: d :: S).erase target).map (·.2)⟩)
              (((c :: d :: S).erase target).map (·.1) ++ [target.1]) := by
          cases he : (c :: d :: S).erase target with
          | nil =>
            rw [he] at hlen
            cases hlen
          | cons a as => rfl
        have hkick : kickback (c :: d :: S) =
            .ok ⟨Controls.strip .z ((c :: d :: S).erase target) [target.1], none⟩ := by
          rw [hstrip]
          simp only [kickback, hfind]
        have hz := Reduction.controlled?_eq (hstay _ hkick) (by simpa [hlen] using hroom)
        rw [hkick]
        simp only [kickback?, hfind, hz]
        rfl

theorem survivors_nodup {n : Nat} (hfits : (Operation.mk (.controlled g p) wires).Fits n) :
    ((survivors t (pairs p wires)).map (·.1)).Nodup := by
  obtain ⟨hn, _, _⟩ := List.nodup_append'.mp (split_nodup hfits)
  have hsub : (survivors t (pairs p wires)).Sublist (pairs p wires) := List.filter_sublist
  exact (hsub.map (·.1)).nodup hn

theorem reduce?_eq (hfits : (Operation.mk (.controlled g p) wires).Fits t.size)
    (hroom : Roomy t.size) : reduce? node g p wires t = some (reduce node g p wires t) := by
  have hlen : wires.length = p.length + g.arity := hfits.arity_eq
  have hle : p.length + g.arity ≤ t.size := hlen ▸ hfits.length_le
  have hcount : (Gate.controlled g p).countedArity.toOption = some (p.length + g.arity) := by
    have hword : p.length + g.arity < 18446744073709551616 := by
      unfold Roomy at hroom
      omega
    unfold Gate.countedArity Word.fitCount
    rw [if_pos (show (Gate.controlled g p).arity < _ from hword)]
    rfl
  have hreserve : (Word.reserve p.length 16).toOption = some () := by
    have hp : p.length * 16 < 9223372036854775808 := hroom.of_le (by omega)
    rw [Word.reserve, if_pos hp]
    rfl
  have hsurvey := survey?_eq t (pairs p wires)
  rw [survey_eq (pairs_lt hfits)] at hsurvey
  change survey? t (pairs p wires) = some _ at hsurvey
  rw [reduce_eq hfits]
  simp only [reduce?, hcount, bind, Option.bind_some, hlen, ne_eq, not_true_eq_false, ↓reduceIte]
  by_cases hp : p.isEmpty = true
  · rw [if_pos hp, if_pos hp]
    rfl
  · rw [if_neg hp, if_neg hp, if_neg (by omega)]
    cases htarget : (wires.drop p.length).getLast? with
    | none => rfl
    | some target =>
      obtain ⟨s, hs⟩ := Tracking.get?_of_lt (hfits.lt_width target (target_mem htarget))
      have hsub : (survivors t (pairs p wires)).Sublist (pairs p wires) := List.filter_sublist
      have hsublen := hsub.length_le
      rw [length_pairs hfits] at hsublen
      have hkick := kickback?_eq (survivors_nodup (t := t) hfits) (hroom.of_le (by omega))
      have hstrip := Reduction.controlled?_eq (strip_staysOn hfits hsub)
        (hroom.of_le (by simp only [List.length_append, List.length_map, List.length_drop]; omega))
      simp only [settle, hs, hreserve, hsurvey, Option.bind_some, length_pairs hfits,
        Option.some.injEq]
      by_cases hg : g = .x
      · simp only [hg, ↓reduceIte, true_and]
        split
        next => rfl
        next =>
          cases (pairs p wires).find? (contradicts t) with
          | some c => rfl
          | none =>
            simp only
            split
            next => exact hkick
            next =>
              split
              next => rfl
              next =>
                rw [← hg, hstrip]
                rfl
      · simp only [hg, ↓reduceIte, false_and, reduceCtorEq]
        cases (pairs p wires).find? (contradicts t) with
        | some c => rfl
        | none =>
          simp only
          split
          next => rfl
          next =>
            rw [hstrip]
            rfl

end Controls

theorem Swaps.reduce?_eq {node : NodeId} {wires : List Wire} {t : Tracking}
    (hfits : (Operation.mk (.base .swap) wires).Fits t.size) (hroom : Roomy t.size) :
    reduce? node wires t = some (reduce node wires t) := by
  obtain ⟨top, bottom, s, r, rfl, hs, hr, hreduce⟩ := @Swaps.reduce_eq node wires t hfits
  have hstay := Swaps.reduce_staysOn hreduce hfits.nodup
  rw [hreduce]
  simp only [reduce?, hs, hr, bind, Option.bind_some, decide]
  split
  next => split <;> rfl
  next hne =>
    obtain ⟨⟨steps, o⟩, hlookup⟩ := Option.isSome_iff_exists.mp (lookup_isSome hne)
    obtain ⟨hf, hwidth, _, _⟩ := hstay ⟨2, steps.map (·.op o)⟩ [top, bottom] (by
      simp only [decide, if_neg hne, hlookup])
    have hbuild := Reduction.build?_eq hf hwidth (hroom.of_le hfits.length_le)
    simp only [hlookup, Option.bind_some, hbuild]
    rfl

theorem Rule.decide?_eq {rule : Rule} {node : NodeId} {op : Operation} {t : Tracking}
    (hfits : op.Fits t.size) (hroom : Roomy t.size) :
    rule.decide? node op t = some (rule.decision? node op t) := by
  obtain ⟨gate, wires⟩ := op
  cases rule with
  | controls =>
    cases gate with
    | controlled g p =>
      simp only [decide?, decision?, Controls.reduce?_eq hfits hroom]
      cases Controls.reduce node g p wires t <;> rfl
    | _ => rfl
  | swaps =>
    cases gate with
    | base g =>
      cases g with
      | swap =>
        simp only [decide?, decision?, Swaps.reduce?_eq hfits hroom]
        cases Swaps.reduce node wires t <;> rfl
      | _ => rfl
    | _ => rfl

theorem Rule.decision_staysOn {rule : Rule} {node : NodeId} {op : Operation} {t : Tracking}
    {d : Decision} (h : rule.decision? node op t = .ok (some d)) (hfits : op.Fits t.size) :
    d.reduction.StaysOn op := by
  obtain ⟨gate, wires⟩ := op
  unfold decision? at h
  split at h
  next g p hgate =>
    obtain rfl : gate = .controlled g p := hgate
    obtain ⟨d', hd, h⟩ := except_bind_eq_ok.mp h
    obtain rfl := Option.some.inj (Except.ok.inj h)
    exact Controls.reduce_staysOn hd hfits
  next hgate =>
    obtain rfl : gate = .base .swap := hgate
    obtain ⟨d', hd, h⟩ := except_bind_eq_ok.mp h
    obtain rfl := Option.some.inj (Except.ok.inj h)
    exact Swaps.reduce_staysOn hd hfits.nodup
  next => cases h

theorem Reduction.commit?_eq {r : Reduction} {c : Circuit} {L : List NodeId} (h : c.Linked L)
    (id : NodeId) (hr : ∀ f ws, r = .substitute f ws → f.Fits) :
    r.commit? c id = some (r.commit c id) := by
  cases r with
  | keep => rfl
  | remove =>
    simp only [commit?, commit, h.remove?_eq, Option.map_some]
    cases c.remove id <;> rfl
  | substitute f ws =>
    simp only [commit?, commit, h.substitute?_eq id (hr f ws rfl), Option.map_some]
    cases c.substitute id f ws <;> rfl

theorem Finding.track?_eq {f : Finding} (t : Tracking)
    (h : ∀ fragment ws, f.decision.reduction = .substitute fragment ws →
      fragment.Fits ∧ fragment.width = ws.length) : f.track? t = some (f.track t) := by
  obtain ⟨rule, node, op, ⟨r, remark⟩⟩ := f
  cases rule with
  | swaps => rfl
  | controls =>
    cases r with
    | keep => rfl
    | remove => rfl
    | substitute fragment ws =>
      obtain ⟨hf, hwidth⟩ := h fragment ws rfl
      have hops : (fragment.ops.mapM fun op => do
          let us ← op.wires.mapM fun k => ws[k]?
          return Operation.mk op.gate us) = some (fragment.ops.map (·.onto ws)) := by
        apply Circuit.mapM_eq_some
        intro op hop
        have hfit : op.Fits ws.length := hwidth ▸ hf op hop
        rw [Circuit.mapM_eq_some fun k hk => hfit.getElem? hk]
        rfl
      simp only [track?, hops]
      rfl

namespace Progress

variable {o : Options} {p : Progress} {done ids later : List NodeId} {id : NodeId}

theorem visit?_eq (hl : p.circuit.Linked ids) (hsize : p.states.size = p.circuit.width)
    (hroom : Roomy p.circuit.width) (id : NodeId) : p.visit? o id = some (p.visit o id) := by
  unfold visit? visit handle
  cases hn : p.circuit.node? id with
  | none => rfl
  | some n =>
    have hop : p.circuit.op? id = some n.op := by simp [Circuit.op?, hn]
    have hfits : n.op.Fits p.states.size := hsize ▸ hl.op_fits hop
    simp only
    cases hrule : o.rule? n.gate.kind with
    | none => rfl
    | some rule =>
      simp only [Rule.apply, Rule.find, hn, Rule.decide?_eq hfits (hsize ▸ hroom), bind,
        Option.bind_some]
      cases hd : rule.decision? id n.op p.states with
      | error e => rfl
      | ok found =>
        cases found with
        | none => rfl
        | some d =>
          have hstay := Rule.decision_staysOn hd hfits
          have hcommit := Reduction.commit?_eq hl id fun f ws hr => (hstay f ws hr).1
          have htrack := Finding.track?_eq (f := ⟨rule, id, n.op, d⟩) p.states fun f ws hr =>
            ⟨(hstay f ws hr).1, (hstay f ws hr).2.1⟩
          simp only [hcommit, htrack, Option.bind_some, Except.bind, pure, Except.pure,
            Option.map_some, Finding.simplify, bind]
          cases d.reduction.commit p.circuit id <;> rfl

theorem walk?_eq (hl : p.circuit.Linked (done ++ (ids ++ later)))
    (hsize : p.states.size = p.circuit.width) (hroom : Roomy p.circuit.width) :
    p.walk? o ids = some (p.walk o ids) := by
  induction ids generalizing p done with
  | nil => rfl
  | cons id ids ih =>
    obtain ⟨op, hop⟩ := Option.isSome_iff_exists.mp ((hl.mem_iff_op id).mp (by simp))
    have hfits : op.Fits p.states.size := hsize ▸ hl.op_fits hop
    simp only [walk?, walk, visit?_eq hl hsize hroom id, bind, Option.bind_some]
    cases hplan : o.plan p.states op with
    | none =>
      obtain ⟨_, _, e, _, _, _, hvisit⟩ := visit_of_no_plan hop hfits hplan
      rw [hvisit]
      rfl
    | some plan =>
      obtain ⟨r, acts⟩ := plan
      obtain ⟨m, new, hvisit, _, hm⟩ := swept_visit hl hop hfits hplan
      have hl' : m.circuit.Linked ((done ++ new) ++ (ids ++ later)) := by simpa using hm.linked
      rw [hvisit]
      exact ih hl' (by rw [hm.states_size, hm.width_eq, hsize]) (hm.width_eq ▸ hroom)

end Progress

/-- A run over a circuit for which there is storage meets nothing that it could not deal with. -/
theorem Pass.run?_eq {c : Circuit} (h : c.Linked c.order) (hroom : Roomy c.width) (pass : Pass) :
    pass.run? c = some (pass.run c) := by
  have hstates : (Tracking.allocate c.width).toOption = some (Tracking.initial c.width) := by
    have hbytes : c.width * 1 < 9223372036854775808 := by
      unfold Roomy at hroom
      omega
    simp only [Tracking.allocate, Word.reserve, hbytes, ↓reduceIte]
    rfl
  have hl : (Progress.start c).circuit.Linked ([] ++ (c.order ++ [])) := by
    rw [List.nil_append, List.append_nil]
    exact h
  have hwalk := @Progress.walk?_eq pass.options _ _ _ _ hl (Progress.start_size c) hroom
  change Progress.walk? pass.options ⟨c, .initial c.width, .empty⟩ c.order = _ at hwalk
  simp only [run?, run, hstates, h.order?_eq, hwalk, bind, Option.bind_some]
  rcases (Progress.start c).walk pass.options c.order with ⟨last, _ | e⟩ <;> rfl

end BasisFlow
