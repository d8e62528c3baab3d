import BasisFlow.Proofs.Sweep

namespace BasisFlow

namespace Progress

open Circuit

variable {o : Options} {p q : Progress} {id : NodeId} {op : Operation}

section Visit

theorem visit_unruled (hop : p.circuit.op? id = some op) (h : o.rule? op.gate.kind = none) :
    p.visit o id =
      .ok (.kept, ⟨p.circuit, p.states.propagate op, p.report.record .kept⟩) := by
  obtain ⟨n, hn, rfl⟩ := Option.map_eq_some_iff.mp hop
  have hrule : o.rule? n.gate.kind = none := h
  simp only [visit, handle, hn, hrule]
  rfl

variable {rule : Rule}

theorem visit_undecided (hop : p.circuit.op? id = some op)
    (h : o.rule? op.gate.kind = some rule) {e : ReductionError}
    (hd : rule.decision? id op p.states = .error e) : p.visit o id = .error e := by
  obtain ⟨n, hn, rfl⟩ := Option.map_eq_some_iff.mp hop
  have hrule : o.rule? n.gate.kind = some rule := h
  simp only [visit, handle, hn, hrule, Rule.apply, Rule.find, hd]
  rfl

theorem visit_decided (hop : p.circuit.op? id = some op)
    (h : o.rule? op.gate.kind = some rule) {d : Decision}
    (hd : rule.decision? id op p.states = .ok (some d)) {outcome : Outcome} {c : Circuit}
    (hc : d.reduction.commit p.circuit id = .ok (outcome, c)) :
    p.visit o id =
      .ok (outcome, ⟨c, Finding.track ⟨rule, id, op, d⟩ p.states, p.report.record outcome⟩) := by
  obtain ⟨n, hn, rfl⟩ := Option.map_eq_some_iff.mp hop
  have hrule : o.rule? n.gate.kind = some rule := h
  simp only [visit, handle, hn, hrule, Rule.apply, Rule.find, hd, bind, Except.bind, pure, Except.pure,
    Option.map_some, Finding.simplify, hc, Except.mapError]

end Visit

theorem ok_of_toOption {ε α : Type} {x y : Except ε α} {a : α} (h : x.toOption = y.toOption)
    (hx : x = .ok a) : y = .ok a := by
  rw [hx] at h
  cases y with
  | ok b => rw [Option.some.inj h]
  | error e => cases h

/-- A visit carries out the plan for its node. -/
theorem visit_of_plan (hop : p.circuit.op? id = some op) (hfits : op.Fits p.states.size)
    {r : Reduction} {acts : List Operation} (h : o.plan p.states op = some (r, acts)) :
    ∃ c, r.commit p.circuit id = .ok (r.outcome, c) ∧
      p.visit o id = .ok (r.outcome,
        ⟨c, acts.foldl Tracking.propagate p.states, p.report.record r.outcome⟩) := by
  obtain ⟨c, hcommit⟩ := (Options.plan_staysOn h hfits).commit hop
  refine ⟨c, hcommit, ?_⟩
  obtain ⟨gate, wires⟩ := op
  rcases Options.plan_cases h with ⟨hrule, rfl, rfl⟩ | ⟨g, pol, d, rfl, hon, hd, rfl, rfl⟩ |
      ⟨d, rfl, hon, hd, rfl, rfl⟩
  · cases hcommit
    exact visit_unruled hop hrule
  · have hrule : o.rule? (Gate.controlled g pol).kind = some .controls := by
      simp [Gate.kind, Options.rule?, hon]
    have hd' := ok_of_toOption (Controls.reduce_node id) hd
    have hdecision : Rule.controls.decision? id ⟨.controlled g pol, wires⟩ p.states =
        .ok (some d) := by
      simp only [Rule.decision?, hd']
      rfl
    rw [visit_decided hop hrule hdecision hcommit, Finding.track_controls]
  · have hrule : o.rule? (Gate.base .swap).kind = some .swaps := by
      simp [Gate.kind, BaseGate.kind, Options.rule?, hon]
    have hd' := ok_of_toOption (Swaps.reduce_node id) hd
    have hdecision : Rule.swaps.decision? id ⟨.base .swap, wires⟩ p.states = .ok (some d) := by
      simp only [Rule.decision?, hd']
      rfl
    obtain ⟨top, bottom, rfl⟩ := List.length_eq_two.mp hfits.arity_eq
    rw [visit_decided hop hrule hdecision hcommit, Finding.track_swaps hd']
    rfl

/-- Without a plan a visit fails, with the error that the decision on a controlled gate gives. -/
theorem visit_of_no_plan (hop : p.circuit.op? id = some op) (hfits : op.Fits p.states.size)
    (h : o.plan p.states op = none) :
    ∃ g pol e, op.gate = .controlled g pol ∧ o.controls = true ∧
      Controls.reduce id g pol op.wires p.states = .error e ∧ p.visit o id = .error e := by
  obtain ⟨g, pol, e₀, hgate, hon, he₀⟩ := Options.plan_eq_none h hfits
  obtain ⟨gate, wires⟩ := op
  obtain rfl : gate = .controlled g pol := hgate
  cases hd : Controls.reduce id g pol wires p.states with
  | ok d =>
    rw [ok_of_toOption (Controls.reduce_node 0) hd] at he₀
    cases he₀
  | error e =>
    refine ⟨g, pol, e, rfl, hon, hd, ?_⟩
    have hrule : o.rule? (Gate.controlled g pol).kind = some .controls := by
      simp [Gate.kind, Options.rule?, hon]
    apply visit_undecided hop hrule
    simp only [Rule.decision?, hd]
    rfl

/-- A successful walk from `p` to `q` over the nodes `ids`, which lie between the nodes `done` and
`later`: it sweeps their operations and puts the nodes `new` in their place. -/
structure Swept (o : Options) (p q : Progress) (done ids new later : List NodeId)
    (es : List Treatment) : Prop where
  walk_eq : p.walk o ids = (q, none)
  sweep_eq : o.sweep p.states (p.circuit.opsAlong ids) = some (es, q.states)
  report_eq : q.report = es.foldl (fun r e => r.record e.outcome) p.report
  linked : q.circuit.Linked (done ++ (new ++ later))
  new_ops : new.map q.circuit.op? = (es.flatMap (·.ops)).map some
  old_same : ∀ x ∈ done ++ later, q.circuit.op? x = p.circuit.op? x
  width_eq : q.circuit.width = p.circuit.width
  kept_same : ∀ id ∈ ids, ∃ e ∈ es, p.circuit.op? id = some e.op ∧
    (e.outcome = .kept → id ∈ new ∧ q.circuit.op? id = some e.op)
  unchanged : (∀ e ∈ es, e.outcome = .kept) → q.circuit = p.circuit

variable {done ids new later : List NodeId} {es : List Treatment}

theorem Swept.states_size (h : p.Swept o q done ids new later es) :
    q.states.size = p.states.size :=
  Options.sweep_size h.sweep_eq

theorem opsAlong_cons {c : Circuit} (h : c.op? id = some op) (L : List NodeId) :
    c.opsAlong (id :: L) = op :: c.opsAlong L :=
  List.filterMap_cons_some h

/-- A visit that succeeds sweeps one operation. -/
theorem swept_visit (hl : p.circuit.Linked (done ++ id :: later))
    (hop : p.circuit.op? id = some op) (hfits : op.Fits p.states.size) {r : Reduction}
    {acts : List Operation} (h : o.plan p.states op = some (r, acts)) :
    ∃ q new, p.visit o id = .ok (r.outcome, q) ∧
      o.treat p.states op = some (⟨op, r.outcome, r.result op⟩, q.states) ∧
      p.Swept o q done [id] new later [⟨op, r.outcome, r.result op⟩] := by
  obtain ⟨c, hcommit, hvisit⟩ := visit_of_plan hop hfits h
  have hstay := Options.plan_staysOn h hfits
  have htreat : o.treat p.states op = some (⟨op, r.outcome, r.result op⟩,
      acts.foldl Tracking.propagate p.states) := by
    rw [Options.treat, h]
    rfl
  -- a node that is kept is its own replacement, with the circuit as it was
  obtain ⟨new, hlinked, hnew, hold, hwidth, hkept⟩ : ∃ new, c.Linked (done ++ (new ++ later)) ∧
      new.map c.op? = (r.result op).map some ∧
      (∀ x ∈ done ++ later, c.op? x = p.circuit.op? x) ∧ c.width = p.circuit.width ∧
      (r.outcome = .kept → id ∈ new ∧ c = p.circuit) := by
    obtain ⟨new, hlinked, hnew, hold, hwidth⟩ :=
      Reduction.commit_spec hcommit hl hop fun f ws hr => (hstay f ws hr).1
    cases r with
    | keep =>
      cases hcommit
      exact ⟨[id], hl, by simp [Reduction.result, hop], hold, rfl, fun _ => ⟨by simp, rfl⟩⟩
    | remove => exact ⟨new, hlinked, hnew, hold, hwidth, fun hr => by cases hr⟩
    | substitute f ws => exact ⟨new, hlinked, hnew, hold, hwidth, fun hr => by cases hr⟩
  refine ⟨_, new, hvisit, htreat, ?_, ?_, rfl, hlinked, by simpa using hnew, hold, hwidth, ?_, ?_⟩
  · simp only [walk, hvisit]
  · rw [opsAlong_cons hop]
    exact Options.sweep_cons_eq_some.mpr ⟨_, _, [], htreat, rfl, rfl⟩
  · intro x hx
    obtain rfl := List.mem_singleton.mp hx
    refine ⟨_, List.mem_singleton_self _, hop, fun hr => ?_⟩
    obtain ⟨hid, rfl⟩ := hkept hr
    exact ⟨hid, hop⟩
  · intro hr
    exact (hkept (hr _ (List.mem_singleton_self _))).2

theorem walk_append (ids later : List NodeId) (h : p.walk o ids = (q, none)) :
    p.walk o (ids ++ later) = q.walk o later := by
  induction ids generalizing p with
  | nil =>
    cases h
    rfl
  | cons id ids ih =>
    rw [walk] at h
    rw [List.cons_append, walk]
    split at h
    next next hv => exact ih h
    next => cases h

/-- Walks follow each other. -/
theorem Swept.append {m : Progress} {ids' new' : List NodeId} {es' : List Treatment}
    (h : p.Swept o m done ids new (ids' ++ later) es)
    (h' : m.Swept o q (done ++ new) ids' new' later es') :
    p.Swept o q done (ids ++ ids') (new ++ new') later (es ++ es') := by
  have hlater : m.circuit.opsAlong ids' = p.circuit.opsAlong ids' := by
    apply List.filterMap_congr
    intro x hx
    exact h.old_same x (by simp [hx])
  have hsame : ∀ x ∈ done ++ (new ++ later), q.circuit.op? x = m.circuit.op? x := by
    intro x hx
    exact h'.old_same x (by simpa [or_assoc] using hx)
  refine ⟨?_, ?_, ?_, ?_, ?_, ?_, ?_, ?_, ?_⟩
  · rw [walk_append ids ids' h.walk_eq, h'.walk_eq]
  · rw [opsAlong_append]
    exact Options.sweep_append_eq_some.mpr
      ⟨es, m.states, es', h.sweep_eq, hlater ▸ h'.sweep_eq, rfl⟩
  · rw [h'.report_eq, h.report_eq, List.foldl_append]
  · simpa using h'.linked
  · have hnew : new.map q.circuit.op? = new.map m.circuit.op? :=
      List.map_congr_left fun x hx => hsame x (by simp [hx])
    rw [List.map_append, hnew, h.new_ops, h'.new_ops, List.flatMap_append, List.map_append]
  · intro x hx
    rcases List.mem_append.mp hx with hx | hx
    · rw [hsame x (by simp [hx]), h.old_same x (by simp [hx])]
    · rw [hsame x (by simp [hx]), h.old_same x (by simp [hx])]
  · rw [h'.width_eq, h.width_eq]
  · intro x hx
    rcases List.mem_append.mp hx with hx | hx
    · obtain ⟨e, he, hop, hkept⟩ := h.kept_same x hx
      refine ⟨e, by simp [he], hop, fun hk => ?_⟩
      obtain ⟨hnew, hm⟩ := hkept hk
      exact ⟨by simp [hnew], by rw [hsame x (by simp [hnew]), hm]⟩
    · obtain ⟨e, he, hop, hkept⟩ := h'.kept_same x hx
      refine ⟨e, by simp [he], (h.old_same x (by simp [hx])) ▸ hop, fun hk => ?_⟩
      obtain ⟨hnew, hq⟩ := hkept hk
      exact ⟨by simp [hnew], hq⟩
  · intro hk
    rw [h'.unchanged fun e he => hk e (by simp [he]), h.unchanged fun e he => hk e (by simp [he])]

/-- A walk sweeps the operations of its nodes, and fails where the sweep does. -/
theorem walk_sweep (hl : p.circuit.Linked (done ++ (ids ++ later)))
    (hsize : p.states.size = p.circuit.width) :
    (∃ q new es, p.Swept o q done ids new later es) ∨
      (o.sweep p.states (p.circuit.opsAlong ids) = none ∧
        ∃ q e, p.walk o ids = (q, some e)) := by
  induction ids generalizing p done with
  | nil =>
    refine Or.inl ⟨p, [], [], rfl, rfl, rfl, hl, rfl, fun _ _ => rfl, rfl, ?_, fun _ => rfl⟩
    intro id hid
    cases hid
  | cons id ids ih =>
    obtain ⟨op, hop⟩ := Option.isSome_iff_exists.mp ((hl.mem_iff_op id).mp (by simp))
    have hfits : op.Fits p.states.size := hsize ▸ hl.op_fits hop
    cases hplan : o.plan p.states op with
    | none =>
      obtain ⟨_, _, e, _, _, _, hvisit⟩ := visit_of_no_plan hop hfits hplan
      refine Or.inr ⟨?_, p, e, by simp only [walk, hvisit]⟩
      rw [opsAlong_cons hop]
      simp [Options.sweep, Options.treat, hplan]
    | some plan =>
      obtain ⟨r, acts⟩ := plan
      obtain ⟨m, new, hvisit, htreat, hm⟩ := swept_visit hl hop hfits hplan
      have hl' : m.circuit.Linked ((done ++ new) ++ (ids ++ later)) := by simpa using hm.linked
      rcases ih hl' (by rw [hm.states_size, hm.width_eq, hsize]) with
        ⟨q, new', es, hq⟩ | ⟨hsweep, q, e, hwalk⟩
      · exact Or.inl ⟨q, new ++ new', _ ++ es, hm.append hq⟩
      · refine Or.inr ⟨?_, q, e, by simp only [walk, hvisit, hwalk]⟩
        have hlater : m.circuit.opsAlong ids = p.circuit.opsAlong ids :=
          List.filterMap_congr fun x hx => hm.old_same x (by simp [hx])
        rw [hlater] at hsweep
        rw [opsAlong_cons hop]
        simp [Options.sweep, htreat, hsweep]

/-- The walk over the nodes of a circuit comes to a node, with what it has reached before it. -/
def Meets (o : Options) (c : Circuit) (id : NodeId) (p : Progress) : Prop :=
  ∃ visited rest, c.order = visited ++ id :: rest ∧ (start c).walk o visited = (p, none)

theorem start_size (c : Circuit) : (start c).states.size = (start c).circuit.width := by
  simp [start, Tracking.initial, Tracking.size]

theorem swept_of_walk {c : Circuit} (hl : c.Linked (ids ++ later))
    (h : (start c).walk o ids = (p, none)) : ∃ new es, (start c).Swept o p [] ids new later es := by
  rcases @walk_sweep o (start c) [] ids later hl (start_size c) with
    ⟨q, new, es, hq⟩ | ⟨_, q, e, hq⟩
  · obtain rfl := (Prod.mk.inj (hq.walk_eq.symm.trans h)).1
    exact ⟨new, es, hq⟩
  · cases (Prod.mk.inj (hq.symm.trans h)).2

theorem Meets.swept {c : Circuit} (h : Meets o c id p) (hl : c.Linked c.order) :
    ∃ visited rest new es, c.order = visited ++ id :: rest ∧
      (start c).Swept o p [] visited new (id :: rest) es := by
  obtain ⟨visited, rest, horder, hwalk⟩ := h
  obtain ⟨new, es, hs⟩ := swept_of_walk (horder ▸ hl) hwalk
  exact ⟨visited, rest, new, es, horder, hs⟩

/-- The outcome of a visit is that of the treatment of its operation. -/
theorem Swept.treatment_of_visit {c : Circuit} {last : Progress} (hl : c.Linked c.order)
    (h : (start c).Swept o last [] c.order new [] es) (hm : Meets o c id p) {outcome : Outcome}
    (hv : p.visit o id = .ok (outcome, q)) :
    ∃ e ∈ es, c.op? id = some e.op ∧ e.outcome = outcome := by
  obtain ⟨visited, rest, new', fs, horder, hp⟩ := hm.swept hl
  have hlp : p.circuit.Linked (new' ++ id :: rest) := hp.linked
  obtain ⟨op, hop⟩ := Option.isSome_iff_exists.mp ((hlp.mem_iff_op id).mp (by simp))
  have hopc : c.op? id = some op := (hp.old_same id (by simp)).symm.trans hop
  have hfits : op.Fits p.states.size := by
    rw [hp.states_size, start_size, ← hp.width_eq]
    exact hlp.op_fits hop
  cases hplan : o.plan p.states op with
  | none =>
    obtain ⟨_, _, e, _, _, _, hvisit⟩ := visit_of_no_plan hop hfits hplan
    rw [hvisit] at hv
    cases hv
  | some plan =>
    obtain ⟨r, acts⟩ := plan
    obtain ⟨q', _, hvisit, htreat, _⟩ := swept_visit hlp hop hfits hplan
    obtain ⟨rfl, _⟩ := Prod.mk.inj (Except.ok.inj (hvisit.symm.trans hv))
    -- the sweep over all nodes goes through the treatment of this one
    have hsweep := h.sweep_eq
    rw [horder, opsAlong_append] at hsweep
    obtain ⟨fs', u, gs, hfs', hgs, rfl⟩ := Options.sweep_append_eq_some.mp hsweep
    obtain ⟨rfl, rfl⟩ := Prod.mk.inj (Option.some.inj (hp.sweep_eq.symm.trans hfs'))
    rw [opsAlong_cons (show (start c).circuit.op? id = some op from hopc)] at hgs
    obtain ⟨e, u', hs, htreat', _, rfl⟩ := Options.sweep_cons_eq_some.mp hgs
    obtain ⟨rfl, _⟩ := Prod.mk.inj (Option.some.inj (htreat.symm.trans htreat'))
    exact ⟨⟨op, r.outcome, r.result op⟩, by simp, hopc, rfl⟩

/-- The circuit that a run over all nodes leaves. -/
theorem Swept.result {c : Circuit} {last : Progress} {ids : List NodeId}
    (h : (start c).Swept o last [] ids new [] es) :
    last.circuit.Linked new ∧ last.circuit.opsAlong new = es.flatMap (·.ops) := by
  have hl := h.linked
  rw [List.nil_append, List.append_nil] at hl
  exact ⟨hl, opsAlong_eq_of_map h.new_ops⟩

end Progress

namespace Pass

open Progress

variable {c : Circuit} {pass : Pass}

theorem run_of_swept {o : Options} {last : Progress} {new : List NodeId} {es : List Treatment}
    (h : (start c).Swept o last [] c.order new [] es) (states : Option Tracking) :
    (Pass.mk o states).run c = (⟨o, some last.states⟩, last.circuit, .ok last.report) := by
  simp only [run, h.walk_eq]

/-- A run is a sweep over the operations of the circuit, from all wires at zero. -/
theorem run_sweep (h : c.Linked c.order) (pass : Pass) :
    (∃ last new es, (start c).Swept pass.options last [] c.order new [] es ∧
      pass.run c = (⟨pass.options, some last.states⟩, last.circuit, .ok last.report)) ∨
    (pass.options.sweep (.initial c.width) c.ops = none ∧
      ∃ last e, pass.run c = (⟨pass.options, none⟩, last, .error e)) := by
  have hl : (start c).circuit.Linked ([] ++ (c.order ++ [])) := by
    rw [List.nil_append, List.append_nil]
    exact h
  rcases @walk_sweep pass.options _ _ _ _ hl (start_size c) with
    ⟨last, new, es, hs⟩ | ⟨hs, last, e, hw⟩
  · exact Or.inl ⟨last, new, es, hs, run_of_swept hs pass.states⟩
  · exact Or.inr ⟨hs, last.circuit, e, by simp only [run, hw]⟩

theorem run_swept (h : c.Linked c.order) {report : Report}
    (hok : (pass.run c).2.2 = .ok report) :
    ∃ last new es, (start c).Swept pass.options last [] c.order new [] es ∧
      pass.run c = (⟨pass.options, some last.states⟩, last.circuit, .ok last.report) := by
  rcases pass.run_sweep h with hswept | ⟨_, last, e, hrun⟩
  · exact hswept
  · rw [hrun] at hok
    cases hok

end Pass

end BasisFlow
