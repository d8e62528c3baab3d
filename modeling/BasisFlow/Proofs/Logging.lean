import BasisFlow.Pass.Log
import BasisFlow.Proofs.Failure

namespace BasisFlow

/-- The node of which an event tells the visit. -/
def Event.visited? : Event → Option NodeId
  | .visit node _ _ => some node
  | _ => none

/-- The change of which an event tells. -/
def Event.change? : Event → Option (NodeId × Outcome)
  | .reduction node outcome => some (node, outcome)
  | _ => none

/-- Events that tell the visits of nodes, in order, and those of their outcomes that are changes. -/
structure Tells (outcomes : List (NodeId × Outcome)) (events : List Event) : Prop where
  visits : events.filterMap Event.visited? = outcomes.map (·.1)
  changes : events.filterMap Event.change? = outcomes.filter (·.2 ≠ .kept)

theorem Tells.append {xs ys : List (NodeId × Outcome)} {es fs : List Event} (hx : Tells xs es)
    (hy : Tells ys fs) : Tells (xs ++ ys) (es ++ fs) :=
  ⟨by rw [List.filterMap_append, List.map_append, hx.visits, hy.visits],
    by rw [List.filterMap_append, List.filter_append, hx.changes, hy.changes]⟩

/-- The walk with events told before it. -/
def LoggedWalk.after (w : LoggedWalk) (told : List Event) : LoggedWalk :=
  ⟨w.last, w.error, told ++ w.events⟩

theorem LoggedWalk.after_after (w : LoggedWalk) (es fs : List Event) :
    (w.after fs).after es = w.after (es ++ fs) := by
  simp only [after, List.append_assoc]

/-- The gate of a node can be written. -/
def Circuit.Written (c : Circuit) (id : NodeId) : Prop :=
  ∃ op label, c.op? id = some op ∧ op.gate.label = .ok label

namespace Progress

variable {o : Options} {p q : Progress} {c : Circuit} {id : NodeId}
  {visited ids later : List NodeId}

theorem tells_visit (p : Progress) (id : NodeId) (n : Node) (label : String) (outcome : Outcome) :
    Tells [(id, outcome)]
      (.visit id label (p.statesAt n) :: p.remarks o id n ++ outcomeEvents id outcome) := by
  have hremarks : ∀ e ∈ p.remarks o id n, e.visited? = none ∧ e.change? = none := by
    intro e he
    unfold remarks at he
    split at he
    next => cases he
    next =>
      split at he
      next f _ =>
        obtain ⟨r, _, rfl⟩ := Option.map_eq_some_iff.mp (Option.mem_toList.mp he)
        exact ⟨rfl, rfl⟩
      next => cases he
  have hvisits : (p.remarks o id n).filterMap Event.visited? = [] :=
    List.filterMap_eq_nil_iff.mpr fun e he => (hremarks e he).1
  have hchanges : (p.remarks o id n).filterMap Event.change? = [] :=
    List.filterMap_eq_nil_iff.mpr fun e he => (hremarks e he).2
  constructor
  · rw [List.cons_append, List.filterMap_cons, List.filterMap_append, hvisits]
    cases outcome <;> rfl
  · rw [List.cons_append, List.filterMap_cons_none rfl, List.filterMap_append, hchanges]
    cases outcome <;> rfl

theorem op?_of_walk (hl : c.Linked (visited ++ later))
    (h : (start c).walk o visited = (p, none)) : ∀ x ∈ later, p.circuit.op? x = c.op? x := by
  obtain ⟨_, _, hs⟩ := swept_of_walk hl h
  exact hs.old_same

theorem report_of_visit {outcome : Outcome} (h : p.visit o id = .ok (outcome, q)) :
    q.report = p.report.record outcome := by
  obtain ⟨_, _, hreport, _⟩ := visit_cases h
  exact hreport

/-- A logged walk takes the steps of the walk as long as the gates of its nodes can be written. -/
theorem loggedWalk_append (hl : c.Linked (visited ++ (ids ++ later)))
    (hp : (start c).walk o visited = (p, none)) (hw : ∀ x ∈ ids, c.Written x) :
    (∃ q e told, p.walk o ids = (q, some e) ∧
      p.loggedWalk o (ids ++ later) = ⟨q, some (.reduction e), told⟩) ∨
    ∃ q outcomes told, p.walk o ids = (q, none) ∧ outcomes.map (·.1) = ids ∧
      Tells outcomes told ∧ q.report = outcomes.foldl (fun r x => r.record x.2) p.report ∧
      p.loggedWalk o (ids ++ later) = (q.loggedWalk o later).after told := by
  -- the walk up to `p` is kept, for by it the nodes ahead still have the gates of `c`
  induction ids generalizing p visited with
  | nil => exact .inr ⟨p, [], [], rfl, rfl, ⟨rfl, rfl⟩, rfl, rfl⟩
  | cons id ids ih =>
    obtain ⟨op, label, hop, hlabel⟩ := hw id (by simp)
    have hsame : p.circuit.op? id = some op := (op?_of_walk hl hp id (by simp)).trans hop
    obtain ⟨n, hn, rfl⟩ := Option.map_eq_some_iff.mp hsame
    change n.gate.label = .ok label at hlabel
    cases hv : p.visit o id with
    | error e =>
      refine .inl ⟨p, e, .visit id label (p.statesAt n) :: p.remarks o id n,
        by simp only [walk, hv], ?_⟩
      simp only [List.cons_append, loggedWalk, hn, hlabel, hv]
    | ok result =>
      obtain ⟨outcome, next⟩ := result
      have hnext : (start c).walk o (visited ++ [id]) = (next, none) := by
        rw [walk_append visited [id] hp, walk, hv]
        rfl
      have hstep := tells_visit (o := o) p id n label outcome
      have hlogged : p.loggedWalk o (id :: ids ++ later) =
          (next.loggedWalk o (ids ++ later)).after
            (.visit id label (p.statesAt n) :: p.remarks o id n ++ outcomeEvents id outcome) := by
        simp only [List.cons_append, loggedWalk, hn, hlabel, hv, LoggedWalk.after]
      have hlinked : c.Linked (visited ++ [id] ++ (ids ++ later)) := by simpa using hl
      rcases ih hlinked hnext fun x hx => hw x (by simp [hx]) with
        ⟨q, e, told, hwalk, hrest⟩ | ⟨q, outcomes, told, hwalk, hids, htells, hreport, hrest⟩
      · rw [hlogged, hrest]
        exact .inl ⟨q, e, _, by simp only [walk, hv, hwalk], rfl⟩
      · refine .inr ⟨q, (id, outcome) :: outcomes, _, by simp only [walk, hv, hwalk],
          by rw [List.map_cons, hids], hstep.append htells, ?_, ?_⟩
        · rw [hreport, List.foldl_cons, report_of_visit hv]
        · rw [hlogged, hrest, LoggedWalk.after_after]

theorem walk_append_error {e : ReductionError} (later : List NodeId)
    (h : p.walk o ids = (q, some e)) : p.walk o (ids ++ later) = (q, some e) := by
  obtain ⟨visited, id, rest, rfl, hwalk, hvisit⟩ := walk_error h
  rw [List.append_assoc, walk_append visited _ hwalk, List.cons_append, walk, hvisit]

end Progress

open Progress

/-- A run comes to a node whose gate cannot be written, with what it has reached before it. -/
def Pass.MeetsUnwritten (pass : Pass) (c : Circuit) (p : Progress) (fault : Fault) : Prop :=
  ∃ visited id rest op, c.order = visited ++ id :: rest ∧ (∀ x ∈ visited, c.Written x) ∧
    (start c).walk pass.options visited = (p, none) ∧ c.op? id = some op ∧
    op.gate.label = .error fault

namespace Pass

variable {c : Circuit} {pass : Pass} {p q : Progress} {fault : Fault}

theorem runLogged_of_error {e : LoggedError} {told : List Event}
    (h : (start c).loggedWalk pass.options c.order = ⟨q, some e, told⟩) :
    pass.runLogged c = ⟨⟨pass.options, none⟩, q.circuit, .error e, told.map Event.line⟩ := by
  simp only [runLogged, h]

theorem runLogged_of_end {told : List Event}
    (h : (start c).loggedWalk pass.options c.order = ⟨q, none, told⟩) :
    pass.runLogged c =
      ⟨⟨pass.options, some q.states⟩, q.circuit, .ok q.report, told.map Event.line⟩ := by
  simp only [runLogged, h]

theorem runLogged_of_meetsUnwritten (hl : c.Linked c.order) (h : pass.MeetsUnwritten c p fault) :
    ∃ log, pass.runLogged c =
      ⟨⟨pass.options, none⟩, p.circuit, .error (.arithmetic fault), log⟩ := by
  obtain ⟨visited, id, rest, op, horder, hw, hwalk, hop, hlabel⟩ := h
  have hlinked : c.Linked (visited ++ id :: rest) := horder ▸ hl
  obtain ⟨n, hn, rfl⟩ :=
    Option.map_eq_some_iff.mp ((op?_of_walk hlinked hwalk id (by simp)).trans hop)
  change n.gate.label = .error fault at hlabel
  have hstop : p.loggedWalk pass.options (id :: rest) = ⟨p, some (.arithmetic fault), []⟩ := by
    simp only [loggedWalk, hn, hlabel]
  have hstart : c.Linked ([] ++ (visited ++ id :: rest)) := hlinked
  rcases loggedWalk_append hstart rfl hw with
    ⟨q, e, told, hfails, _⟩ | ⟨q, outcomes, told, hends, _, _, _, hlogged⟩
  · cases hfails.symm.trans hwalk
  · cases hends.symm.trans hwalk
    rw [hstop, ← horder] at hlogged
    exact ⟨_, runLogged_of_error hlogged⟩

/-- How a logged run ends: before a node whose gate cannot be written, where the run fails, or where
it ends. -/
theorem runLogged_cases (hl : c.Linked c.order) (pass : Pass) :
    (∃ p fault, pass.MeetsUnwritten c p fault) ∨
    (∃ q e told, (start c).walk pass.options c.order = (q, some e) ∧
      (start c).loggedWalk pass.options c.order = ⟨q, some (.reduction e), told⟩) ∨
    ∃ q outcomes told, (start c).walk pass.options c.order = (q, none) ∧
      outcomes.map (·.1) = c.order ∧ Tells outcomes told ∧
      q.report = outcomes.foldl (fun r x => r.record x.2) .empty ∧
      (start c).loggedWalk pass.options c.order = ⟨q, none, told ++ [.finished q.report]⟩ := by
  classical
  cases hfind : c.order.find? fun id => ¬ c.Written id with
  | none =>
    have hw : ∀ x ∈ c.order, c.Written x := by simpa using hfind
    have hlinked : c.Linked ([] ++ (c.order ++ [])) := by simpa using hl
    rcases loggedWalk_append (o := pass.options) hlinked rfl hw with
      ⟨q, e, told, hwalk, hlogged⟩ | ⟨q, outcomes, told, hwalk, hids, htells, hreport, hlogged⟩
    · rw [List.append_nil] at hlogged
      exact .inr (.inl ⟨q, e, told, hwalk, hlogged⟩)
    · rw [List.append_nil] at hlogged
      exact .inr (.inr ⟨q, outcomes, told, hwalk, hids, htells, hreport, hlogged⟩)
  | some id =>
    obtain ⟨hid, visited, rest, horder, hbefore⟩ := List.find?_eq_some_iff_append.mp hfind
    have hw : ∀ x ∈ visited, c.Written x := by simpa using hbefore
    have hlinked : c.Linked ([] ++ (visited ++ id :: rest)) := by simpa [← horder] using hl
    rcases loggedWalk_append (o := pass.options) hlinked rfl hw with
      ⟨q, e, told, hwalk, hlogged⟩ | ⟨q, outcomes, told, hwalk, hids, htells, hreport, hlogged⟩
    · rw [← horder] at hlogged
      refine .inr (.inl ⟨q, e, told, ?_, hlogged⟩)
      rw [horder, walk_append_error _ hwalk]
    · obtain ⟨op, hop⟩ := Option.isSome_iff_exists.mp ((hl.mem_iff_op id).mp (by simp [horder]))
      cases hlabel : op.gate.label with
      | ok label =>
        have hwritten : c.Written id := ⟨op, label, hop, hlabel⟩
        simp [hwritten] at hid
      | error fault => exact .inl ⟨q, fault, visited, id, rest, op, horder, hw, hwalk, hop, hlabel⟩

end Pass

/-- Logging changes a run only if this comes to a node whose gate cannot be written, where a logged
run stops. The log of a successful run tells the visits of all nodes, in order, and at the end the
counts, which are those of the outcomes. Of these, it tells the changes. -/
theorem Circuit.Reachable.runLogged_agrees {width : Nat} {c : Circuit} (h : c.Reachable width)
    (pass : Pass) :
    let logged := pass.runLogged c
    (∀ p fault, pass.MeetsUnwritten c p fault → logged.pass = ⟨pass.options, none⟩ ∧
      logged.circuit = p.circuit ∧ logged.result = .error (.arithmetic fault)) ∧
    ((∀ p fault, ¬ pass.MeetsUnwritten c p fault) → logged.pass = (pass.run c).1 ∧
      logged.circuit = (pass.run c).2.1 ∧
      logged.result = (pass.run c).2.2.mapError .reduction) ∧
    ∀ report, logged.result = .ok report → ∃ outcomes told,
      logged.log = (told ++ [.finished report]).map Event.line ∧
      outcomes.map (·.1) = c.order ∧ Tells outcomes told ∧
      report = outcomes.foldl (fun r x => r.record x.2) .empty := by
  intro logged
  have hl := h.linked_of h.order_isTopological
  refine ⟨?_, ?_, ?_⟩
  · intro p fault hmeets
    obtain ⟨log, hlog⟩ : ∃ log, logged = _ := Pass.runLogged_of_meetsUnwritten hl hmeets
    rw [hlog]
    exact ⟨rfl, rfl, rfl⟩
  · intro hnone
    rcases Pass.runLogged_cases hl pass with
      ⟨p, fault, hmeets⟩ | ⟨q, e, told, hwalk, hlogged⟩ | ⟨q, _, told, hwalk, _, _, _, hlogged⟩
    · exact absurd hmeets (hnone p fault)
    · have hrun : logged = _ := Pass.runLogged_of_error hlogged
      simp only [Pass.run, hwalk, hrun]
      exact ⟨trivial, trivial, rfl⟩
    · have hrun : logged = _ := Pass.runLogged_of_end hlogged
      simp only [Pass.run, hwalk, hrun]
      exact ⟨trivial, trivial, rfl⟩
  · intro report hok
    rcases Pass.runLogged_cases hl pass with ⟨p, fault, hmeets⟩ | ⟨q, e, told, _, hlogged⟩ |
      ⟨q, outcomes, told, _, hids, htells, hreport, hlogged⟩
    · obtain ⟨log, hlog⟩ := Pass.runLogged_of_meetsUnwritten hl hmeets
      cases hok.symm.trans (congrArg LoggedRun.result hlog)
    · cases hok.symm.trans (congrArg LoggedRun.result (Pass.runLogged_of_error hlogged))
    · have hrun := Pass.runLogged_of_end hlogged
      cases hok.symm.trans (congrArg LoggedRun.result hrun)
      exact ⟨outcomes, told, congrArg LoggedRun.log hrun, hids, htells, hreport⟩

end BasisFlow
