import BasisFlow.Proofs.Guarded

namespace BasisFlow

namespace Controls

/-- Why there is no decision on an operation. Either its base gate has no wire although there are
controls, or it flips a target in the minus state, no control is known to be unsatisfied, and two or
more have no known bit, all of which have to be zero. -/
inductive Stuck (t : Tracking) (node : NodeId) : Operation → ReductionError → Prop
  | noTarget {g : BaseGate} {p : Polarity} {wires : List Wire} (controls : 0 < p.length)
      (bare : g.arity = 0) :
      Stuck t node ⟨.controlled g p, wires⟩ (.controlOperands g.name p.length node 0)
  | openControls {p : Polarity} {wires : List Wire} {target : Wire}
      (last : wires.getLast? = some target) (minus : t.get? target = some .minus)
      (satisfied : ∀ c ∈ pairs p wires, ∀ b, t.bit? c.1 = some b → b = c.2)
      (several : 2 ≤ (survivors t (pairs p wires)).length)
      (all_open : ∀ c ∈ survivors t (pairs p wires), c.2 = false) :
      Stuck t node ⟨.controlled .x p, wires⟩
        (.openControlsOnMinus ((survivors t (pairs p wires)).map (·.1)))

variable {node : NodeId} {g : BaseGate} {p : Polarity} {wires : List Wire} {t : Tracking}
  {e : ReductionError}

theorem kickback_error_iff {S : List (Wire × Bool)} :
    kickback S = .error e ↔
      2 ≤ S.length ∧ (∀ c ∈ S, c.2 = false) ∧ e = .openControlsOnMinus (S.map (·.1)) := by
  cases S with
  | nil => simp [kickback]
  | cons c S =>
    cases S with
    | nil => simp [kickback]
    | cons d S =>
      have hopen : (c :: d :: S).find? (·.2) = none ↔ ∀ a ∈ c :: d :: S, a.2 = false := by
        simp only [List.find?_eq_none, Bool.not_eq_true]
      rw [← hopen]
      cases hfind : (c :: d :: S).find? (·.2) with
      | none =>
        simp only [kickback, hfind, Except.error.injEq]
        simp [eq_comm]
      | some target => simp [kickback, hfind]

theorem find?_contradicts_iff {cs : List (Wire × Bool)} :
    cs.find? (contradicts t) = none ↔ ∀ c ∈ cs, ∀ b, t.bit? c.1 = some b → b = c.2 := by
  rw [List.find?_eq_none]
  constructor
  · intro h c hc b hb
    have hno := h c hc
    simp only [contradicts, hb, decide_eq_true_eq, Option.some.injEq] at hno
    cases b <;> cases hc2 : c.2 <;> simp_all
  · intro h c hc hyes
    have hb := h c hc (!c.2) (of_decide_eq_true hyes)
    cases hc2 : c.2 <;> simp_all

theorem settle_error_iff {cs : List (Wire × Bool)} {targets : List Wire} {target : Wire} :
    settle g cs targets target t = .error e ↔
      g = .x ∧ t.get? target = some .minus ∧
        (∀ c ∈ cs, ∀ b, t.bit? c.1 = some b → b = c.2) ∧
        kickback (survivors t cs) = .error e := by
  rw [← find?_contradicts_iff]
  unfold settle
  split
  next hplus => simp [hplus.2]
  next =>
    cases hfind : cs.find? (contradicts t) with
    | some c => simp
    | none =>
      simp only
      split
      next hminus => simp [hminus.1, hminus.2]
      next hminus =>
        have hno : ¬ (g = .x ∧ t.get? target = some .minus ∧ True ∧
            kickback (survivors t cs) = .error e) := fun h => hminus ⟨h.1, h.2.1⟩
        split <;> simpa using hno

/-- There is no decision on a controlled gate exactly if it is stuck. -/
theorem reduce_error_iff (hfits : (Operation.mk (.controlled g p) wires).Fits t.size) :
    reduce node g p wires t = .error e ↔ Stuck t node ⟨.controlled g p, wires⟩ e := by
  obtain ⟨_, _, hlen⟩ := split_wires hfits
  have hlast : ∀ target, (wires.drop p.length).getLast? = some target →
      wires.getLast? = some target := by
    intro target h
    rw [List.getLast?_drop] at h
    split at h
    next => cases h
    next => exact h
  rw [reduce_eq hfits]
  constructor
  · intro h
    split at h
    next => cases h
    next hp =>
      have hpos : 0 < p.length := by
        rw [Polarity.isEmpty, List.isEmpty_iff] at hp
        exact List.length_pos_iff.mpr hp
      cases htarget : (wires.drop p.length).getLast? with
      | none =>
        rw [htarget] at h
        cases h
        rw [List.getLast?_eq_none_iff.mp htarget] at hlen
        exact .noTarget hpos hlen.symm
      | some target =>
        rw [htarget] at h
        obtain ⟨rfl, hminus, hsatisfied, hkick⟩ := settle_error_iff.mp h
        obtain ⟨hseveral, hopen, rfl⟩ := kickback_error_iff.mp hkick
        exact .openControls (hlast target htarget) hminus hsatisfied hseveral hopen
  · intro h
    cases h with
    | noTarget hpos hbare =>
      have hp : ¬ p.isEmpty = true := by
        rw [Polarity.isEmpty, List.isEmpty_iff]
        exact List.length_pos_iff.mp hpos
      have hdrop : wires.drop p.length = [] := List.length_eq_zero_iff.mp (hlen.trans hbare)
      rw [if_neg hp, hdrop]
      rfl
    | openControls last minus satisfied several all_open =>
      have hsub : (survivors t (pairs p wires)).length ≤ (pairs p wires).length :=
        List.length_filter_le _ _
      rw [length_pairs hfits] at hsub
      have hp : ¬ p.isEmpty = true := by
        rw [Polarity.isEmpty, List.isEmpty_iff]
        exact List.length_pos_iff.mp (Nat.lt_of_lt_of_le (by omega) (several.trans hsub))
      have htarget : (wires.drop p.length).getLast? = wires.getLast? := by
        have harity : wires.length = p.length + 1 := hfits.arity_eq
        rw [List.getLast?_drop, if_neg (by omega)]
      rw [if_neg hp, htarget, last]
      exact settle_error_iff.mpr
        ⟨rfl, minus, satisfied, kickback_error_iff.mpr ⟨several, all_open, rfl⟩⟩

end Controls

namespace Progress

open Circuit Controls

variable {o : Options} {p q : Progress} {id : NodeId} {op : Operation} {e : ReductionError}

/-- A visit fails exactly if controlled gates are reduced and the operation of the node is stuck. -/
theorem visit_error_iff (hop : p.circuit.op? id = some op) (hfits : op.Fits p.states.size) :
    p.visit o id = .error e ↔ o.controls = true ∧ Stuck p.states id op e := by
  constructor
  · intro h
    cases hplan : o.plan p.states op with
    | none =>
      obtain ⟨g, pol, e', hgate, hon, hd, hvisit⟩ := visit_of_no_plan hop hfits hplan
      obtain rfl := Except.error.inj (hvisit.symm.trans h)
      obtain ⟨gate, wires⟩ := op
      obtain rfl : gate = .controlled g pol := hgate
      exact ⟨hon, (reduce_error_iff hfits).mp hd⟩
    | some plan =>
      obtain ⟨r, acts⟩ := plan
      obtain ⟨_, _, hvisit⟩ := visit_of_plan hop hfits hplan
      rw [hvisit] at h
      cases h
  · rintro ⟨hon, hstuck⟩
    obtain ⟨gate, wires⟩ := op
    obtain ⟨g, pol, rfl⟩ : ∃ g pol, gate = .controlled g pol := by
      cases hstuck with
      | noTarget => exact ⟨_, _, rfl⟩
      | openControls => exact ⟨_, _, rfl⟩
    have hrule : o.rule? (Gate.controlled g pol).kind = some .controls := by
      simp [Gate.kind, Options.rule?, hon]
    apply visit_undecided hop hrule
    simp only [Rule.decision?, (reduce_error_iff hfits).mpr hstuck]
    rfl

/-- A walk that fails stops before the first node whose visit fails. -/
theorem walk_error {ids : List NodeId} (h : p.walk o ids = (q, some e)) :
    ∃ visited id rest, ids = visited ++ id :: rest ∧ p.walk o visited = (q, none) ∧
      q.visit o id = .error e := by
  induction ids generalizing p with
  | nil => cases h
  | cons id ids ih =>
    rw [walk] at h
    split at h
    next outcome next hv =>
      obtain ⟨visited, id', rest, rfl, hwalk, hvisit⟩ := ih h
      exact ⟨id :: visited, id', rest, rfl, by rw [walk, hv]; exact hwalk, hvisit⟩
    next e' hv =>
      cases h
      exact ⟨[], id, ids, rfl, rfl, hv⟩

/-- A walk finds the node that it meets as it was, and those behind it too. -/
theorem Meets.visit_error_iff {c : Circuit} (hm : Meets o c id p) (hl : c.Linked c.order)
    (hop : c.op? id = some op) :
    p.visit o id = .error e ↔ o.controls = true ∧ Stuck p.states id op e := by
  obtain ⟨visited, rest, new, es, horder, hs⟩ := hm.swept hl
  have hsame : p.circuit.op? id = some op := (hs.old_same id (by simp)).trans hop
  apply Progress.visit_error_iff hsame
  rw [hs.states_size, start_size, ← hs.width_eq]
  exact hs.linked.op_fits hsame

end Progress

open Progress Controls

variable {c : Circuit} {pass : Pass} {e : ReductionError}

theorem Pass.run_of_visit_error {visited rest : List NodeId} {id : NodeId} {p : Progress}
    (horder : c.order = visited ++ id :: rest)
    (hwalk : (start c).walk pass.options visited = (p, none))
    (hvisit : p.visit pass.options id = .error e) :
    pass.run c = (⟨pass.options, none⟩, p.circuit, .error e) := by
  have hw : (start c).walk pass.options c.order = (p, some e) := by
    rw [horder, walk_append visited _ hwalk, walk, hvisit]
  simp only [run, hw]

/-- A run that fails has come to a node that is stuck, and has left it and those behind it alone. -/
theorem Pass.run_error (hl : c.Linked c.order) (h : (pass.run c).2.2 = .error e) :
    ∃ visited id rest p op, c.order = visited ++ id :: rest ∧
      (start c).walk pass.options visited = (p, none) ∧ c.op? id = some op ∧
      pass.options.controls = true ∧ Stuck p.states id op e ∧
      pass.run c = (⟨pass.options, none⟩, p.circuit, .error e) ∧
      ∀ x ∈ id :: rest, p.circuit.op? x = c.op? x := by
  cases hw : (start c).walk pass.options c.order with
  | mk last err =>
    cases err with
    | none =>
      simp only [run, hw] at h
      cases h
    | some e' =>
      have herror : e' = e := by
        simp only [run, hw] at h
        exact Except.error.inj h
      subst herror
      obtain ⟨visited, id, rest, horder, hwalk, hvisit⟩ := walk_error hw
      have hm : Meets pass.options c id last := ⟨visited, rest, horder, hwalk⟩
      have hid : id ∈ c.order := by simp [horder]
      obtain ⟨op, hop⟩ := Option.isSome_iff_exists.mp ((hl.mem_iff_op id).mp hid)
      obtain ⟨hon, hstuck⟩ := (hm.visit_error_iff hl hop).mp hvisit
      refine ⟨visited, id, rest, last, op, horder, hwalk, hop, hon, hstuck,
        run_of_visit_error horder hwalk hvisit, ?_⟩
      obtain ⟨_, _, hs⟩ := swept_of_walk (horder ▸ hl) hwalk
      exact hs.old_same

/-- A run never stops for want of storage, a count, a node, a wire or an entry of the table, nor
because a gate or a fragment cannot be made. It fails exactly if controlled gates are reduced and it
comes to a node that is stuck, and no other errors are possible. Then it has no states to show, the
node where it failed and all nodes behind it are as they were, and only nodes before it have been
reduced. -/
theorem Circuit.Reachable.run_fails_iff {width : Nat} (h : c.Reachable width) (pass : Pass) :
    (∀ d, allocate width = .ok d → pass.run? c = some (pass.run c)) ∧
    ∀ e,
      ((pass.run c).2.2 = .error e ↔ pass.options.controls = true ∧
        ∃ id p op, Meets pass.options c id p ∧ c.op? id = some op ∧ Stuck p.states id op e) ∧
      ((pass.run c).2.2 = .error e →
        (∀ node given, e ≠ .swapOperands node given) ∧ (∀ f, e ≠ .circuit f) ∧
        (∀ u, e ≠ .untracked u) ∧ (pass.run c).1.states = none ∧
        ∃ visited id rest p op, c.order = visited ++ id :: rest ∧
          (start c).walk pass.options visited = (p, none) ∧ c.op? id = some op ∧
          Stuck p.states id op e ∧ (pass.run c).2.1 = p.circuit ∧
          (∀ x ∈ id :: rest, p.circuit.op? x = c.op? x) ∧
          ∀ x, (c.op? x).isSome → p.circuit.op? x ≠ c.op? x → x ∈ visited) := by
  have hl := h.linked_of h.order_isTopological
  refine ⟨fun d hd => Pass.run?_eq hl (h.width_eq ▸ Roomy.of_allocate hd) pass, ?_⟩
  refine fun e => ⟨⟨?_, ?_⟩, ?_⟩
  · intro herror
    obtain ⟨visited, id, rest, p, op, horder, hwalk, hop, hon, hstuck, _⟩ :=
      Pass.run_error hl herror
    exact ⟨hon, id, p, op, ⟨visited, rest, horder, hwalk⟩, hop, hstuck⟩
  · rintro ⟨hon, id, p, op, hm, hop, hstuck⟩
    have hvisit := (hm.visit_error_iff hl hop).mpr ⟨hon, hstuck⟩
    obtain ⟨visited, rest, horder, hwalk⟩ := hm
    rw [Pass.run_of_visit_error horder hwalk hvisit]
  · intro herror
    obtain ⟨visited, id, rest, p, op, horder, hwalk, hop, _, hstuck, hrun, hsame⟩ :=
      Pass.run_error hl herror
    have hkind : (∀ node given, e ≠ .swapOperands node given) ∧ (∀ f, e ≠ .circuit f) ∧
        ∀ u, e ≠ .untracked u := by
      cases hstuck <;> simp
    refine ⟨hkind.1, hkind.2.1, hkind.2.2, by rw [hrun], visited, id, rest, p, op, horder, hwalk,
      hop, hstuck, by rw [hrun], hsame, ?_⟩
    intro x hx hne
    have hmem : x ∈ visited ++ id :: rest := horder ▸ (hl.mem_iff_op x).mpr hx
    exact (List.mem_append.mp hmem).resolve_right fun hlater => hne (hsame x hlater)

theorem open_controls_run_fails :
    let c := [Request.append ⟨.cx, [0, 1]⟩, .append ⟨.base .h, [0]⟩, .append ⟨.base .h, [1]⟩,
      .append ⟨.base .t, [0]⟩, .append ⟨.base .t, [1]⟩, .append ⟨.base .x, [2]⟩,
      .append ⟨.base .h, [2]⟩, .append ⟨.controlled .x ⟨[false, false]⟩, [0, 1, 2]⟩,
      .append ⟨.base .x, [2]⟩].foldl Circuit.after (.empty 3)
    let e := ReductionError.openControlsOnMinus [0, 1]
    let after := (Pass.new .all).run c
    c.Reachable 3 ∧ (Pass.new .all).run? c = some after ∧ after.2.2 = .error e ∧
      (∃ id p op, Meets .all c id p ∧ c.op? id = some op ∧ Stuck p.states id op e) ∧
      after.1.states = none ∧ after.2.1.op? 0 = none ∧
      after.2.1.op? 7 = some ⟨.controlled .x ⟨[false, false]⟩, [0, 1, 2]⟩ ∧
      after.2.1.op? 8 = some ⟨.base .x, [2]⟩ := by
  intro c e
  have hc : c.Reachable 3 := ⟨_, rfl⟩
  have herror : ((Pass.new .all).run c).2.2 = .error e := by decide +kernel
  obtain ⟨hrun, hfails⟩ := hc.run_fails_iff (Pass.new .all)
  obtain ⟨hiff, hafter⟩ := hfails e
  exact ⟨hc, hrun _ rfl, herror, (hiff.mp herror).2, (hafter herror).2.2.2.1, by decide +kernel,
    by decide +kernel, by decide +kernel⟩

end BasisFlow
