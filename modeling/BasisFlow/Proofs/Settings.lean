import BasisFlow.Proofs.Confluence
import BasisFlow.Proofs.Failure

namespace BasisFlow

theorem Tracking.Coarser.forgetAll {t u v : Tracking} (h : t.Coarser u) {ws : List Wire}
    (hlt : ∀ w ∈ ws, w < t.size) (hsize : v.size = u.size)
    (hframe : ∀ w, w ∉ ws → v.get? w = u.get? w) : (t.forgetAll ws).Coarser v := by
  refine ⟨by rw [size_forgetAll, h.1, hsize], fun w => ?_⟩
  rw [get?_forgetAll]
  by_cases hw : w ∈ ws
  · obtain ⟨s, hs⟩ := get?_of_lt (hlt w hw)
    exact Or.inr (by simp [hw, hs])
  · rw [if_neg hw, hframe w hw]
    exact h.2 w

namespace Options

variable {o a b on off : Options} {t u v : Tracking} {op : Operation} {ops : List Operation}
  {e : Treatment} {es : List Treatment}

/-- Where no controlled gate is reduced, all gates are tracked as they are. -/
theorem treat_eq_propagate (h : op.gate.isControlled = true → o.controls = false)
    (hfits : op.Fits t.size) : ∃ e, o.treat t op = some (e, t.propagate op) := by
  have hplan : ∃ r, o.plan t op = some (r, [op]) := by
    cases hp : o.plan t op with
    | none =>
      obtain ⟨g, p, _, hgate, hon, _⟩ := plan_eq_none hp hfits
      cases hon.symm.trans (h (by rw [hgate]; rfl))
    | some plan =>
      obtain ⟨r, acts⟩ := plan
      rcases plan_cases hp with ⟨_, _, rfl⟩ | ⟨g, p, _, hgate, hon, _⟩ | ⟨_, _, _, _, _, rfl⟩
      · exact ⟨r, rfl⟩
      · cases hon.symm.trans (h (by rw [hgate]; rfl))
      · exact ⟨r, rfl⟩
  obtain ⟨r, hr⟩ := hplan
  exact ⟨_, by rw [treat, hr]; rfl⟩

theorem plan_of_controls_eq (h : a.controls = b.controls) (hop : op.gate.isControlled = true) :
    a.plan t op = b.plan t op := by
  obtain ⟨gate, wires⟩ := op
  cases gate with
  | controlled g p => simp only [plan, h]
  | _ => cases hop

/-- What is known after an operation depends on the switch for controlled gates only. -/
theorem treat_of_controls_eq (h : a.controls = b.controls) (hfits : op.Fits t.size)
    (ht : a.treat t op = some (e, u)) : ∃ e', b.treat t op = some (e', u) := by
  cases hop : op.gate.isControlled with
  | true =>
    refine ⟨e, ?_⟩
    rw [treat, ← plan_of_controls_eq h hop]
    exact ht
  | false =>
    have hnot : ∀ o : Options, op.gate.isControlled = true → o.controls = false := by
      intro o hyes
      cases hop.symm.trans hyes
    obtain ⟨e₁, h₁⟩ := treat_eq_propagate (hnot a) hfits
    obtain ⟨e₂, h₂⟩ := treat_eq_propagate (hnot b) hfits
    obtain ⟨_, rfl⟩ := Prod.mk.inj (Option.some.inj (h₁.symm.trans ht))
    exact ⟨e₂, h₂⟩

theorem sweep_of_controls_eq (h : a.controls = b.controls) (hfits : ∀ op ∈ ops, op.Fits t.size)
    (hs : a.sweep t ops = some (es, v)) : ∃ fs, b.sweep t ops = some (fs, v) := by
  induction ops generalizing t es with
  | nil =>
    cases hs
    exact ⟨[], rfl⟩
  | cons op ops ih =>
    obtain ⟨e, u, es', htreat, hsweep, _⟩ := sweep_cons_eq_some.mp hs
    obtain ⟨e', he'⟩ := treat_of_controls_eq h (hfits op (by simp)) htreat
    have hu := treat_size htreat
    obtain ⟨fs, hfs⟩ := ih (fun o ho => hu ▸ hfits o (by simp [ho])) hsweep
    exact ⟨e' :: fs, sweep_cons_eq_some.mpr ⟨e', u, fs, he', hfs, rfl⟩⟩

/-- A controlled gate that is not reduced makes all its wires unknown. One that is reduced leaves
the other wires alone as well. -/
theorem treat_coarser (hoff : off.controls = false) (h : t.Coarser u) (hfits : op.Fits u.size)
    (hon : on.treat u op = some (e, v)) :
    ∃ e' t', off.treat t op = some (e', t') ∧ t'.Coarser v := by
  have hfits' : op.Fits t.size := h.1 ▸ hfits
  obtain ⟨e', he'⟩ := treat_eq_propagate (fun _ => hoff) hfits'
  refine ⟨e', t.propagate op, he', ?_⟩
  have hsize := treat_size hon
  have hframe := fun w hw => treat_frame hon hfits (w := w) hw
  obtain ⟨r, acts, hplan, _, rfl⟩ := treat_eq_some hon
  rcases plan_cases hplan with ⟨_, _, rfl⟩ | ⟨g, p, d, hgate, _, hd, rfl, rfl⟩ | ⟨_, _, _, _, _, rfl⟩
  · exact h.propagate hfits
  · obtain ⟨gate, wires⟩ := op
    obtain rfl : gate = .controlled g p := hgate
    cases hp : p.isEmpty with
    | true =>
      -- without a control the gate is kept, and tracked as its base gate
      rw [Controls.reduce_eq hfits, hp] at hd
      cases hd
      exact h.propagate hfits
    | false =>
      have hforget : t.propagate ⟨.controlled g p, wires⟩ = t.forgetAll wires := by
        simp [Tracking.propagate, hp]
      rw [hforget]
      exact h.forgetAll hfits'.lt_width hsize hframe
  · exact h.propagate hfits

theorem sweep_coarser (hoff : off.controls = false) (h : t.Coarser u)
    (hfits : ∀ op ∈ ops, op.Fits u.size) (hon : on.sweep u ops = some (es, v)) :
    ∃ fs t', off.sweep t ops = some (fs, t') ∧ t'.Coarser v := by
  induction ops generalizing t u es with
  | nil =>
    cases hon
    exact ⟨[], t, rfl, h⟩
  | cons op ops ih =>
    obtain ⟨e, u', es', htreat, hsweep, _⟩ := sweep_cons_eq_some.mp hon
    obtain ⟨e', t', he', hc⟩ := treat_coarser hoff h (hfits op (by simp)) htreat
    have hu := treat_size htreat
    obtain ⟨fs, s, hfs, hs⟩ := ih hc (fun o ho => hu ▸ hfits o (by simp [ho])) hsweep
    exact ⟨e' :: fs, s, sweep_cons_eq_some.mpr ⟨e', t', fs, he', hfs, rfl⟩, hs⟩

end Options

open Progress

variable {c : Circuit} {a b : Pass}

/-- Where one run fails, another that reduces controlled gates as well fails with the same error. -/
theorem Pass.run_error_congr (hl : c.Linked c.order)
    (h : a.options.controls = b.options.controls) {e : ReductionError}
    (he : (a.run c).2.2 = .error e) : (b.run c).2.2 = .error e := by
  obtain ⟨visited, id, rest, p, op, horder, hwalk, hop, hon, hstuck, _⟩ := Pass.run_error hl he
  have hlvisited : c.Linked (visited ++ id :: rest) := horder ▸ hl
  obtain ⟨_, _, hs⟩ := swept_of_walk hlvisited hwalk
  obtain ⟨fs, hfs⟩ := Options.sweep_of_controls_eq h hl.opsAlong_fit hs.sweep_eq
  rcases @walk_sweep b.options (start c) [] visited (id :: rest) hlvisited (start_size c) with
    ⟨q, new, es, hq⟩ | ⟨hnone, _⟩
  · obtain ⟨_, hstates⟩ := Prod.mk.inj (Option.some.inj (hq.sweep_eq.symm.trans hfs))
    have hm : Meets b.options c id q := ⟨visited, rest, horder, hq.walk_eq⟩
    have hvisit := (hm.visit_error_iff hl hop).mpr ⟨h ▸ hon, hstates ▸ hstuck⟩
    rw [Pass.run_of_visit_error horder hq.walk_eq hvisit]
  · cases hnone.symm.trans hfs

/-- Whether swaps are reduced has no influence on what a run knows at its end, nor on its error.
A run that reduces no controlled gate succeeds, and what it knows of a wire every other run that
succeeds knows as well. -/
theorem Circuit.Reachable.run_knowledge {width : Nat} (h : c.Reachable width) :
    (∀ a b : Pass, a.options.controls = b.options.controls →
      (∃ t r s, (a.run c).1.states = some t ∧ (b.run c).1.states = some t ∧
        (a.run c).2.2 = .ok r ∧ (b.run c).2.2 = .ok s) ∨
      ∃ e, (a.run c).2.2 = .error e ∧ (b.run c).2.2 = .error e) ∧
    ∀ on off : Pass, off.options.controls = false →
      ∃ t r, (off.run c).1.states = some t ∧ (off.run c).2.2 = .ok r ∧
        ∀ s, (on.run c).2.2 = .ok s → ∃ u, (on.run c).1.states = some u ∧ t.Coarser u := by
  have hl := h.linked_of h.order_isTopological
  refine ⟨?_, ?_⟩
  · intro a b hsame
    rcases a.run_sweep hl with ⟨p, _, _, hp, hrun⟩ | ⟨_, _, e, hrun⟩
    · obtain ⟨fs, hfs⟩ := Options.sweep_of_controls_eq hsame hl.opsAlong_fit hp.sweep_eq
      rcases b.run_sweep hl with ⟨q, _, _, hq, hrun'⟩ | ⟨hnone, _⟩
      · obtain ⟨_, hstates⟩ := Prod.mk.inj (Option.some.inj (hq.sweep_eq.symm.trans hfs))
        rw [hrun, hrun', hstates]
        exact Or.inl ⟨p.states, p.report, q.report, rfl, rfl, rfl, rfl⟩
      · cases hnone.symm.trans hfs
    · have he : (a.run c).2.2 = .error e := by rw [hrun]
      exact Or.inr ⟨e, he, Pass.run_error_congr hl hsame he⟩
  · intro on off hoff
    rcases off.run_sweep hl with ⟨p, _, _, hp, hrun⟩ | ⟨_, _, e, hrun⟩
    · rw [hrun]
      refine ⟨p.states, p.report, rfl, rfl, ?_⟩
      intro s hok
      obtain ⟨q, _, _, hq, hrun'⟩ := Pass.run_swept hl hok
      obtain ⟨fs, t, ht, hcoarser⟩ := Options.sweep_coarser hoff (Tracking.Coarser.refl _)
        hl.opsAlong_fit hq.sweep_eq
      obtain ⟨_, rfl⟩ := Prod.mk.inj (Option.some.inj (hp.sweep_eq.symm.trans ht))
      rw [hrun']
      exact ⟨q.states, rfl, hcoarser⟩
    · obtain ⟨_, _, _, _, _, _, _, _, hon, _⟩ := Pass.run_error hl (by rw [hrun])
      cases hoff.symm.trans hon

theorem stripped_flip_run_knowledge :
    let c := [Request.append ⟨.base .x, [0]⟩, .append ⟨.cx, [0, 1]⟩,
      .append ⟨.base .swap, [1, 2]⟩].foldl Circuit.after (.empty 3)
    let d := [Request.append ⟨.base .swap, [0, 1]⟩, .append ⟨.base .h, [0]⟩,
      .append ⟨.base .h, [1]⟩, .append ⟨.base .x, [2]⟩, .append ⟨.base .h, [2]⟩,
      .append ⟨.controlled .x ⟨[false, false]⟩, [0, 1, 2]⟩].foldl Circuit.after (.empty 3)
    let e := ReductionError.openControlsOnMinus [0, 1]
    c.Reachable 3 ∧ ((Pass.new .all).run c).2.2 = .ok ⟨3, 0, 2, 1⟩ ∧
      ((Pass.new .all).run c).1.states = some ⟨[.one, .zero, .one]⟩ ∧
      ((Pass.new ⟨true, false⟩).run c).1.states = some ⟨[.one, .zero, .one]⟩ ∧
      ((Pass.new ⟨false, true⟩).run c).1.states = some ⟨[.unknown, .zero, .unknown]⟩ ∧
      Tracking.Coarser ⟨[.unknown, .zero, .unknown]⟩ ⟨[.one, .zero, .one]⟩ ∧
      d.Reachable 3 ∧ ((Pass.new .all).run d).2.2 = .error e ∧
      ((Pass.new ⟨true, false⟩).run d).2.2 = .error e := by
  intro c d e
  have hc : c.Reachable 3 := ⟨_, rfl⟩
  have hd : d.Reachable 3 := ⟨_, rfl⟩
  have hok : ((Pass.new .all).run c).2.2 = .ok ⟨3, 0, 2, 1⟩ := by decide +kernel
  have hstates : ((Pass.new .all).run c).1.states = some ⟨[.one, .zero, .one]⟩ := by
    decide +kernel
  have hoff : ((Pass.new ⟨false, true⟩).run c).1.states = some ⟨[.unknown, .zero, .unknown]⟩ := by
    decide +kernel
  have herror : ((Pass.new .all).run d).2.2 = .error e := by decide +kernel
  obtain ⟨hswaps, hcontrols⟩ := hc.run_knowledge
  refine ⟨hc, hok, hstates, ?_, hoff, ?_, hd, herror, ?_⟩
  · rcases hswaps (.new .all) (.new ⟨true, false⟩) rfl with ⟨t, _, _, ht, ht', _⟩ | ⟨_, he, _⟩
    · exact ht'.trans (ht.symm.trans hstates)
    · cases he.symm.trans hok
  · obtain ⟨t, _, ht, _, hmore⟩ := hcontrols (.new .all) (.new ⟨false, true⟩) rfl
    obtain ⟨u, hu, hcoarser⟩ := hmore _ hok
    obtain rfl := Option.some.inj (ht.symm.trans hoff)
    obtain rfl := Option.some.inj (hu.symm.trans hstates)
    exact hcoarser
  · rcases hd.run_knowledge.1 (.new .all) (.new ⟨true, false⟩) rfl with
      ⟨_, _, _, _, _, hok', _⟩ | ⟨_, he, he'⟩
    · cases hok'.symm.trans herror
    · obtain rfl := Except.error.inj (he.symm.trans herror)
      exact he'

end BasisFlow
