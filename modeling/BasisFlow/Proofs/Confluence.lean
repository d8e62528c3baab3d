import BasisFlow.Proofs.Refinement

namespace BasisFlow

theorem Report.record_comm (r : Report) (a b : Outcome) :
    (r.record a).record b = (r.record b).record a := by
  cases a <;> cases b <;> rfl

/-- The counts of a pass do not depend on the order of its visits. -/
theorem Report.foldl_record_perm {es fs : List Treatment} (h : es.Perm fs) (r : Report) :
    es.foldl (fun r e => r.record e.outcome) r = fs.foldl (fun r e => r.record e.outcome) r :=
  h.foldl_eq' (fun _ _ _ _ r => record_comm r _ _) r

namespace Circuit

open Progress

theorem Linked.opsAlong_fit {c : Circuit} {L M : List NodeId} (h : c.Linked M) :
    ∀ op ∈ c.opsAlong L, op.Fits (Tracking.initial c.width).size := by
  have hsize : (Tracking.initial c.width).size = c.width := by
    simp [Tracking.initial, Tracking.size]
  rw [hsize]
  exact h.fits_of_mem_opsAlong

variable {a b : Circuit}

/-- Runs over circuits whose operations are the same up to exchanges. -/
theorem Linked.run_rearranged (ha : a.Linked a.order) (hb : b.Linked b.order)
    (hwidth : a.width = b.width) (h : Rearranged Operation.wires a.ops b.ops) (pass : Pass) :
    (∃ c d e f, pass.run a = (⟨pass.options, none⟩, c, .error e) ∧
      pass.run b = (⟨pass.options, none⟩, d, .error f)) ∨
    ∃ c d t report, pass.run a = (⟨pass.options, some t⟩, c, .ok report) ∧
      pass.run b = (⟨pass.options, some t⟩, d, .ok report) ∧ c.agrees d := by
  have hfits := ha.opsAlong_fit (L := a.order)
  rcases pass.run_sweep ha with ⟨p, new, es, hp, hrun⟩ | ⟨hnone, c, e, hrun⟩
  · obtain ⟨gs, hgs, hes⟩ := Options.sweep_rearranged h hfits hp.sweep_eq
    rw [hwidth] at hgs
    rcases pass.run_sweep hb with ⟨q, new', fs, hq, hrun'⟩ | ⟨hnone', _⟩
    · have hsame := hq.sweep_eq.symm.trans hgs
      simp only [Option.some.injEq, Prod.mk.injEq] at hsame
      obtain ⟨rfl, hstates⟩ := hsame
      have hreport : p.report = q.report := by
        rw [hp.report_eq, hq.report_eq]
        exact Report.foldl_record_perm hes.perm _
      obtain ⟨hpl, hpops⟩ := hp.result
      obtain ⟨hql, hqops⟩ := hq.result
      have hops : Rearranged Operation.wires (p.circuit.opsAlong new) (q.circuit.opsAlong new') := by
        rw [hpops, hqops]
        apply hes.flatMap
        intro e he op hop
        exact (Options.sweep_fits hp.sweep_eq hfits e he op hop).2
      refine Or.inr ⟨p.circuit, q.circuit, p.states, p.report, hrun, ?_, ?_⟩
      · rw [hrun', hstates, hreport]
      · have hw : p.circuit.width = q.circuit.width := by
          rw [hp.width_eq, hq.width_eq]
          exact hwidth
        exact (hpl.agrees_iff hql hw).mpr hops.filter_eq
    · rw [hgs] at hnone'
      cases hnone'
  · rcases pass.run_sweep hb with ⟨q, new', fs, hq, _⟩ | ⟨_, d, f, hrun'⟩
    · obtain ⟨gs, hgs, _⟩ := Options.sweep_rearranged h.symm hb.opsAlong_fit hq.sweep_eq
      rw [hwidth] at hnone
      rw [hnone] at hgs
      cases hgs
    · exact Or.inl ⟨c, d, e, f, hrun, hrun'⟩

/-- Runs over equal circuits without nodes that have no wire both fail or both succeed. If they
succeed, they leave equal circuits, know the same of every wire, and count the same. -/
theorem Reachable.run_congr {width width' : Nat} (ha : a.Reachable width)
    (hb : b.Reachable width') (h : a.agrees b) (hwa : a.Wired) (hwb : b.Wired) (pass : Pass) :
    ((∃ e, (pass.run a).2.2 = .error e) ∧ ∃ e, (pass.run b).2.2 = .error e) ∨
    ∃ t report, (pass.run a).2.2 = .ok report ∧ (pass.run b).2.2 = .ok report ∧
      (pass.run a).1.states = some t ∧ (pass.run b).1.states = some t ∧
      (pass.run a).2.1.agrees (pass.run b).2.1 := by
  have hal := ha.linked_of ha.order_isTopological
  have hbl := hb.linked_of hb.order_isTopological
  have hwidth := agrees_width h
  have hops := (hal.agrees_iff_rearranged hbl hwidth).mp h
  rw [hwa.filter_eq_self, hwb.filter_eq_self] at hops
  rcases hal.run_rearranged hbl hwidth hops pass with
    ⟨c, d, e, f, hra, hrb⟩ | ⟨c, d, t, report, hra, hrb, hagrees⟩
  · rw [hra, hrb]
    exact Or.inl ⟨⟨e, rfl⟩, f, rfl⟩
  · rw [hra, hrb]
    exact Or.inr ⟨t, report, rfl, rfl, rfl, rfl, hagrees⟩

theorem interleaved_run_congr :
    let a := [Request.append ⟨.base .x, [0]⟩, .append ⟨.cx, [0, 1]⟩, .append ⟨.base .h, [2]⟩,
      .append ⟨.base .swap, [1, 2]⟩].foldl after (empty 3)
    let b := [Request.append ⟨.base .h, [2]⟩, .append ⟨.base .z, [0]⟩, .append ⟨.base .x, [0]⟩,
      .remove 1, .append ⟨.cx, [0, 1]⟩, .append ⟨.base .swap, [1, 2]⟩].foldl after (empty 3)
    let pass := Pass.new .all
    a.Reachable 3 ∧ b.Reachable 3 ∧ a.agrees b ∧ a.Wired ∧ b.Wired ∧ a.ops ≠ b.ops ∧
      (pass.run a).2.2 = .ok ⟨4, 0, 2, 2⟩ ∧ (pass.run b).2.2 = .ok ⟨4, 0, 2, 2⟩ ∧
      (pass.run a).1.states = some ⟨[.one, .plus, .one]⟩ ∧
      (pass.run b).1.states = some ⟨[.one, .plus, .one]⟩ ∧
      (pass.run a).2.1.agrees (pass.run b).2.1 := by
  intro a b pass
  have ha : a.Reachable 3 := ⟨_, rfl⟩
  have hb : b.Reachable 3 := ⟨_, rfl⟩
  have hagrees : a.agrees b := by decide +kernel
  have hwa : a.Wired := ha.wired (by decide +kernel)
  have hwb : b.Wired := hb.wired (by decide +kernel)
  have hreport : (pass.run a).2.2 = .ok ⟨4, 0, 2, 2⟩ := by decide +kernel
  have hstates : (pass.run a).1.states = some ⟨[.one, .plus, .one]⟩ := by decide +kernel
  rcases ha.run_congr hb hagrees hwa hwb pass with
    ⟨⟨e, he⟩, _⟩ | ⟨t, report, hra, hrb, hta, htb, hresult⟩
  · rw [hreport] at he
    cases he
  · obtain rfl := Except.ok.inj (hreport.symm.trans hra)
    obtain rfl := Option.some.inj (hstates.symm.trans hta)
    exact ⟨ha, hb, hagrees, hwa, hwb, by decide +kernel, hra, hrb, hta, htb, hresult⟩

end Circuit

end BasisFlow
