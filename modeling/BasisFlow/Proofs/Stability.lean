import BasisFlow.Proofs.Confluence
import BasisFlow.Proofs.Residue

namespace BasisFlow

open Progress

theorem Report.foldl_record_kept {es : List Treatment} (h : ∀ e ∈ es, e.outcome = .kept)
    (r : Report) :
    (es.foldl (fun r e => r.record e.outcome) r).removed = r.removed ∧
      (es.foldl (fun r e => r.record e.outcome) r).substituted = r.substituted := by
  induction es generalizing r with
  | nil => exact ⟨rfl, rfl⟩
  | cons e es ih =>
    rw [List.foldl_cons, h e (by simp)]
    exact ih (fun f hf => h f (by simp [hf])) (r.record .kept)

/-- A run over the circuit that a run has left knows no more than that run and rewrites swaps at
most. If that run rewrote swaps at most, it rewrites nothing. -/
theorem Circuit.Linked.swept_again {c : Circuit} (h : c.Linked c.order) {o : Options}
    {last : Progress} {new : List NodeId} {es : List Treatment}
    (hs : (start c).Swept o last [] c.order new [] es) :
    last.circuit.Linked last.circuit.order ∧
    ∃ next new' fs, (start last.circuit).Swept o next [] last.circuit.order new' [] fs ∧
      next.states.Coarser last.states ∧
      (∀ e ∈ fs, e.outcome ≠ .kept → e.op.gate = .base .swap) ∧
      ((∀ e ∈ es, e.outcome ≠ .kept → e.op.gate = .base .swap) →
        ∀ e ∈ fs, e.outcome = .kept) := by
  obtain ⟨hlinked, hops⟩ := hs.result
  have hl := hlinked.of_isTopological hlinked.order_isTopological
  have hwidth : last.circuit.width = c.width := hs.width_eq
  refine ⟨hl, ?_⟩
  -- the pass goes along another order of the new circuit than the one that it was left in
  obtain ⟨gs, v, hgs, hv, hswaps, hkept⟩ :=
    Options.sweep_again hs.sweep_eq h.opsAlong_fit (Tracking.Coarser.refl _)
  have hsweep : o.sweep (.initial last.circuit.width) (last.circuit.opsAlong new) =
      some (gs, v) := by
    rw [hops, hwidth]
    exact hgs
  obtain ⟨fs, hfs, hperm⟩ :=
    Options.sweep_rearranged (hlinked.rearranged hl) hlinked.opsAlong_fit hsweep
  have hmem : ∀ e ∈ fs, e ∈ gs := fun e he => hperm.perm.mem_iff.mpr he
  rcases Pass.run_sweep hl (.new o) with ⟨next, new', fs', hnext, _⟩ | ⟨hnone, _⟩
  · have hsame := hnext.sweep_eq.symm.trans hfs
    obtain ⟨rfl, rfl⟩ := Prod.mk.inj (Option.some.inj hsame)
    exact ⟨next, new', fs', hnext, hv, fun e he => hswaps e (hmem e he),
      fun hsettled e he => hkept hsettled e (hmem e he)⟩
  · cases hnone.symm.trans hfs

/-- After a run that succeeds, a second one succeeds and rewrites no other nodes than swaps. A third
one succeeds and changes nothing, and so do all others. What a later run knows of a wire is what the
run before it knew, or nothing. -/
theorem Circuit.Reachable.run_stabilises {width : Nat} {c : Circuit} (h : c.Reachable width)
    (pass : Pass) {report : Report} (hok : (pass.run c).2.2 = .ok report) :
    let first := pass.run c
    let second := first.1.run first.2.1
    let third := second.1.run second.2.1
    (∃ r, second.2.2 = .ok r) ∧
    (∀ id p outcome q, Meets pass.options first.2.1 id p →
      p.visit pass.options id = .ok (outcome, q) → outcome ≠ .kept →
      ∃ ws, first.2.1.op? id = some ⟨.base .swap, ws⟩) ∧
    (∀ id op, first.2.1.op? id = some op → op.gate ≠ .base .swap →
      second.2.1.op? id = some op) ∧
    (∃ r, third.2.2 = .ok r ∧ r.removed = 0 ∧ r.substituted = 0) ∧
    third.2.1 = second.2.1 ∧ third.1.run third.2.1 = third ∧
    ∃ t₁ t₂ t₃, first.1.states = some t₁ ∧ second.1.states = some t₂ ∧
      third.1.states = some t₃ ∧ t₂.Coarser t₁ ∧ t₃.Coarser t₂ := by
  have hl := h.linked_of h.order_isTopological
  obtain ⟨p₁, new₁, es₁, hs₁, hrun₁⟩ := Pass.run_swept hl hok
  obtain ⟨hl₁, p₂, new₂, es₂, hs₂, hcoarser₂, hswaps₂, _⟩ := hl.swept_again hs₁
  obtain ⟨hl₂, p₃, new₃, es₃, hs₃, hcoarser₃, _, hkept₃⟩ := hl₁.swept_again hs₂
  have hsame : p₃.circuit = p₂.circuit := hs₃.unchanged (hkept₃ hswaps₂)
  intro first second third
  have hfirst : first = (⟨pass.options, some p₁.states⟩, p₁.circuit, .ok p₁.report) := hrun₁
  have hsecond : second = (⟨pass.options, some p₂.states⟩, p₂.circuit, .ok p₂.report) := by
    simp only [second, hfirst, Pass.run_of_swept hs₂]
  have hthird : third = (⟨pass.options, some p₃.states⟩, p₃.circuit, .ok p₃.report) := by
    simp only [third, hsecond, Pass.run_of_swept hs₃]
  rw [hfirst, hsecond, hthird]
  refine ⟨⟨_, rfl⟩, ?_, ?_, ⟨_, rfl, ?_⟩, hsame, ?_, p₁.states, p₂.states, p₃.states, rfl, rfl, rfl,
    hcoarser₂, hcoarser₃⟩
  · intro id p outcome q hm hv hn
    obtain ⟨e, he, hop, rfl⟩ := hs₂.treatment_of_visit hl₁ hm hv
    refine ⟨e.op.wires, ?_⟩
    rw [hop, ← hswaps₂ e he hn]
  · intro id op hop hn
    obtain ⟨e, he, hop', hkept⟩ := hs₂.kept_same id ((hl₁.mem_iff_op id).mpr (by simp [hop]))
    obtain rfl := Option.some.inj (hop.symm.trans hop')
    exact (hkept (not_not.mp fun hne => hn (hswaps₂ e he hne))).2
  · rw [hs₃.report_eq]
    exact Report.foldl_record_kept (hkept₃ hswaps₂) .empty
  · -- the circuit is the one of the third run, and what a pass knew before has no influence
    have hagain := Pass.run_of_swept hs₃ (some p₃.states)
    simp only [hsame] at hagain ⊢
    exact hagain

theorem stripped_swap_run_stabilises :
    let c := [Request.append ⟨.base .h, [0]⟩, .append ⟨.base .t, [0]⟩, .append ⟨.base .swap, [0, 1]⟩,
      .append ⟨.base .x, [2]⟩, .append ⟨.base .h, [3]⟩,
      .append ⟨.controlled .swap (.closed 1), [2, 3, 4]⟩].foldl Circuit.after (.empty 5)
    let first := (Pass.new .all).run c
    let second := first.1.run first.2.1
    let third := second.1.run second.2.1
    c.Reachable 5 ∧ first.2.2 = .ok ⟨6, 0, 2, 4⟩ ∧ second.2.2 = .ok ⟨6, 0, 1, 5⟩ ∧
      first.2.1.op? 7 = some ⟨.base .swap, [3, 4]⟩ ∧ second.2.1.op? 7 = none ∧
      third.2.2 = .ok ⟨7, 0, 0, 7⟩ ∧ third.2.1 = second.2.1 ∧ third.1.run third.2.1 = third ∧
      first.1.states = some ⟨[.zero, .unknown, .one, .zero, .plus]⟩ ∧
      third.1.states = some ⟨[.unknown, .unknown, .one, .zero, .plus]⟩ := by
  intro c
  have hc : c.Reachable 5 := ⟨_, rfl⟩
  have hfirst : ((Pass.new .all).run c).2.2 = .ok ⟨6, 0, 2, 4⟩ := by decide +kernel
  obtain ⟨_, _, _, _, hsame, hagain, _⟩ := hc.run_stabilises (Pass.new .all) hfirst
  exact ⟨hc, hfirst, by decide +kernel, by decide +kernel, by decide +kernel, by decide +kernel,
    hsame, hagain, by decide +kernel, by decide +kernel⟩

end BasisFlow
