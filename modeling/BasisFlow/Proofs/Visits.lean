import BasisFlow.Pass
import BasisFlow.Proofs.ControlReduction
import BasisFlow.Proofs.SwapReduction

namespace BasisFlow

variable {boxes : String → Nat → Operator ℂ} {ψ : Nat → ℂ}

theorem Finding.track_controls (node : NodeId) (op : Operation) (d : Decision) (t : Tracking) :
    Finding.track ⟨.controls, node, op, d⟩ t =
      (d.reduction.result op).foldl Tracking.propagate t := by
  obtain ⟨r, remark⟩ := d
  cases r <;> rfl

theorem Finding.track_swaps {node : NodeId} {top bottom : Wire} {op : Operation} {d : Decision}
    {t : Tracking} (h : Swaps.reduce node [top, bottom] t = .ok d) :
    Finding.track ⟨.swaps, node, op, d⟩ t = t.exchange top bottom := by
  obtain ⟨a, b, s, r, hwires, hs, hr, hd⟩ := Swaps.reduce_cases h
  simp only [List.cons.injEq, and_true] at hwires
  obtain ⟨rfl, rfl⟩ := hwires
  rcases hd with ⟨rfl, _, hd⟩ | ⟨rfl, _, hd⟩ | ⟨_, steps, o, _, hd⟩
  · rw [Tracking.exchange_eq_self hs hr]
    simp only [track, hd]
  · rw [Tracking.exchange_eq_self hs hr]
    simp only [track, hd]
  · simp only [track, hd]

theorem Rule.decision_sound {rule : Rule} {node : NodeId} {op : Operation} {t : Tracking}
    {d : Decision} (h : rule.decision? node op t = .ok (some d)) (hfits : op.Fits t.size)
    (ht : t.Describes ψ) :
    op.gate ≠ .reset ∧ d.reduction.Faithful boxes t.size op ψ ∧
      (Finding.track ⟨rule, node, op, d⟩ t).size = t.size ∧
      (Finding.track ⟨rule, node, op, d⟩ t).Describes
        (playOps boxes (d.reduction.result op) ψ) := by
  obtain ⟨gate, wires⟩ := op
  unfold decision? at h
  split at h
  next g p hgate =>
    obtain ⟨d', hd, h⟩ := except_bind_eq_ok.mp h
    obtain rfl := Option.some.inj (Except.ok.inj h)
    obtain rfl : gate = .controlled g p := hgate
    have hfaithful : d'.reduction.Faithful boxes t.size ⟨.controlled g p, wires⟩ ψ :=
      Controls.reduce_faithful hd hfits ht
    rw [Finding.track_controls]
    exact ⟨by simp, hfaithful, Tracking.size_foldl_propagate _ _,
      ht.foldl_propagate hfaithful.result_fits⟩
  next hgate =>
    obtain ⟨d', hd, h⟩ := except_bind_eq_ok.mp h
    obtain rfl := Option.some.inj (Except.ok.inj h)
    obtain rfl : gate = .base .swap := hgate
    have hfaithful : d'.reduction.Faithful boxes t.size ⟨.base .swap, wires⟩ ψ :=
      Swaps.reduce_faithful hd hfits ht
    obtain ⟨top, bottom, rfl⟩ := List.length_eq_two.mp hfits.arity_eq
    have hne : top ≠ bottom := by simpa using hfits.nodup
    have hswap : (t.exchange top bottom).Describes
        ((BaseGate.swap.exact boxes).on [top, bottom] ψ) :=
      ht.exchange hne (hfits.lt_width top (by simp)) (hfits.lt_width bottom (by simp))
    obtain ⟨σ, _, hσ⟩ := hfaithful.same
    rw [Finding.track_swaps hd, funext hσ]
    exact ⟨by simp, hfaithful, Tracking.size_exchange _ _ _, hswap.smul σ⟩
  next => cases h

theorem Options.rule?_base {g : BaseGate} (h : g ≠ .swap) (o : Options) :
    o.rule? g.kind = none := by
  cases g with
  | swap => exact absurd rfl h
  | rz θ =>
    simp only [BaseGate.kind]
    split <;> rfl
  | _ => rfl

theorem Rule.decision?_ne_none {o : Options} {rule : Rule} {op : Operation}
    (h : o.rule? op.gate.kind = some rule) {node : NodeId} {t : Tracking} :
    rule.decision? node op t ≠ .ok none := by
  obtain ⟨gate, wires⟩ := op
  intro hnone
  cases gate with
  | base g =>
    by_cases hg : g = .swap
    · subst g
      simp only [Gate.kind, BaseGate.kind, Options.rule?, Option.ite_none_right_eq_some,
        Option.some.injEq] at h
      obtain ⟨_, rfl⟩ := h
      obtain ⟨d, _, hd⟩ := except_bind_eq_ok.mp hnone
      cases hd
    · have hrule := Options.rule?_base hg o
      exact absurd (hrule.symm.trans h) (by simp)
  | halfSwap => cases h
  | reset => cases h
  | controlled g p =>
    simp only [Gate.kind, Options.rule?, Option.ite_none_right_eq_some, Option.some.injEq] at h
    obtain ⟨_, rfl⟩ := h
    obtain ⟨d, _, hd⟩ := except_bind_eq_ok.mp hnone
    cases hd

theorem Reduction.commit_spec {r : Reduction} {c c' : Circuit} {id : NodeId} {outcome : Outcome}
    {A B : List NodeId} {op : Operation} (h : r.commit c id = .ok (outcome, c'))
    (hl : c.Linked (A ++ id :: B)) (hop : c.op? id = some op)
    (hr : ∀ f ws, r = .substitute f ws → f.Fits) :
    ∃ new, c'.Linked (A ++ (new ++ B)) ∧ new.map c'.op? = (r.result op).map some ∧
      (∀ x ∈ A ++ B, c'.op? x = c.op? x) ∧ c'.width = c.width := by
  cases r with
  | keep =>
    cases h
    exact ⟨[id], hl, by simp [result, hop], fun _ _ => rfl, rfl⟩
  | remove =>
    obtain ⟨⟨n, d⟩, hremove, h⟩ := except_bind_eq_ok.mp h
    cases h
    refine ⟨[], hl.remove hremove, rfl, ?_, Circuit.width_remove hremove⟩
    intro x hx
    have hid := (List.nodup_cons.mp (List.nodup_middle.mp hl.nodup)).1
    have hne : x ≠ id := fun e => hid (e ▸ hx)
    rw [Circuit.op?_remove hremove, if_neg hne]
  | substitute f ws =>
    obtain ⟨⟨ids, d⟩, hsubstitute, h⟩ := except_bind_eq_ok.mp h
    cases h
    obtain ⟨hlinked, hops, hold, _, hwidth⟩ := hl.substitute (hr f ws rfl) hsubstitute
    exact ⟨ids, hlinked, by rw [hops, result, List.map_map]; rfl, hold, hwidth⟩

namespace Progress

open Circuit

/-- Where a pass over the circuit `c` stands: the nodes `visited` of `c` are behind it, the nodes
`done` of the circuit as reduced so far are in their place, and the nodes `rest` are still to
come. -/
structure Tracks (ρ : Reading) (c : Circuit) (visited done rest : List NodeId) (p : Progress) :
    Prop where
  linked : p.circuit.Linked (done ++ rest)
  width_eq : p.circuit.width = c.width
  size_eq : p.states.size = c.width
  rest_same : ∀ x ∈ rest, p.circuit.op? x = c.op? x
  same : ∃ σ : ℂ, (σ = 1 ∨ σ = -1) ∧
    p.circuit.play ρ done ground = fun k => σ * c.play ρ visited ground k
  describes : p.states.Describes (p.circuit.play ρ done ground)

variable {ρ : Reading} {c : Circuit} {o : Options} {p q : Progress}
  {visited done rest : List NodeId}

theorem start_tracks (h : c.Linked rest) : (start c).Tracks ρ c [] [] rest := by
  refine ⟨h, rfl, by simp [start, Tracking.initial, Tracking.size], fun _ _ => rfl, ?_, ?_⟩
  · refine ⟨1, Or.inl rfl, ?_⟩
    funext k
    rw [one_mul]
    rfl
  · exact Tracking.initial_describes c.width

theorem Tracks.whole (h : p.Tracks ρ c visited done rest) :
    ∃ σ : ℂ, (σ = 1 ∨ σ = -1) ∧ p.circuit.play ρ (done ++ rest) ground =
      fun k => σ * c.play ρ (visited ++ rest) ground k := by
  obtain ⟨σ, hσ, hsame⟩ := h.same
  refine ⟨σ, hσ, ?_⟩
  rw [play_append, play_append, hsame, play_smul, play_congr_op h.rest_same]

/-- What a visit does to the circuit, to what is known and to the counts. -/
theorem visit_cases {id : NodeId} {outcome : Outcome} (h : p.visit o id = .ok (outcome, q)) :
    ∃ op, p.circuit.op? id = some op ∧ q.report = p.report.record outcome ∧
      ((outcome = .kept ∧ q.circuit = p.circuit ∧ q.states = p.states.propagate op) ∨
      ∃ rule d, rule.decision? id op p.states = .ok (some d) ∧
        d.reduction.commit p.circuit id = .ok (outcome, q.circuit) ∧
        q.states = Finding.track ⟨rule, id, op, d⟩ p.states) := by
  unfold visit at h
  split at h
  next => cases h
  next n hn =>
    refine ⟨n.op, by simp [op?, hn], ?_⟩
    obtain ⟨⟨outcome', c', t⟩, hresult, h⟩ := except_bind_eq_ok.mp h
    cases h
    unfold handle at hresult
    split at hresult
    next rule hrule =>
      obtain ⟨found, hfound, hresult⟩ := except_bind_eq_ok.mp hresult
      simp only [Rule.find, hn] at hfound
      obtain ⟨d, hd, hfound⟩ := except_bind_eq_ok.mp hfound
      cases hfound
      cases d with
      | none =>
        have hdecided : rule.decision? id n.op p.states ≠ .ok none := Rule.decision?_ne_none hrule
        exact absurd hd hdecided
      | some d =>
        obtain ⟨⟨outcome'', c''⟩, hcommit, hresult⟩ := except_bind_eq_ok.mp hresult
        cases hresult
        exact ⟨rfl, Or.inr ⟨rule, d, hd, mapError_eq_ok hcommit, rfl⟩⟩
    next =>
      cases hresult
      exact ⟨rfl, Or.inl ⟨rfl, rfl, rfl⟩⟩

/-- A visit moves one node from those still to come to those that are done. -/
theorem Tracks.visit {id : NodeId} {outcome : Outcome}
    (h : p.Tracks ρ c visited done (id :: rest)) (hv : p.visit o id = .ok (outcome, q)) :
    ∃ new, q.Tracks ρ c (visited ++ [id]) (done ++ new) rest := by
  obtain ⟨op, hop, _, hcases⟩ := visit_cases hv
  have hfits : op.Fits p.states.size := by
    rw [h.size_eq, ← h.width_eq]
    exact h.linked.op_fits hop
  have hopc : c.op? id = some op := (h.rest_same id (by simp)).symm.trans hop
  obtain ⟨σ, hσ, hsame⟩ := h.same
  have hperform := play_concat (ρ := ρ) hopc visited ground
  rcases hcases with ⟨_, hcircuit, hstates⟩ | ⟨rule, d, hd, hcommit, hstates⟩
  · have hdone := play_concat (ρ := ρ) hop done ground
    rw [← hcircuit] at hdone
    refine ⟨[id], ?_, ?_, ?_, ?_, ⟨σ, hσ, ?_⟩, ?_⟩
    · rw [hcircuit]
      simpa using h.linked
    · rw [hcircuit, h.width_eq]
    · rw [hstates, Tracking.size_propagate, h.size_eq]
    · intro x hx
      rw [hcircuit]
      exact h.rest_same x (by simp [hx])
    · rw [hdone, hcircuit, hperform, hsame, Operator.on_smul]
    · rw [hdone, hcircuit, hstates]
      exact h.describes.propagate hfits (ρ.outcome id)
  · obtain ⟨hreset, hfaithful, hsize, hdescribes⟩ :=
      @Rule.decision_sound ρ.boxes _ rule id op p.states d hd hfits h.describes
    obtain ⟨new, hlinked, hnew, hold, hwidth⟩ :=
      Reduction.commit_spec hcommit h.linked hop hfaithful.fragment_fits
    obtain ⟨τ, hτ, hresult⟩ := hfaithful.same
    have hdone : q.circuit.play ρ (done ++ new) ground =
        playOps ρ.boxes (d.reduction.result op) (p.circuit.play ρ done ground) := by
      rw [play_append, play_eq_playOps hnew hfaithful.no_reset,
        play_congr_op fun x hx => hold x (by simp [hx])]
    have hmatrix : op.gate.exact ρ.boxes false = ρ.matrix id op.gate :=
      Gate.exact_outcome hreset _ _
    refine ⟨new, ?_, ?_, ?_, ?_, ⟨τ * σ, ?_, ?_⟩, ?_⟩
    · simpa using hlinked
    · rw [hwidth, h.width_eq]
    · rw [hstates, hsize, h.size_eq]
    · intro x hx
      rw [hold x (by simp [hx])]
      exact h.rest_same x (by simp [hx])
    · rcases hτ with rfl | rfl <;> rcases hσ with rfl | rfl <;> simp
    · rw [hdone, funext hresult, hmatrix, hperform, hsame, Operator.on_smul]
      funext k
      ring
    · rw [hdone, hstates]
      exact hdescribes

theorem Tracks.walk {ids later : List NodeId} {e : Option ReductionError}
    (h : p.Tracks ρ c visited done (ids ++ later)) (hw : p.walk o ids = (q, e)) :
    ∃ passed todo done', ids = passed ++ todo ∧ (e = none → todo = []) ∧
      q.Tracks ρ c (visited ++ passed) done' (todo ++ later) := by
  induction ids generalizing p visited done with
  | nil =>
    cases hw
    exact ⟨[], [], done, rfl, fun _ => rfl, by simpa using h⟩
  | cons id ids ih =>
    rw [Progress.walk] at hw
    split at hw
    next outcome next hv =>
      obtain ⟨new, hnext⟩ := h.visit hv
      obtain ⟨passed, todo, done', rfl, hend, hq⟩ := ih hnext hw
      exact ⟨id :: passed, todo, done', rfl, hend, by simpa using hq⟩
    next err hv =>
      cases hw
      exact ⟨[], id :: ids, done, rfl, by simp, by simpa using h⟩

theorem Tracks.play_eq (h : p.Tracks ρ c visited done rest) {L : List NodeId}
    (hL : p.circuit.IsTopological (L ++ rest)) (ψ : Nat → ℂ) :
    p.circuit.play ρ L ψ = p.circuit.play ρ done ψ := by
  have hlinked := h.linked.of_isTopological hL
  obtain ⟨hn, _, hapart⟩ := List.nodup_append'.mp hlinked.nodup
  obtain ⟨hdone, _, hdisjoint⟩ := List.nodup_append'.mp h.linked.nodup
  have hmem : ∀ x, x ∈ L ++ rest ↔ x ∈ done ++ rest := by
    intro x
    rw [hlinked.mem_iff, h.linked.mem_iff]
  apply play_congr (fun _ _ => h.linked.op_fits) hn hdone
  · intro x
    constructor
    · intro hx
      have hboth := (hmem x).mp (List.mem_append_left rest hx)
      exact (List.mem_append.mp hboth).resolve_right (hapart hx)
    · intro hx
      have hboth := (hmem x).mpr (List.mem_append_left rest hx)
      exact (List.mem_append.mp hboth).resolve_right (hdisjoint hx)
  · intro w
    have hlane : (L ++ rest).filter (p.circuit.onWire w) =
        (done ++ rest).filter (p.circuit.onWire w) := by
      rw [← hlinked.lane_eq, h.linked.lane_eq]
    rw [List.filter_append, List.filter_append] at hlane
    exact List.append_cancel_right hlane

end Progress

/-- A run leaves a circuit that a walk over the nodes of the given one has reached. -/
theorem Pass.run_tracks {c : Circuit} (h : c.Linked c.order) (pass : Pass) (ρ : Reading) :
    ∃ (q : Progress) (visited done rest : List NodeId), (pass.run c).2.1 = q.circuit ∧
      visited ++ rest = c.order ∧ q.Tracks ρ c visited done rest ∧
      ∀ report, (pass.run c).2.2 = .ok report →
        (pass.run c).1.states = some q.states ∧ rest = [] := by
  have hstart : (Progress.start c).Tracks ρ c [] [] (c.order ++ []) := by
    rw [List.append_nil]
    exact Progress.start_tracks h
  cases hw : (Progress.start c).walk pass.options c.order with
  | mk q e =>
    obtain ⟨visited, rest, done, horder, hend, hq⟩ := hstart.walk hw
    rw [List.nil_append, List.append_nil] at hq
    refine ⟨q, visited, done, rest, ?_, horder.symm, hq, ?_⟩
    · cases e <;> simp only [run, hw]
    · intro report hreport
      cases e with
      | none => exact ⟨by simp only [run, hw], hend rfl⟩
      | some err =>
        simp only [run, hw] at hreport
        cases hreport

/-- However a run ends, the circuit that it leaves makes the same of all wires at zero as the given
one, up to the sign of the whole, in whatever order their nodes are taken. -/
theorem Circuit.Reachable.run_preserves_state {width : Nat} {c : Circuit} (h : c.Reachable width)
    (pass : Pass) (ρ : Reading) :
    (pass.run c).2.1.width = width ∧
    (pass.run c).2.1.IsTopological (pass.run c).2.1.order ∧
    ∃ σ : ℂ, (σ = 1 ∨ σ = -1) ∧
      (∀ L M, c.IsTopological L → (pass.run c).2.1.IsTopological M →
        ∀ k, ((pass.run c).2.1.state ρ M).amplitude k = σ * (c.state ρ L).amplitude k) ∧
      ∀ r s : Register ℂ, Register.run c = .ok r → Register.run (pass.run c).2.1 = .ok s →
        ∀ k, s.amplitude k = σ * r.amplitude k := by
  have hc := h.linked_of h.order_isTopological
  obtain ⟨q, visited, done, rest, hq, horder, htracks, _⟩ := pass.run_tracks hc ρ
  obtain ⟨σ, hσ, hwhole⟩ := htracks.whole
  have hafter := htracks.linked.order_isTopological
  have hstate : ∀ L M, c.IsTopological L → q.circuit.IsTopological M →
      ∀ k, (q.circuit.state ρ M).amplitude k = σ * (c.state ρ L).amplitude k := by
    intro L M hL hM k
    have hLl := h.linked_of hL
    have hMl := htracks.linked.of_isTopological hM
    rw [hLl.amplitude_state, hMl.amplitude_state, hMl.play_eq htracks.linked, hwhole,
      hLl.play_eq hc, horder]
  rw [hq]
  refine ⟨htracks.width_eq.trans h.width_eq, hafter, σ, hσ, hstate, ?_⟩
  intro r s hr hs k
  rw [Register.run_eq_state hr ρ, Register.run_eq_state hs ρ]
  exact hstate _ _ h.order_isTopological hafter k

theorem kicked_back_run_preserves_state :
    let c := [Request.append ⟨.base .x, [1]⟩, .append ⟨.base .h, [1]⟩, .append ⟨.base .h, [0]⟩,
      .append ⟨.controlled .x ⟨[false]⟩, [0, 1]⟩, .append ⟨.reset, [0]⟩].foldl Circuit.after (.empty 2)
    let d := ((Pass.new .all).run c).2.1
    let ρ : Reading := ⟨fun _ n => ⟨n, fun _ _ => 0⟩, fun _ => true⟩
    c.Reachable 2 ∧ c.ops ≠ d.ops ∧
      d.ops = [⟨.base .x, [1]⟩, ⟨.base .h, [1]⟩, ⟨.base .h, [0]⟩, ⟨.base .z, [0]⟩, ⟨.reset, [0]⟩] ∧
      ∃ σ : ℂ, (σ = 1 ∨ σ = -1) ∧
        ∀ k, (d.state ρ d.order).amplitude k = σ * (c.state ρ c.order).amplitude k := by
  intro c d ρ
  have hc : c.Reachable 2 := ⟨_, rfl⟩
  obtain ⟨_, hd, σ, hσ, hstate, _⟩ := hc.run_preserves_state (Pass.new .all) ρ
  exact ⟨hc, by decide, by decide, σ, hσ, hstate c.order d.order hc.order_isTopological hd⟩

end BasisFlow
