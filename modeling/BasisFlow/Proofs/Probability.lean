import BasisFlow.Proofs.Norm
import BasisFlow.Proofs.Visits

namespace BasisFlow

open Amplitude

variable {n : Nat} {w : Wire} {s : BasisState} {ψ : Nat → ℂ}

theorem or_shiftLeft_eq_assign (k : Nat) (w : Wire) : k ||| 1 <<< w = assign k w true := by
  apply Nat.eq_of_testBit_eq
  intro j
  rw [Nat.testBit_or, Nat.one_shiftLeft, Nat.testBit_two_pow, testBit_assign]
  by_cases hj : j = w
  · simp [hj]
  · have hne : ¬w = j := fun e => hj e.symm
    simp [hj, hne]

/-- Every index is met once with a wire at zero and once with the wire at one. -/
theorem sum_assign (hw : w < n) (F : Nat → ℂ) :
    ∑ k ∈ Finset.range (2 ^ n), (F (assign k w false) + F (assign k w true)) =
      2 * ∑ k ∈ Finset.range (2 ^ n), F k := by
  have hput := sum_put (List.nodup_singleton w) (by simpa using hw) F
  simpa [Finset.sum_range_succ, assign] using hput

/-- The part of the squared norm in which a wire is in a state. -/
noncomputable def share (n : Nat) (ψ : Nat → ℂ) (w : Wire) (s : BasisState) : ℂ :=
  ∑ k ∈ Finset.range (2 ^ n), if k.testBit w then 0
    else Register.weight (Register.overlap s (ψ k) (ψ (k ||| 1 <<< w)))

theorem two_mul_share (hw : w < n) :
    2 * share n ψ w s = ∑ k ∈ Finset.range (2 ^ n),
      Register.weight (Register.overlap s (ψ (assign k w false)) (ψ (assign k w true))) := by
  rw [share, ← sum_assign hw]
  simp only [or_shiftLeft_eq_assign, testBit_assign_self, assign_assign, Bool.false_eq_true,
    if_false, if_true, add_zero]

theorem two_mul_total (hw : w < n) :
    2 * total n ψ = ∑ k ∈ Finset.range (2 ^ n),
      (Register.weight (ψ (assign k w false)) + Register.weight (ψ (assign k w true))) :=
  (sum_assign hw fun k => Register.weight (ψ k)).symm

section Known

variable (hs : s ≠ .unknown)

theorem BasisState.overlap_eq (a₀ a₁ : ℂ) :
    Register.overlap s a₀ a₁ = s.amp false * a₀ + s.amp true * a₁ := by
  cases s <;> simp only [Register.overlap, amp] <;> ring

theorem BasisState.conj_amp (s : BasisState) (b : Bool) : (conj (s.amp b) : ℂ) = s.amp b := by
  cases s <;> cases b <;> simp only [amp, conj_zero, conj_one, conj_neg, conj_rootHalf]

include hs

theorem BasisState.overlap_amp (x : ℂ) :
    Register.overlap s (s.amp false * x) (s.amp true * x) = x := by
  have hnorm := amp_norm hs
  rw [overlap_eq]
  linear_combination x * hnorm

theorem BasisState.weight_amp (x : ℂ) :
    Register.weight (s.amp false * x) + Register.weight (s.amp true * x) = Register.weight x := by
  have hnorm := amp_norm hs
  have hamp : ∀ b, Register.weight (s.amp b : ℂ) = s.amp b * s.amp b := by
    intro b
    rw [Register.weight, conj_amp]
  rw [weight_mul, weight_mul, hamp, hamp]
  linear_combination Register.weight x * hnorm

/-- All of the norm is in the state that a wire is known to be in. -/
theorem Factors.share_eq_total (hf : Factors ψ w s) (hw : w < n) :
    share n ψ w s = total n ψ := by
  obtain ⟨rest, hrest, hψ⟩ := hf
  have hvalue : ∀ k b, ψ (assign k w b) = s.amp b * rest k := by
    intro k b
    rw [hψ, testBit_assign_self, hrest]
  apply mul_left_cancel₀ (two_ne_zero (α := ℂ))
  rw [two_mul_share hw, two_mul_total hw]
  simp only [hvalue, BasisState.overlap_amp hs, BasisState.weight_amp hs]

theorem Register.probability_eq_share {r : Register ℂ} (hr : r.Full) (hw : w < r.qubits) :
    r.probability? w s = some (share r.qubits r.amplitude w s) := by
  rw [probability?, if_pos ⟨hw, hs⟩, sumBelow_eq_sum, hr, share]

end Known

theorem total_sign {σ : ℂ} (hσ : σ = 1 ∨ σ = -1) (ψ : Nat → ℂ) :
    total n (fun k => σ * ψ k) = total n ψ := by
  have hone : Register.weight σ = 1 := by
    rcases hσ with rfl | rfl
    · rw [Register.weight, conj_one, mul_one]
    · rw [Register.weight, conj_neg, conj_one, neg_mul_neg, mul_one]
  apply Finset.sum_congr rfl
  intro k _
  rw [weight_mul, hone, one_mul]

theorem Circuit.Linked.mem_ops {c : Circuit} (h : c.Linked c.order) {id : NodeId} {op : Operation}
    (hop : c.op? id = some op) : op ∈ c.ops := by
  obtain ⟨node, hnode, hnodeop⟩ := Option.map_eq_some_iff.mp hop
  have hid : id ∈ c.order := (h.mem_iff id).mpr (by simp [hnode])
  exact List.mem_filterMap.mpr ⟨id, hid, by simp [hnode, hnodeop]⟩

/-- A circuit that can be simulated has unitary gates only. -/
theorem Register.unitary_of_run {c : Circuit} {r : Register ℂ} (h : run c = .ok r)
    (hc : c.Linked c.order) (ρ : Reading) : c.UnitaryIn ρ := by
  obtain ⟨start, _, h⟩ := except_bind_eq_ok.mp h
  have hall : ∀ (ops : List Operation) (a b : Register ℂ), ops.foldlM apply a = .ok b →
      ∀ op ∈ ops, ∃ m : Operator ℂ, op.gate.operator = .ok (some m) := by
    intro ops
    induction ops with
    | nil => simp
    | cons first ops ih =>
      intro a b hfold
      rw [List.foldlM_cons] at hfold
      obtain ⟨next, hnext, hfold⟩ := except_bind_eq_ok.mp hfold
      obtain ⟨m, hm, _⟩ := apply_eq_ok hnext
      exact List.forall_mem_cons.mpr ⟨⟨m, hm⟩, ih next b hfold⟩
  intro id op hop
  obtain ⟨m, hm⟩ := hall c.ops start r h op (hc.mem_ops hop)
  exact Gate.unitaryIn_of_operator hm

section Tracked

variable {c : Circuit} {N : List NodeId} {ρ : Reading} {t : Tracking}

/-- What is known of a wire behind all nodes of a circuit is true in every order of them. -/
theorem Circuit.Linked.known_state (h : c.Linked N) (ht : t.Describes (c.play ρ N ground))
    (hsize : t.size = c.width) (hw : t.get? w = some s) (hs : s ≠ .unknown) {L : List NodeId}
    (hL : c.IsTopological L) :
    Factors (c.state ρ L).amplitude w s ∧
      (total c.width (c.play ρ N ground) = 1 → (c.state ρ L).probability? w s = some 1) := by
  have hLl := h.of_isTopological hL
  obtain ⟨hfull, hqubits, hamplitude⟩ := hLl.state_spec ρ L
  rw [hLl.play_eq h] at hamplitude
  have hf : Factors (c.state ρ L).amplitude w s := by
    rw [hamplitude]
    exact ht w s hw hs
  have hlt : w < (c.state ρ L).qubits := by
    rw [hqubits, ← hsize, ← Tracking.get?_isSome_iff, hw]
    rfl
  refine ⟨hf, ?_⟩
  intro htotal
  rw [Register.probability_eq_share hs hfull hlt, hf.share_eq_total hs hlt, hqubits, hamplitude,
    htotal]

theorem Circuit.Linked.known_state_of_run (h : c.Linked N)
    (ht : t.Describes (c.play ρ N ground)) (hsize : t.size = c.width) (hw : t.get? w = some s)
    (hs : s ≠ .unknown) {r : Register ℂ} (hr : Register.run c = .ok r) :
    r.probability? w s = some 1 := by
  have horder := h.order_isTopological
  have hu := Register.unitary_of_run hr (h.of_isTopological horder) ρ
  rw [Register.run_eq_state hr ρ]
  apply (h.known_state ht hsize hw hs horder).2
  rw [total_play (fun _ _ => h.op_fits) hu, total_ground]

/-- A walk that comes to its end has the nodes that it was given behind it. -/
theorem Progress.walk_tracks {visited rest : List NodeId} (h : c.Linked (visited ++ rest))
    {o : Options} {p : Progress} (hw : (start c).walk o visited = (p, none)) (ρ : Reading) :
    ∃ done, p.Tracks ρ c visited done rest := by
  have hstart : (start c).Tracks ρ c [] [] (visited ++ rest) := start_tracks h
  obtain ⟨passed, todo, done, hvisited, hend, htracks⟩ := hstart.walk hw
  obtain rfl := hend rfl
  rw [List.append_nil] at hvisited
  subst hvisited
  exact ⟨done, htracks⟩

/-- After a run that succeeds, what is known of the wires is true of the given circuit and of the one
that is left. -/
theorem Pass.run_describes (h : c.Linked c.order) (pass : Pass) (ρ : Reading) {report : Report}
    (hok : (pass.run c).2.2 = .ok report) :
    ∃ t, (pass.run c).1.states = some t ∧ t.size = c.width ∧ (pass.run c).2.1.width = c.width ∧
      t.Describes (c.play ρ c.order Circuit.ground) ∧
      ∃ N, (pass.run c).2.1.Linked N ∧
        t.Describes ((pass.run c).2.1.play ρ N Circuit.ground) ∧
        ∃ σ : ℂ, (σ = 1 ∨ σ = -1) ∧ (pass.run c).2.1.play ρ N Circuit.ground =
          fun k => σ * c.play ρ c.order Circuit.ground k := by
  obtain ⟨q, visited, done, rest, hq, horder, htracks, hend⟩ := pass.run_tracks h ρ
  obtain ⟨hstates, rfl⟩ := hend report hok
  rw [List.append_nil] at horder
  subst horder
  have hlinked := htracks.linked
  rw [List.append_nil] at hlinked
  obtain ⟨σ, hσ, hsame⟩ := htracks.same
  have hback : q.states.Describes (c.play ρ c.order Circuit.ground) := by
    have hscaled := htracks.describes.smul σ
    have hsquare : σ * σ = 1 := by rcases hσ with rfl | rfl <;> norm_num
    simpa only [hsame, ← mul_assoc, hsquare, one_mul] using hscaled
  rw [hq]
  exact ⟨q.states, hstates, htracks.size_eq, htracks.width_eq, hback, done, hlinked,
    htracks.describes, σ, hσ, hsame⟩

end Tracked

/-- At every point of a run, what is known of the wires is true behind the nodes that are done. At
the end of one that succeeds, it is true of the given circuit and of the one that is left, and if all
gates are unitary it is found with certainty. -/
theorem Circuit.Reachable.tracked_states_true {width : Nat} {c : Circuit} (h : c.Reachable width)
    (pass : Pass) (ρ : Reading) :
    (∀ visited rest p, visited ++ rest = c.order →
      (Progress.start c).walk pass.options visited = (p, none) →
      (∃ done, p.circuit.IsTopological (done ++ rest)) ∧
      ∀ done, p.circuit.IsTopological (done ++ rest) →
        ∀ w s, p.states.get? w = some s → s ≠ .unknown →
          Factors (p.circuit.state ρ done).amplitude w s) ∧
    ∀ report, (pass.run c).2.2 = .ok report →
      ∃ t, (pass.run c).1.states = some t ∧ t.size = width ∧
        ∀ w s, t.get? w = some s → s ≠ .unknown →
          (∀ L, c.IsTopological L → Factors (c.state ρ L).amplitude w s ∧
            (c.UnitaryIn ρ → (c.state ρ L).probability? w s = some 1)) ∧
          (∀ M, (pass.run c).2.1.IsTopological M →
            Factors ((pass.run c).2.1.state ρ M).amplitude w s ∧
            (c.UnitaryIn ρ → ((pass.run c).2.1.state ρ M).probability? w s = some 1)) ∧
          ∀ r : Register ℂ, Register.run c = .ok r ∨ Register.run (pass.run c).2.1 = .ok r →
            r.probability? w s = some 1 := by
  have hc := h.linked_of h.order_isTopological
  constructor
  · intro visited rest p horder hwalk
    obtain ⟨done, htracks⟩ := Progress.walk_tracks (horder ▸ hc) hwalk ρ
    refine ⟨⟨done, htracks.linked.isTopological⟩, ?_⟩
    intro L hL w s hw hs
    rw [htracks.linked.amplitude_state, htracks.play_eq hL]
    exact htracks.describes w s hw hs
  · intro report hok
    obtain ⟨t, hstates, hsize, hwidth, hbefore, N, hN, hafter, σ, hσ, hsame⟩ :=
      pass.run_describes hc ρ hok
    have hsizeN := hsize.trans hwidth.symm
    have htotal : c.UnitaryIn ρ → total c.width (c.play ρ c.order ground) = 1 := by
      intro hu
      rw [total_play (fun _ _ => hc.op_fits) hu, total_ground]
    refine ⟨t, hstates, hsize.trans h.width_eq, ?_⟩
    intro w s hw hs
    refine ⟨?_, ?_, ?_⟩
    · intro L hL
      obtain ⟨hf, hcertain⟩ := hc.known_state hbefore hsize hw hs hL
      exact ⟨hf, fun hu => hcertain (htotal hu)⟩
    · intro M hM
      obtain ⟨hf, hcertain⟩ := hN.known_state hafter hsizeN hw hs hM
      refine ⟨hf, ?_⟩
      intro hu
      apply hcertain
      rw [hsame, total_sign hσ, hwidth, htotal hu]
    · rintro r (hr | hr)
      · exact hc.known_state_of_run hbefore hsize hw hs hr
      · exact hN.known_state_of_run hafter hsizeN hw hs hr

theorem kicked_back_states_true :
    let c := [Request.append ⟨.base .x, [1]⟩, .append ⟨.base .h, [1]⟩, .append ⟨.base .h, [0]⟩,
      .append ⟨.controlled .x ⟨[false]⟩, [0, 1]⟩, .append ⟨.base .swap, [1, 2]⟩].foldl
        Circuit.after (.empty 3)
    let d := ((Pass.new .all).run c).2.1
    let p := ((Progress.start c).walk .all [0, 1, 2, 3]).1
    let ρ : Reading := ⟨fun _ n => ⟨n, fun _ _ => 0⟩, fun _ => true⟩
    c.Reachable 3 ∧ c.order = [0, 1, 2, 3] ++ [4] ∧
      p.states.get? 0 = some .minus ∧ (∃ done, p.circuit.IsTopological (done ++ [4]) ∧
        Factors (p.circuit.state ρ done).amplitude 0 .minus) ∧
      (∃ t, ((Pass.new .all).run c).1.states = some t ∧ t.get? 2 = some .minus) ∧
      (c.state ρ c.order).probability? 2 .minus = some 1 ∧
      ∀ M, d.IsTopological M → (d.state ρ M).probability? 2 .minus = some 1 := by
  intro c d p ρ
  have hc : c.Reachable 3 := ⟨_, rfl⟩
  have horder : [0, 1, 2, 3] ++ [4] = c.order := by decide
  have hunitary : c.UnitaryIn ρ := by
    intro id op hop
    have hops : c.ops = [⟨.base .x, [1]⟩, ⟨.base .h, [1]⟩, ⟨.base .h, [0]⟩,
      ⟨.controlled .x ⟨[false]⟩, [0, 1]⟩, ⟨.base .swap, [1, 2]⟩] := by decide
    have hmem := (hc.linked_of hc.order_isTopological).mem_ops hop
    rw [hops] at hmem
    fin_cases hmem <;> trivial
  obtain ⟨hstep, hend⟩ := hc.tracked_states_true (Pass.new .all) ρ
  have hp : p.states.get? 0 = some .minus := by decide
  obtain ⟨⟨done, hdone⟩, htrue⟩ := hstep [0, 1, 2, 3] [4] p horder (by decide)
  obtain ⟨t, ht, _, hknown⟩ := hend ⟨5, 0, 2, 3⟩ (by decide)
  have hstates : ((Pass.new .all).run c).1.states.bind (·.get? 2) = some .minus := by decide
  have hget : t.get? 2 = some .minus := by rwa [ht] at hstates
  obtain ⟨hbefore, hafter, _⟩ := hknown 2 .minus hget (by decide)
  refine ⟨hc, horder.symm, hp, ⟨done, hdone, htrue done hdone 0 .minus hp (by decide)⟩,
    ⟨t, ht, hget⟩, ?_, ?_⟩
  · exact (hbefore c.order hc.order_isTopological).2 hunitary
  · exact fun M hM => (hafter M hM).2 hunitary

end BasisFlow
