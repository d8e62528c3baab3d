import BasisFlow.Proofs.Guarded
import BasisFlow.Proofs.Simulation

namespace BasisFlow

namespace Tracking

/-- Every state that is tracked and known is the state of its wire, as far as the register has that
wire. -/
def HoldsOf (t : Tracking) (r : Register ℂ) : Prop :=
  ∀ w s, w < r.qubits → t.get? w = some s → s ≠ .unknown → Factors r.amplitude w s

/-- The states of the first `n` wires. -/
def within (t : Tracking) (n : Nat) : Tracking :=
  t.forgetAll ((List.range t.size).filter (n ≤ ·))

variable {t u : Tracking} {r : Register ℂ} {n : Nat}

theorem size_within (t : Tracking) (n : Nat) : (t.within n).size = t.size :=
  size_forgetAll t _

theorem get?_within {w : Nat} (h : w < n) : (t.within n).get? w = t.get? w := by
  have hnot : w ∉ (List.range t.size).filter (n ≤ ·) := by
    simp only [List.mem_filter, decide_eq_true_eq]
    omega
  rw [within, get?_forgetAll, if_neg hnot]

theorem get?_within_of_le {w : Nat} (h : n ≤ w) {s : BasisState}
    (hs : (t.within n).get? w = some s) : s = .unknown := by
  have hlt : w < t.size := by
    rw [← size_within t n, ← get?_isSome_iff, hs]
    rfl
  have hmem : w ∈ (List.range t.size).filter (n ≤ ·) := by
    simp only [List.mem_filter, List.mem_range, decide_eq_true_eq]
    omega
  rw [within, get?_forgetAll, if_pos hmem] at hs
  obtain ⟨_, _, rfl⟩ := Option.map_eq_some_iff.mp hs
  rfl

theorem HoldsOf.describes (h : t.HoldsOf r) : (t.within r.qubits).Describes r.amplitude := by
  intro w s hs hne
  by_cases hw : w < r.qubits
  · rw [get?_within hw] at hs
    exact h w s hw hs hne
  · exact absurd (get?_within_of_le (Nat.le_of_not_lt hw) hs) hne

theorem Describes.holdsOf (h : u.Describes r.amplitude)
    (hsame : ∀ w, w < r.qubits → t.get? w = u.get? w) : t.HoldsOf r := by
  intro w s hw hs hne
  exact h w s ((hsame w hw).symm.trans hs) hne

theorem HoldsOf.of_smul (h : t.HoldsOf r) {r' : Register ℂ} (hq : r'.qubits = r.qubits) {σ : ℂ}
    (hamp : ∀ k, r'.amplitude k = σ * r.amplitude k) : t.HoldsOf r' := by
  intro w s hw hs hne
  rw [funext hamp]
  exact (h w s (hq ▸ hw) hs hne).smul σ

/-- What is known after an operation is true of the register after it. -/
theorem HoldsOf.propagate (h : t.HoldsOf r) (hr : r.Full) {op : Operation} (hfits : op.Fits t.size)
    (hwires : ∀ w ∈ op.wires, w < r.qubits) (boxes : String → Nat → Operator ℂ) (outcome : Bool) :
    (t.propagate op).HoldsOf (r.act (op.gate.exact boxes outcome) op.wires) := by
  have hsize := size_within t r.qubits
  have hknown : ((t.within r.qubits).propagate op).Describes
      ((op.gate.exact boxes outcome).on op.wires r.amplitude) :=
    h.describes.propagate (hsize ▸ hfits) outcome
  rw [← Register.amplitude_act hr hfits.nodup hwires] at hknown
  -- wires that the register does not have make no difference to those that it has
  have hop : ∀ a ∈ [op], a.Fits t.size ∧ ∀ w ∈ a.wires, w ∈ List.range r.qubits := by
    intro a ha
    obtain rfl := List.mem_singleton.mp ha
    exact ⟨hfits, fun w hw => List.mem_range.mpr (hwires w hw)⟩
  have hagree := foldl_propagate_congr hsize.symm hop fun w hw =>
    (get?_within (List.mem_range.mp hw)).symm
  exact hknown.holdsOf fun w hw => hagree w (List.mem_range.mpr hw)

theorem HoldsOf.foldl_propagate (h : t.HoldsOf r) (hr : r.Full) {ops : List Operation}
    (hfits : ∀ op ∈ ops, op.Fits t.size) (hwires : ∀ op ∈ ops, ∀ w ∈ op.wires, w < r.qubits)
    (boxes : String → Nat → Operator ℂ) :
    (ops.foldl Tracking.propagate t).HoldsOf (r.perform boxes ops) := by
  induction ops generalizing t r with
  | nil => exact h
  | cons op ops ih =>
    have hstep := h.propagate hr (hfits op (by simp)) (hwires op (by simp)) boxes false
    apply ih hstep (Register.act_full hr _ _)
    · intro o ho
      rw [size_propagate]
      exact hfits o (by simp [ho])
    · exact fun o ho => hwires o (by simp [ho])

/-- The states that lead to a register are true of it. -/
theorem holdsOf_prepared (boxes : String → Nat → Operator ℂ) {ops : List Operation}
    (hcheck : ∀ op ∈ ops, op.check n = .ok ()) :
    let prepared := (Register.ground n).perform boxes ops
    prepared.Full ∧ prepared.qubits = n ∧
      (ops.foldl propagate (initial n)).HoldsOf prepared := by
  have hfits : ∀ op ∈ ops, op.Fits n := fun op hop => Operation.fits_of_check (hcheck op hop)
  have hstart : (initial n).HoldsOf (Register.ground n) := by
    apply Describes.holdsOf _ fun _ _ => rfl
    rw [funext (Register.amplitude_ground n)]
    exact initial_describes n
  have hsize : (initial n).size = n := by simp [initial, size]
  obtain ⟨hfull, hqubits, _⟩ := Register.perform_spec boxes (Register.ground_full n) hfits
  exact ⟨hfull, hqubits, hstart.foldl_propagate (Register.ground_full n) (hsize.symm ▸ hfits)
    (fun op hop => (hfits op hop).lt_width) boxes⟩

end Tracking

namespace Rule

variable {rule : Rule} {node : NodeId} {op : Operation} {t u : Tracking} {d : Decision}

/-- The operations whose effect is tracked for a reduction. -/
def acts (rule : Rule) (r : Reduction) (op : Operation) : List Operation :=
  match rule with
  | .controls => r.result op
  | .swaps => [op]

theorem decision_congr (h : ∀ w ∈ op.wires, t.look w = u.look w) :
    rule.decision? node op t = rule.decision? node op u := by
  unfold decision?
  split
  next => rw [Controls.reduce_congr h]
  next => rw [Swaps.reduce_congr h]
  next => rfl

theorem acts_fit (h : rule.decision? node op t = .ok (some d)) (hfits : op.Fits t.size) {n : Nat}
    (hn : op.Fits n) : ∀ a ∈ rule.acts d.reduction op, a.Fits n ∧ ∀ w ∈ a.wires, w ∈ op.wires := by
  cases rule with
  | controls => exact (decision_staysOn h hfits).result hn
  | swaps =>
    intro a ha
    obtain rfl := List.mem_singleton.mp ha
    exact ⟨hn, fun _ hw => hw⟩

theorem track_eq (h : rule.decision? node op t = .ok (some d)) (hfits : op.Fits t.size) :
    Finding.track ⟨rule, node, op, d⟩ t =
      (rule.acts d.reduction op).foldl Tracking.propagate t := by
  cases rule with
  | controls => exact Finding.track_controls node op d t
  | swaps =>
    obtain ⟨gate, wires⟩ := op
    unfold decision? at h
    split at h
    next hrule _ => cases hrule
    next hgate =>
      obtain rfl : gate = .base .swap := hgate
      obtain ⟨top, bottom, rfl⟩ := List.length_eq_two.mp hfits.arity_eq
      obtain ⟨d', hd, h⟩ := except_bind_eq_ok.mp h
      obtain rfl := Option.some.inj (Except.ok.inj h)
      rw [Finding.track_swaps hd]
      rfl
    next => cases h

theorem find_eq_ok {c : Circuit} {f : Finding} (hop : c.op? node = some op)
    (h : rule.find c node t = .ok (some f)) :
    ∃ d, rule.decision? node op t = .ok (some d) ∧ f = ⟨rule, node, op, d⟩ := by
  obtain ⟨n, hn, rfl⟩ := Option.map_eq_some_iff.mp hop
  simp only [find, hn] at h
  obtain ⟨found, hd, h⟩ := except_bind_eq_ok.mp h
  obtain ⟨d, rfl, rfl⟩ := Option.map_eq_some_iff.mp (Except.ok.inj h)
  exact ⟨d, hd, rfl⟩

theorem find_of_decision {c : Circuit} (hop : c.op? node = some op)
    (h : rule.decision? node op t = .ok (some d)) :
    rule.find c node t = .ok (some ⟨rule, node, op, d⟩) := by
  obtain ⟨n, hn, rfl⟩ := Option.map_eq_some_iff.mp hop
  simp only [find, hn, h]
  rfl

/-- Carrying out a decision on a node of the circuit never fails. -/
theorem simplify_eq_ok {c : Circuit} (hop : c.op? node = some op)
    (h : rule.decision? node op t = .ok (some d)) (hfits : op.Fits t.size) :
    ∃ c', Finding.simplify ⟨rule, node, op, d⟩ c t =
      .ok (d.reduction.outcome, c', Finding.track ⟨rule, node, op, d⟩ t) := by
  obtain ⟨c', hcommit⟩ := (decision_staysOn h hfits).commit hop
  exact ⟨c', by simp only [Finding.simplify, hcommit]; rfl⟩

/-- On a register, the operations in the place of a node do the same as its gate, up to the sign of
the whole, and what is known afterwards is true of the register that they leave. -/
theorem decision_sound_of (h : rule.decision? node op t = .ok (some d)) (hfits : op.Fits t.size)
    {r : Register ℂ} (hr : r.Full) (hwires : ∀ w ∈ op.wires, w < r.qubits) (ht : t.HoldsOf r)
    (boxes : String → Nat → Operator ℂ) :
    (∃ σ : ℂ, (σ = 1 ∨ σ = -1) ∧
      ∀ k, (r.perform boxes (d.reduction.result op)).amplitude k =
        σ * (r.perform boxes [op]).amplitude k) ∧
    (Finding.track ⟨rule, node, op, d⟩ t).HoldsOf (r.perform boxes (d.reduction.result op)) := by
  have hreg : op.Fits r.qubits := ⟨hfits.arity_eq, hfits.nodup, hwires⟩
  have hsize := Tracking.size_within t r.qubits
  -- the decision does not depend on the wires that the register does not have
  have h' : rule.decision? node op (t.within r.qubits) = .ok (some d) := by
    rw [← h]
    exact decision_congr fun w hw =>
      Tracking.look_congr hsize (Tracking.get?_within (hwires w hw))
  obtain ⟨_, hfaithful, _, _⟩ :=
    @decision_sound boxes r.amplitude rule node op _ d h' (hsize ▸ hfits) ht.describes
  obtain ⟨σ, hσ, heq⟩ := hfaithful.same
  have hresult := fun o ho => ((decision_staysOn h hfits).result hreg o ho).1
  obtain ⟨_, hqubits, hamp⟩ := Register.perform_spec boxes hr hresult
  have hsame : ∀ k, (r.perform boxes (d.reduction.result op)).amplitude k =
      σ * (r.perform boxes [op]).amplitude k := by
    intro k
    have hgate : (r.perform boxes [op]).amplitude = playOps boxes [op] r.amplitude :=
      (Register.perform_spec boxes hr (by simpa using hreg)).2.2
    rw [hamp, hgate, heq]
    rfl
  refine ⟨⟨σ, hσ, hsame⟩, ?_⟩
  have hacts := fun a ha => acts_fit h hfits hfits a ha
  have hknown := ht.foldl_propagate hr (fun a ha => (hacts a ha).1)
    (fun a ha w hw => hwires w ((hacts a ha).2 w hw)) boxes
  rw [track_eq h hfits]
  cases rule with
  | controls => exact hknown
  | swaps => exact hknown.of_smul hqubits hsame

/-- There is a decision on every swap of tracked wires, and the operations in its place leave
exactly the register that the swap leaves. -/
theorem swap_decision_exact (node : NodeId) {wires : List Wire}
    (hfits : (Operation.mk (.base .swap) wires).Fits t.size) :
    ∃ d, swaps.decision? node ⟨.base .swap, wires⟩ t = .ok (some d) ∧
      ∀ boxes (r : Register ℂ), r.Full → (∀ w ∈ wires, w < r.qubits) → t.HoldsOf r →
        r.perform boxes (d.reduction.result ⟨.base .swap, wires⟩) =
          r.perform boxes [⟨.base .swap, wires⟩] := by
  obtain ⟨top, bottom, s, q, _, _, _, hd⟩ := @Swaps.reduce_eq node wires t hfits
  have hdecision : swaps.decision? node ⟨.base .swap, wires⟩ t =
      .ok (some (Swaps.decide top bottom s q)) := by
    simp only [decision?, hd]
    rfl
  refine ⟨_, hdecision, ?_⟩
  intro boxes r hr hwires ht
  have hreg : (Operation.mk (.base .swap) wires).Fits r.qubits :=
    ⟨hfits.arity_eq, hfits.nodup, hwires⟩
  have hresult := fun o ho => ((decision_staysOn hdecision hfits).result hreg o ho).1
  obtain ⟨hfull, hqubits, hamp⟩ := Register.perform_spec boxes hr hresult
  have hswap : ∀ o ∈ [Operation.mk (.base .swap) wires], o.Fits r.qubits := by simpa using hreg
  obtain ⟨hfull', hqubits', hamp'⟩ := Register.perform_spec boxes hr hswap
  apply Register.ext_amplitude hfull hfull' (hqubits.trans hqubits'.symm)
  rw [hamp, hamp']
  exact Swaps.reduce_exact hd hfits.nodup fun w hw s => ht w s (hwires w hw)

end Rule

/-- Whatever is decided on a controlled gate can be carried out. On every register of which the
tracked states are true, the operations in its place do what the gate does, up to the sign of the
whole, and the states that are tracked afterwards are true of the register that they leave. -/
theorem Circuit.Reachable.controls_locally_sound {width : Nat} {c : Circuit}
    (h : c.Reachable width) {node : NodeId} {g : BaseGate} {p : Polarity} {wires : List Wire}
    (hop : c.op? node = some ⟨.controlled g p, wires⟩) {t : Tracking}
    (hcover : ∀ w ∈ wires, w < t.size) {f : Finding}
    (hf : Rule.controls.find c node t = .ok (some f)) :
    ∃ outcome d u, f.simplify c t = .ok (outcome, d, u) ∧
      ∀ boxes (r : Register ℂ), r.Full → (∀ w ∈ wires, w < r.qubits) → t.HoldsOf r →
        let acted := r.perform boxes [⟨.controlled g p, wires⟩]
        let reduced := r.perform boxes (f.decision.reduction.result ⟨.controlled g p, wires⟩)
        (∃ σ : ℂ, (σ = 1 ∨ σ = -1) ∧ ∀ k, reduced.amplitude k = σ * acted.amplitude k) ∧
          u.HoldsOf reduced := by
  have hl := h.linked_of h.order_isTopological
  have hnode := hl.op_fits hop
  have hfits : (Operation.mk (.controlled g p) wires).Fits t.size :=
    ⟨hnode.arity_eq, hnode.nodup, hcover⟩
  obtain ⟨d, hd, rfl⟩ := Rule.find_eq_ok hop hf
  obtain ⟨c', hc'⟩ := Rule.simplify_eq_ok hop hd hfits
  exact ⟨_, c', _, hc', fun boxes r hr hwires ht =>
    Rule.decision_sound_of hd hfits hr hwires ht boxes⟩

theorem kicked_back_controls_locally_sound :
    let op : Operation := ⟨.controlled .x ⟨[true, false]⟩, [0, 1, 2]⟩
    let c := [Request.append ⟨.base .h, [1]⟩, .append op].foldl Circuit.after (.empty 3)
    let t : Tracking := ⟨[.unknown, .unknown, .minus, .zero]⟩
    let f : Finding := ⟨.controls, 1, op, ⟨.single (.controlled .z ⟨[false]⟩) [1, 0], none⟩⟩
    let ops : List Operation :=
      [⟨.base .x, [2]⟩, ⟨.base .h, [2]⟩, ⟨.base .h, [0]⟩, ⟨.cx, [0, 1]⟩]
    let boxes : String → Nat → Operator ℂ := fun _ n => ⟨n, fun _ _ => 0⟩
    let r := (Register.ground 4).perform boxes ops
    let reduced := r.perform boxes [⟨.controlled .z ⟨[false]⟩, [1, 0]⟩]
    c.Reachable 3 ∧ c.op? 1 = some op ∧ Rule.controls.find c 1 t = .ok (some f) ∧ r.Full ∧
      t.HoldsOf r ∧ (∃ d, f.simplify c t = .ok (.substituted, d, t)) ∧
      (∃ σ : ℂ, (σ = 1 ∨ σ = -1) ∧
        ∀ k, reduced.amplitude k = σ * (r.perform boxes [op]).amplitude k) ∧
      t.HoldsOf reduced := by
  intro op c t f ops boxes r reduced
  have hc : c.Reachable 3 := ⟨_, rfl⟩
  have hop : c.op? 1 = some op := by decide
  have hf : Rule.controls.find c 1 t = .ok (some f) := by decide
  obtain ⟨hfull, hqubits, hholds⟩ := @Tracking.holdsOf_prepared 4 boxes ops (by decide)
  obtain ⟨outcome, d, u, hs, hsound⟩ := hc.controls_locally_sound hop (by decide) hf
  have hwires : ∀ w ∈ [0, 1, 2], w < r.qubits := by
    rw [hqubits]
    decide
  obtain ⟨hsame, hafter⟩ := hsound boxes r hfull hwires hholds
  obtain ⟨d', hs'⟩ : ∃ d', f.simplify c t = .ok (.substituted, d', t) := ⟨_, rfl⟩
  obtain ⟨_, _, rfl⟩ : outcome = .substituted ∧ d = d' ∧ u = t := by
    simpa using hs.symm.trans hs'
  exact ⟨hc, hop, hf, hfull, hholds, ⟨d', hs'⟩, hsame, hafter⟩

/-- Every swap is decided on, and the decision can be carried out. On every register of which the
tracked states are true, the operations in its place leave exactly what the swap leaves, and the
states that are tracked afterwards are true of that. -/
theorem Circuit.Reachable.swaps_locally_exact {width : Nat} {c : Circuit} (h : c.Reachable width)
    {node : NodeId} {top bottom : Wire}
    (hop : c.op? node = some ⟨.base .swap, [top, bottom]⟩) {t : Tracking}
    (hcover : ∀ w ∈ [top, bottom], w < t.size) :
    ∃ f outcome d u, Rule.swaps.find c node t = .ok (some f) ∧
      f.simplify c t = .ok (outcome, d, u) ∧
      ∀ boxes (r : Register ℂ), r.Full → (∀ w ∈ [top, bottom], w < r.qubits) → t.HoldsOf r →
        let swapped := r.perform boxes [⟨.base .swap, [top, bottom]⟩]
        r.perform boxes (f.decision.reduction.result ⟨.base .swap, [top, bottom]⟩) = swapped ∧
          u.HoldsOf swapped := by
  have hl := h.linked_of h.order_isTopological
  have hnode := hl.op_fits hop
  have hfits : (Operation.mk (.base .swap) [top, bottom]).Fits t.size :=
    ⟨hnode.arity_eq, hnode.nodup, hcover⟩
  obtain ⟨d, hd, hexact⟩ := Rule.swap_decision_exact node hfits
  have hfind := Rule.find_of_decision hop hd
  obtain ⟨c', hc'⟩ := Rule.simplify_eq_ok hop hd hfits
  refine ⟨_, _, c', _, hfind, hc', ?_⟩
  intro boxes r hr hwires ht
  have hsame := hexact boxes r hr hwires ht
  have hknown := (Rule.decision_sound_of hd hfits hr hwires ht boxes).2
  rw [hsame] at hknown
  exact ⟨hsame, hknown⟩

theorem half_swapped_swaps_locally_exact :
    let op : Operation := ⟨.base .swap, [0, 1]⟩
    let c := [Request.append ⟨.base .h, [1]⟩, .append op].foldl Circuit.after (.empty 3)
    let t : Tracking := ⟨[.minus, .unknown, .unknown]⟩
    let ops : List Operation :=
      [⟨.base .x, [0]⟩, ⟨.base .h, [0]⟩, ⟨.base .h, [1]⟩, ⟨.cx, [1, 2]⟩]
    let boxes : String → Nat → Operator ℂ := fun _ n => ⟨n, fun _ _ => 0⟩
    let r := (Register.ground 3).perform boxes ops
    let swapped := r.perform boxes [op]
    let u : Tracking := ⟨[.unknown, .minus, .unknown]⟩
    c.Reachable 3 ∧ c.op? 1 = some op ∧ r.Full ∧ t.HoldsOf r ∧
      (∃ f d, Rule.swaps.find c 1 t = .ok (some f) ∧ f.simplify c t = .ok (.substituted, d, u)) ∧
      r.perform boxes [⟨.base .z, [1]⟩, ⟨.halfSwap, [1, 0]⟩] = swapped ∧ u.HoldsOf swapped := by
  intro op c t ops boxes r swapped u
  have hc : c.Reachable 3 := ⟨_, rfl⟩
  have hop : c.op? 1 = some op := by decide
  obtain ⟨hfull, hqubits, hholds⟩ := @Tracking.holdsOf_prepared 3 boxes ops (by decide)
  obtain ⟨f, outcome, d, v, hf, hs, hsound⟩ :=
    hc.swaps_locally_exact (t := t) hop (by decide)
  have hwires : ∀ w ∈ [0, 1], w < r.qubits := by
    rw [hqubits]
    decide
  obtain ⟨hsame, hafter⟩ := hsound boxes r hfull hwires hholds
  obtain ⟨g, d', hg, hresult, hs'⟩ : ∃ (g : Finding) (d' : Circuit),
      Rule.swaps.find c 1 t = .ok (some g) ∧
      g.decision.reduction.result op = [⟨.base .z, [1]⟩, ⟨.halfSwap, [1, 0]⟩] ∧
      g.simplify c t = .ok (.substituted, d', u) := ⟨_, _, rfl, rfl, rfl⟩
  obtain rfl : f = g := by simpa using hf.symm.trans hg
  obtain ⟨_, _, rfl⟩ : outcome = .substituted ∧ d = d' ∧ v = u := by
    simpa using hs.symm.trans hs'
  rw [hresult] at hsame
  exact ⟨hc, hop, hfull, hholds, ⟨f, d', hf, hs'⟩, hsame, hafter⟩

/-- For every gate, on operands as it needs them: the states of all other wires stay, and on every
register of which the tracked states are true, those tracked afterwards are true of what the gate
leaves. A black box may do anything to its wires, and a reset may meet either value. -/
theorem Tracking.propagate_locally_sound (t : Tracking) {op : Operation}
    (hfits : op.Fits t.size) :
    (∀ w, w ∉ op.wires → (t.propagate op).get? w = t.get? w) ∧
      ∀ boxes outcome (r : Register ℂ), r.Full → (∀ w ∈ op.wires, w < r.qubits) → t.HoldsOf r →
        (t.propagate op).HoldsOf (r.act (op.gate.exact boxes outcome) op.wires) := by
  constructor
  · intro w hw
    rw [get?_propagate hfits, if_neg hw]
  · intro boxes outcome r hr hwires ht
    exact ht.propagate hr hfits hwires boxes outcome

theorem bare_half_turn_propagate_locally_sound :
    let op : Operation := ⟨.controlled (.rz .pi) ⟨[]⟩, [1]⟩
    let t : Tracking := ⟨[.unknown, .plus, .one, .unknown]⟩
    let ops : List Operation :=
      [⟨.base .h, [0]⟩, ⟨.cx, [0, 3]⟩, ⟨.base .h, [1]⟩, ⟨.base .x, [2]⟩]
    let boxes : String → Nat → Operator ℂ := fun _ n => ⟨n, fun _ _ => 0⟩
    let r := (Register.ground 4).perform boxes ops
    op.Fits t.size ∧ r.Full ∧ t.HoldsOf r ∧ (t.propagate op).get? 2 = some .one ∧
      Tracking.HoldsOf ⟨[.unknown, .minus, .one, .unknown]⟩
        (r.act (op.gate.exact boxes false) [1]) := by
  intro op t ops boxes r
  have hfits : op.Fits t.size := Operation.fits_of_check (by decide)
  obtain ⟨hfull, hqubits, hholds⟩ := @Tracking.holdsOf_prepared 4 boxes ops (by decide)
  obtain ⟨hoff, hsound⟩ := t.propagate_locally_sound hfits
  have hwires : ∀ w ∈ op.wires, w < r.qubits := by
    rw [hqubits]
    decide
  exact ⟨hfits, hfull, hholds, hoff 2 (by decide), hsound boxes false r hfull hwires hholds⟩

end BasisFlow
