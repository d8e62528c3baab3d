import BasisFlow.Proofs.Agreement
import BasisFlow.Proofs.Replacement

namespace BasisFlow

/-- The gate has a matrix of its own. -/
def Gate.HasMatrix (g : Gate) : Prop :=
  ∃ m : Operator ℂ, g.operator = .ok (some m)

theorem BaseGate.arity_pos_of_operator {g : BaseGate} {m : Operator ℂ}
    (h : g.operator = .ok (some m)) : 0 < g.arity := by
  cases g with
  | blackBox name n => cases h
  | _ => simp [arity]

theorem Gate.HasMatrix.arity_pos {g : Gate} (h : g.HasMatrix) : 0 < g.arity := by
  obtain ⟨m, hm⟩ := h
  cases g with
  | base g => exact BaseGate.arity_pos_of_operator hm
  | halfSwap => simp [arity]
  | reset => simp [arity]
  | controlled g p =>
    obtain ⟨found, hfound, hm⟩ := except_bind_eq_ok.mp hm
    cases found with
    | none => cases hm
    | some m' =>
      have hbase := BaseGate.arity_pos_of_operator hfound
      simp only [arity]
      omega

/-- There is room for every matrix that acts on no more wires than a register can have. -/
theorem Gate.reserveOperator_of_arity_le {g : Gate} (h : g.arity ≤ maxQubits) :
    g.reserveOperator = .ok () := by
  cases g with
  | controlled g p =>
    have hle : p.length + g.arity ≤ 20 := h
    have hrows : 2 ^ (p.length + g.arity) ≤ 2 ^ 20 := Nat.pow_le_pow_right (by omega) hle
    have hentries := Nat.mul_le_mul hrows hrows
    have hcontrols : ¬ 64 ≤ p.length := by omega
    have hoperands : ¬ 64 ≤ p.length + g.arity := by omega
    rw [reserveOperator, if_neg hcontrols, if_neg hoperands, Nat.one_shiftLeft]
    have hcount : 2 ^ (p.length + g.arity) * 2 ^ (p.length + g.arity) < 9223372036854775808 := by
      omega
    rw [if_pos hcount, Word.reserve, if_pos (by omega)]
  | _ => rfl

section Allocated

variable {K : Type} [Zero K] [One K] [Neg K] [Mul K] [Amplitude K]

theorem Gate.allocateOperator_of_room {g : Gate} (h : g.reserveOperator = .ok ()) :
    (g.allocateOperator : Except Fault (Option (Operator K))) = g.operator := by
  rw [allocateOperator]
  cases (g.operator : Except Fault (Option (Operator K))) with
  | error fault => rfl
  | ok found =>
    cases found with
    | none => rfl
    | some m =>
      change (g.reserveOperator >>= fun _ => pure (some m)) = _
      rw [h]
      rfl

theorem Gate.allocateOperator_eq {g : Gate} {m : Operator K} (hm : g.operator = .ok (some m))
    (h : g.arity ≤ maxQubits) : g.allocateOperator = .ok (some m) :=
  (allocateOperator_of_room (reserveOperator_of_arity_le h)).trans hm

theorem Gate.of_allocateOperator {g : Gate} {m : Operator K}
    (h : g.allocateOperator = .ok (some m)) :
    g.operator = .ok (some m) ∧ g.reserveOperator = .ok () := by
  obtain ⟨found, hfound, h⟩ := except_bind_eq_ok.mp h
  cases found with
  | none => cases h
  | some m' =>
    obtain ⟨_, hroom, h⟩ := except_bind_eq_ok.mp h
    cases h
    exact ⟨hfound, hroom⟩

/-- The operands of a gate whose matrix has room can be counted. -/
theorem Gate.counted_of_allocateOperator {g : Gate} {m : Operator K}
    (h : g.allocateOperator = .ok (some m)) : g.countedArity = .ok g.arity := by
  obtain ⟨hm, hroom⟩ := of_allocateOperator h
  refine if_pos ?_
  cases g with
  | base g =>
    cases g with
    | blackBox name n => cases hm
    | _ => simp [arity, BaseGate.arity]
  | halfSwap => simp [arity]
  | reset => simp [arity]
  | controlled g p =>
    simp only [reserveOperator] at hroom
    simp only [arity]
    split at hroom
    next => cases hroom
    next =>
      split at hroom
      next => cases hroom
      next => omega

end Allocated

theorem scatter_lt {ws : List Wire} (h : ws.Nodup) {n : Nat} (hn : ∀ w ∈ ws, w < n) (l : Nat) :
    scatter ws l < 2 ^ n := by
  rw [← put_zero]
  exact (put_lt_iff h hn l 0).mpr (Nat.two_pow_pos n)

namespace Register

theorem ext_amplitude {K : Type} [CommRing K] {r s : Register K} (hr : r.Full) (hs : s.Full)
    (hq : r.qubits = s.qubits) (h : r.amplitude = s.amplitude) : r = s := by
  obtain ⟨n, a⟩ := r
  obtain ⟨n', b⟩ := s
  obtain rfl : n = n' := hq
  have hsize : a.size = b.size := by rw [hr, hs]
  have harray : a = b := by
    apply Array.ext hsize
    intro k ha hb
    have hk := congrFun h k
    simpa [amplitude, ha, hb] using hk
  rw [harray]

/-- A gate on wires of the register acts unless their bits add up to an index outside it. -/
theorem apply_of_inside {K : Type} [Zero K] [One K] [Add K] [Neg K] [Mul K] [Amplitude K]
    {r : Register K} {g : Gate} {ws : List Wire} {m : Operator K}
    (hm : g.allocateOperator = .ok (some m)) (harity : ws.length = g.arity)
    (hlt : ∀ w ∈ ws, w < r.qubits) :
    r.apply ⟨g, ws⟩ =
      match (List.range (2 ^ ws.length)).find? fun l => r.amplitudes.size ≤ scatter ws l with
      | some l => .error (.indexOutOfRange (scatter ws l) r.amplitudes.size)
      | none => .ok (r.act m ws) := by
  have hrange : ws.find? (r.qubits ≤ ·) = none := by
    apply List.find?_eq_none.mpr
    intro w hw
    simpa using hlt w hw
  simp only [apply, Gate.counted_of_allocateOperator hm, hm, Except.mapError, bind, Except.bind,
    harity.symm, ne_eq, not_true_eq_false, ↓reduceIte, hrange, Nat.one_shiftLeft, List.find?_map,
    Function.comp_def]
  cases (List.range (2 ^ ws.length)).find? fun l => r.amplitudes.size ≤ scatter ws l <;> rfl

/-- Nothing is refused if there is room for the matrix of the gate and its operands are different
wires of the register. -/
theorem apply_eq_act_of_allocated {K : Type} [CommRing K] [Amplitude K] {r : Register K}
    (hr : r.Full) {op : Operation} (hfits : op.Fits r.qubits) {m : Operator K}
    (hm : op.gate.allocateOperator = .ok (some m)) : r.apply op = .ok (r.act m op.wires) := by
  have hindices : ((List.range (2 ^ op.wires.length)).find?
      fun l => r.amplitudes.size ≤ scatter op.wires l) = none := by
    apply List.find?_eq_none.mpr
    intro l _
    rw [hr]
    simpa using scatter_lt hfits.nodup hfits.lt_width l
  have happly := apply_of_inside hm hfits.arity_eq hfits.lt_width
  rwa [hindices] at happly

/-- A register that is not too large has room for the matrix of every gate on its wires. -/
theorem apply_eq_act {r : Register ℂ} (hr : r.Full) (hq : r.qubits ≤ maxQubits) {op : Operation}
    (hfits : op.Fits r.qubits) {m : Operator ℂ} (hm : op.gate.operator = .ok (some m)) :
    r.apply op = .ok (r.act m op.wires) := by
  have hlen := hfits.length_le
  have harity : op.gate.arity ≤ maxQubits := by
    rw [← hfits.arity_eq]
    omega
  exact apply_eq_act_of_allocated hr hfits (Gate.allocateOperator_eq hm harity)

/-- The register after operations, one after the other. -/
noncomputable def perform (boxes : String → Nat → Operator ℂ) (r : Register ℂ)
    (ops : List Operation) : Register ℂ :=
  ops.foldl (fun r op => r.act (op.gate.exact boxes false) op.wires) r

theorem perform_spec (boxes : String → Nat → Operator ℂ) {r : Register ℂ} (hr : r.Full)
    {ops : List Operation} (hfits : ∀ op ∈ ops, op.Fits r.qubits) :
    (r.perform boxes ops).Full ∧ (r.perform boxes ops).qubits = r.qubits ∧
      (r.perform boxes ops).amplitude = playOps boxes ops r.amplitude := by
  induction ops generalizing r with
  | nil => exact ⟨hr, rfl, rfl⟩
  | cons op ops ih =>
    have hop := hfits op (by simp)
    have hnext := ih (act_full hr (op.gate.exact boxes false) op.wires)
      fun o ho => hfits o (by simp [ho])
    rw [amplitude_act hr hop.nodup hop.lt_width] at hnext
    exact hnext

/-- Operations whose gates have matrices can be applied one after the other. -/
theorem foldlM_apply_eq (boxes : String → Nat → Operator ℂ) {r : Register ℂ} (hr : r.Full)
    (hq : r.qubits ≤ maxQubits) {ops : List Operation} (hfits : ∀ op ∈ ops, op.Fits r.qubits)
    (hm : ∀ op ∈ ops, op.gate.HasMatrix) : ops.foldlM apply r = .ok (r.perform boxes ops) := by
  induction ops generalizing r with
  | nil => rfl
  | cons op ops ih =>
    obtain ⟨m, hop⟩ := hm op (by simp)
    rw [List.foldlM_cons, apply_eq_act hr hq (hfits op (by simp)) hop,
      ← Gate.exact_eq hop boxes false]
    exact ih (act_full hr _ _) hq (fun o ho => hfits o (by simp [ho])) fun o ho => hm o (by simp [ho])

end Register

section Exchanged

variable (boxes : String → Nat → Operator ℂ) {l m : List Operation}

theorem playOps_exchange (h : Exchange Operation.wires l m) (hn : ∀ op ∈ l, op.wires.Nodup)
    (ψ : Nat → ℂ) : playOps boxes l ψ = playOps boxes m ψ := by
  obtain @⟨front, back, x, y, apart⟩ := h
  induction front generalizing ψ with
  | nil =>
    have hcomm := Operator.on_comm (hn x (by simp)) (hn y (by simp)) apart
      (x.gate.exact boxes false) (y.gate.exact boxes false) ψ
    simp only [List.nil_append, playOps_cons, hcomm]
  | cons z front ih =>
    rw [List.cons_append, List.cons_append, playOps_cons, playOps_cons]
    exact ih _ fun op hop => hn op (by simp at hop ⊢; tauto)

theorem Rearranged.playOps_eq (h : Rearranged Operation.wires l m)
    (hn : ∀ op ∈ l, op.wires.Nodup) (ψ : Nat → ℂ) : playOps boxes l ψ = playOps boxes m ψ := by
  induction h with
  | refl => rfl
  | @tail m _ hl hstep ih =>
    refine ih.trans (playOps_exchange boxes hstep ?_ ψ)
    intro op hop
    exact hn op ((show Rearranged Operation.wires l m from hl).perm.mem_iff.mpr hop)

/-- Exchanges of operations that share no wire do not change the register. -/
theorem Rearranged.perform_eq (h : Rearranged Operation.wires l m) {r : Register ℂ} (hr : r.Full)
    (hfits : ∀ op ∈ l, op.Fits r.qubits) : r.perform boxes l = r.perform boxes m := by
  have hfits' : ∀ op ∈ m, op.Fits r.qubits := fun op hop => hfits op (h.perm.mem_iff.mpr hop)
  obtain ⟨hfull, hqubits, hamp⟩ := Register.perform_spec boxes hr hfits
  obtain ⟨hfull', hqubits', hamp'⟩ := Register.perform_spec boxes hr hfits'
  apply Register.ext_amplitude hfull hfull' (hqubits.trans hqubits'.symm)
  rw [hamp, hamp', h.playOps_eq boxes fun op hop => (hfits op hop).nodup]

end Exchanged

/-- The state that the nodes `L`, applied one after the other, make of all wires at zero. -/
def Register.runAlong {K : Type} [Zero K] [One K] [Add K] [Sub K] [Neg K] [Mul K] [Amplitude K]
    (c : Circuit) (L : List NodeId) : Except SimulationError (Register K) := do
  let start ← new c.width
  (c.opsAlong L).foldlM apply start

namespace Circuit

/-- All gates of a circuit have matrices. -/
def HasMatrices (c : Circuit) : Prop :=
  ∀ id op, c.op? id = some op → op.gate.HasMatrix

variable {c d : Circuit} {L M : List NodeId}

theorem Linked.hasMatrices_iff (h : c.Linked L) :
    c.HasMatrices ↔ ∀ op ∈ c.opsAlong L, op.gate.HasMatrix :=
  h.forall_op_iff

theorem Linked.wired_of_hasMatrices (h : c.Linked L) (hm : c.HasMatrices) : c.Wired := by
  intro id op hop hnil
  have hpos := (hm id op hop).arity_pos
  rw [← (h.op_fits hop).arity_eq, hnil, List.length_nil] at hpos
  omega

/-- Too many wires are refused, and otherwise every gate acts. -/
theorem Linked.runAlong_eq (h : c.Linked M) (hm : c.HasMatrices)
    (boxes : String → Nat → Operator ℂ) :
    Register.runAlong c L = if maxQubits < c.width then .error (.tooManyQubits c.width)
      else .ok ((Register.ground c.width).perform boxes (c.opsAlong L)) := by
  unfold Register.runAlong Register.new
  split
  next => rfl
  next hle =>
    have hground := Register.ground_full (K := ℂ) c.width
    exact Register.foldlM_apply_eq boxes hground (Nat.le_of_not_lt hle) h.fits_of_mem_opsAlong
      (forall_mem_opsAlong hm L)

/-- Exchanges of nodes that share no wire do not change what a simulation finds. -/
theorem Linked.runAlong_congr (hc : c.Linked L) (hd : d.Linked M) (hcm : c.HasMatrices)
    (hdm : d.HasMatrices) (hwidth : c.width = d.width)
    (h : Rearranged Operation.wires (c.opsAlong L) (d.opsAlong M)) :
    (Register.runAlong c L : Except _ (Register ℂ)) = Register.runAlong d M := by
  let boxes : String → Nat → Operator ℂ := fun _ n => ⟨n, fun _ _ => 0⟩
  have hsame := h.perform_eq boxes (Register.ground_full c.width)
    hc.fits_of_mem_opsAlong
  rw [hc.runAlong_eq hcm boxes, hd.runAlong_eq hdm boxes, hsame, hwidth]

/-- A simulation of gates that have matrices succeeds unless there are too many wires. It gives the
same register along every topological order, and the same for equal circuits. -/
theorem Reachable.simulation_order_free {width : Nat} (h : c.Reachable width)
    (hm : c.HasMatrices) :
    (width ≤ maxQubits → ∀ boxes,
      Register.run c = .ok ((Register.ground width).perform boxes c.ops)) ∧
    (∀ L, c.IsTopological L →
      (Register.runAlong c L : Except _ (Register ℂ)) = Register.run c) ∧
    ∀ width' d, d.Reachable width' → d.HasMatrices → c.agrees d →
      (Register.run c : Except _ (Register ℂ)) = Register.run d := by
  have hl := h.linked_of h.order_isTopological
  refine ⟨?_, ?_, ?_⟩
  · intro hle boxes
    have hfew : ¬ maxQubits < c.width := by
      rw [h.width_eq]
      omega
    rw [← h.width_eq]
    exact (hl.runAlong_eq hm boxes).trans (if_neg hfew)
  · intro L hL
    have hL' := h.linked_of hL
    exact hL'.runAlong_congr hl hm hm rfl (hL'.rearranged hl)
  · intro width' d hd hdm hagrees
    have hd' := hd.linked_of hd.order_isTopological
    have hwidth := agrees_width hagrees
    have hops := (hl.agrees_iff_rearranged hd' hwidth).mp hagrees
    rw [(hl.wired_of_hasMatrices hm).filter_eq_self,
      (hd'.wired_of_hasMatrices hdm).filter_eq_self] at hops
    exact hl.runAlong_congr hd' hm hdm hwidth hops

theorem interleaved_simulation_order_free :
    let a := [Request.append ⟨.base .h, [0]⟩, .append ⟨.cx, [0, 1]⟩, .append ⟨.base .t, [2]⟩,
      .append ⟨.halfSwap, [1, 2]⟩].foldl after (empty 3)
    let b := [Request.append ⟨.base .t, [2]⟩, .append ⟨.base .z, [0]⟩, .append ⟨.base .h, [0]⟩,
      .remove 1, .append ⟨.cx, [0, 1]⟩, .append ⟨.halfSwap, [1, 2]⟩].foldl after (empty 3)
    a.Reachable 3 ∧ a.HasMatrices ∧ a.IsTopological [2, 0, 1, 3] ∧ b.Reachable 3 ∧
      b.HasMatrices ∧ a.agrees b ∧
      (∃ r : Register ℂ, Register.run a = .ok r ∧ Register.run b = .ok r ∧
        Register.runAlong a [2, 0, 1, 3] = .ok r) := by
  intro a b
  have ha : a.Reachable 3 := ⟨_, rfl⟩
  have hb : b.Reachable 3 := ⟨_, rfl⟩
  have ham : a.HasMatrices := by
    apply (ha.linked_of ha.order_isTopological).hasMatrices_iff.mpr
    have hops : a.opsAlong a.order = [⟨.base .h, [0]⟩, ⟨.cx, [0, 1]⟩, ⟨.base .t, [2]⟩,
      ⟨.halfSwap, [1, 2]⟩] := by decide +kernel
    rw [hops]
    simp only [List.forall_mem_cons]
    exact ⟨⟨_, rfl⟩, ⟨_, rfl⟩, ⟨_, rfl⟩, ⟨_, rfl⟩, by simp⟩
  have hbm : b.HasMatrices := by
    apply (hb.linked_of hb.order_isTopological).hasMatrices_iff.mpr
    have hops : b.opsAlong b.order = [⟨.base .t, [2]⟩, ⟨.base .h, [0]⟩, ⟨.cx, [0, 1]⟩,
      ⟨.halfSwap, [1, 2]⟩] := by decide +kernel
    rw [hops]
    simp only [List.forall_mem_cons]
    exact ⟨⟨_, rfl⟩, ⟨_, rfl⟩, ⟨_, rfl⟩, ⟨_, rfl⟩, by simp⟩
  have hL : a.IsTopological [2, 0, 1, 3] := by decide +kernel
  have hab : a.agrees b := by decide +kernel
  obtain ⟨hrun, halong, hagree⟩ := ha.simulation_order_free ham
  have hr := hrun (by decide) fun _ n => ⟨n, fun _ _ => 0⟩
  exact ⟨ha, ham, hL, hb, hbm, hab, _, hr, (hagree 3 b hb hbm hab).symm.trans hr,
    (halong _ hL).trans hr⟩

end Circuit

end BasisFlow
