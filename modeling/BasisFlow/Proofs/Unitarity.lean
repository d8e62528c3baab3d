import BasisFlow.Proofs.Tensor
import Mathlib.LinearAlgebra.UnitaryGroup

namespace BasisFlow

open Amplitude

/-- The entries below the dimension, as a matrix. -/
def Operator.matrix (m : Operator ℂ) : Matrix (Fin m.dim) (Fin m.dim) ℂ :=
  Matrix.of fun row col => m.entry row col

theorem Operator.Unitary.mem_unitaryGroup {m : Operator ℂ} {n : Nat} (hm : m.Unitary n)
    (hdim : m.dim = 2 ^ n) : m.matrix ∈ Matrix.unitaryGroup (Fin m.dim) ℂ := by
  apply Matrix.mem_unitaryGroup_iff'.mpr
  ext i j
  have hcolumns := hm i j (hdim ▸ i.isLt) (hdim ▸ j.isLt)
  rw [← hdim, Finset.sum_range] at hcolumns
  simp only [Matrix.mul_apply, Matrix.star_apply, Matrix.one_apply, Fin.ext_iff]
  exact hcolumns

/-- A gate that has a matrix has a unitary one. -/
theorem Gate.operator_unitary {g : Gate} {m : Operator ℂ} (h : g.operator = .ok (some m)) :
    m.Unitary g.arity := by
  let boxes : String → Nat → Operator ℂ := fun _ n => ⟨n, fun _ _ => 0⟩
  rw [← Gate.exact_eq h boxes false]
  exact Gate.unitary (Gate.unitaryIn_of_operator h) false

namespace Register

variable {r s r' s' : Register ℂ}

theorem dot_eq_pairing (hr : r.Full) (hs : s.Full) (hq : r.qubits = s.qubits) :
    r.dot s = pairing r.qubits r.amplitude s.amplitude := by
  have hsize : s.amplitudes.size = r.amplitudes.size := by rw [hs, hr, hq]
  rw [dot, hsize, Nat.min_self, sumBelow_eq_sum, hr]
  rfl

theorem dot_ground (n : Nat) : (ground n : Register ℂ).dot (ground n) = 1 := by
  have hfull := ground_full (K := ℂ) n
  have hamp : (ground n : Register ℂ).amplitude = Circuit.ground := funext (amplitude_ground n)
  rw [dot_eq_pairing hfull hfull rfl, hamp]
  exact Circuit.total_ground n

/-- A unitary matrix that acts on both registers leaves their inner product. -/
theorem dot_act (hr : r.Full) (hs : s.Full) (hq : r.qubits = s.qubits) {m : Operator ℂ}
    {ws : List Wire} (hm : m.Unitary ws.length) (hn : ws.Nodup) (hlt : ∀ w ∈ ws, w < r.qubits) :
    (r.act m ws).dot (s.act m ws) = r.dot s := by
  rw [dot_eq_pairing (act_full hr m ws) (act_full hs m ws) hq, dot_eq_pairing hr hs hq,
    amplitude_act hr hn hlt, amplitude_act hs hn (hq ▸ hlt)]
  exact pairing_on hm hn hlt r.amplitude s.amplitude

/-- What an operation makes of two registers has the inner product that they had. -/
theorem apply_step {op : Operation} (hr : r.Full) (hs : s.Full) (hq : r.qubits = s.qubits)
    (hfits : op.Fits r.qubits) (h : r.apply op = .ok r') (h' : s.apply op = .ok s') :
    r'.Full ∧ s'.Full ∧ r'.qubits = r.qubits ∧ s'.qubits = r.qubits ∧ r'.dot s' = r.dot s := by
  obtain ⟨m, hm, rfl⟩ := apply_eq_ok h
  obtain ⟨m', hm', rfl⟩ := apply_eq_ok h'
  cases hm.symm.trans hm'
  have hunitary : m.Unitary op.wires.length := hfits.arity_eq ▸ Gate.operator_unitary hm
  exact ⟨act_full hr m op.wires, act_full hs m op.wires, rfl, hq.symm,
    dot_act hr hs hq hunitary hfits.nodup hfits.lt_width⟩

/-- So does what several operations make of them, one after the other. -/
theorem dot_foldlM_apply {ops : List Operation} (hr : r.Full) (hs : s.Full)
    (hq : r.qubits = s.qubits) (hfits : ∀ op ∈ ops, op.Fits r.qubits)
    (h : ops.foldlM apply r = .ok r') (h' : ops.foldlM apply s = .ok s') :
    r'.dot s' = r.dot s := by
  induction ops generalizing r s with
  | nil =>
    cases h
    cases h'
    rfl
  | cons op ops ih =>
    rw [List.foldlM_cons] at h h'
    obtain ⟨a, ha, h⟩ := except_bind_eq_ok.mp h
    obtain ⟨b, hb, h'⟩ := except_bind_eq_ok.mp h'
    obtain ⟨hfa, hfb, hqa, hqb, hdot⟩ := apply_step hr hs hq (hfits op (by simp)) ha hb
    rw [← hdot]
    apply ih hfa hfb (hqa.trans hqb.symm) _ h h'
    intro o ho
    rw [hqa]
    exact hfits o (by simp [ho])

theorem dot_self_of_run {c : Circuit} (hc : c.Linked c.order) (h : run c = .ok r) :
    r.dot r = 1 := by
  obtain ⟨start, hstart, h⟩ := except_bind_eq_ok.mp h
  obtain rfl := new_eq_ok hstart
  have hfull := ground_full (K := ℂ) c.width
  rw [dot_foldlM_apply hfull hfull rfl hc.fits_of_mem_opsAlong h h, dot_ground]

/-- The matrix of every gate is unitary, an operation on different wires keeps the inner product of
any two registers, and a simulated circuit leaves a state of norm one. -/
theorem apply_preserves_dot :
    (∀ (g : Gate) (m : Operator ℂ), g.operator = .ok (some m) →
      m.dim = 2 ^ g.arity ∧ m.matrix ∈ Matrix.unitaryGroup (Fin m.dim) ℂ ∧
        (g.arity ≤ maxQubits → g.allocateOperator = .ok (some m))) ∧
    (∀ (n : Nat) (op : Operation) (m : Operator ℂ), op.Fits n →
      op.gate.allocateOperator = .ok (some m) →
      ∀ r s : Register ℂ, r.Full → s.Full → r.qubits = n → s.qubits = n →
        ∃ r' s', r.apply op = .ok r' ∧ s.apply op = .ok s' ∧ r'.dot s' = r.dot s) ∧
    ∀ (width : Nat) (c : Circuit), c.Reachable width →
      (∀ r : Register ℂ, run c = .ok r → r.dot r = 1) ∧
      (c.HasMatrices → width ≤ maxQubits → ∃ r : Register ℂ, run c = .ok r ∧ r.dot r = 1) := by
  refine ⟨?_, ?_, ?_⟩
  · intro g m h
    have hdim := Gate.dim_eq h
    exact ⟨hdim, (Gate.operator_unitary h).mem_unitaryGroup hdim, Gate.allocateOperator_eq h⟩
  · rintro n op m hfits hm r s hr hs rfl hq
    have happly := apply_eq_act_of_allocated hr hfits hm
    have happly' := apply_eq_act_of_allocated hs (hq ▸ hfits) hm
    exact ⟨_, _, happly, happly', (apply_step hr hs hq.symm hfits happly happly').2.2.2.2⟩
  · intro width c h
    have hl := h.linked_of h.order_isTopological
    refine ⟨fun r => dot_self_of_run hl, ?_⟩
    intro hm hle
    have hfew : ¬ maxQubits < c.width := by
      rw [h.width_eq]
      omega
    let boxes : String → Nat → Operator ℂ := fun _ n => ⟨n, fun _ _ => 0⟩
    have hrun : run c = .ok ((ground c.width).perform boxes c.ops) :=
      (hl.runAlong_eq hm boxes).trans (if_neg hfew)
    exact ⟨_, hrun, dot_self_of_run hl hrun⟩

theorem entangling_apply_preserves_dot :
    let c := [Request.append ⟨.base .h, [0]⟩, .append ⟨.cx, [0, 1]⟩,
      .append ⟨.halfSwap, [1, 2]⟩].foldl Circuit.after (.empty 3)
    c.Reachable 3 ∧ c.HasMatrices ∧ (∃ r : Register ℂ, run c = .ok r ∧ r.dot r = 1) ∧
      ∃ r s : Register ℂ, (basis 2 1).apply ⟨.cx, [0, 1]⟩ = .ok r ∧
        (basis 2 3).apply ⟨.cx, [0, 1]⟩ = .ok s ∧ r.dot s = (basis 2 1).dot (basis 2 3) := by
  intro c
  have hc : c.Reachable 3 := ⟨_, rfl⟩
  have hm : c.HasMatrices := by
    apply (hc.linked_of hc.order_isTopological).hasMatrices_iff.mpr
    have hops : c.opsAlong c.order = [⟨.base .h, [0]⟩, ⟨.cx, [0, 1]⟩, ⟨.halfSwap, [1, 2]⟩] := by
      decide +kernel
    rw [hops]
    simp only [List.forall_mem_cons]
    exact ⟨⟨_, rfl⟩, ⟨_, rfl⟩, ⟨_, rfl⟩, by simp⟩
  have hfits : Operation.Fits ⟨.cx, [0, 1]⟩ 2 := by
    refine ⟨?_, ?_, ?_⟩ <;> decide
  obtain ⟨_, happly, hrun⟩ := apply_preserves_dot
  exact ⟨hc, hm, (hrun 3 c hc).2 hm (by decide),
    happly 2 _ _ hfits rfl _ _ (basis_full 2 1) (basis_full 2 3) rfl rfl⟩

end Register

end BasisFlow
