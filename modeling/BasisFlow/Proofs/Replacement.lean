import BasisFlow.Proofs.Propagation
import BasisFlow.Reduction

namespace BasisFlow

variable {boxes : String → Nat → Operator ℂ}

/-- What operations, one after the other, do to amplitudes. -/
noncomputable def playOps (boxes : String → Nat → Operator ℂ) (ops : List Operation)
    (ψ : Nat → ℂ) : Nat → ℂ :=
  ops.foldl (fun ψ op => (op.gate.exact boxes false).on op.wires ψ) ψ

theorem playOps_cons (op : Operation) (ops : List Operation) (ψ : Nat → ℂ) :
    playOps boxes (op :: ops) ψ = playOps boxes ops ((op.gate.exact boxes false).on op.wires ψ) :=
  rfl

theorem Gate.exact_outcome {g : Gate} (h : g ≠ .reset) (b b' : Bool) :
    g.exact boxes b = g.exact boxes b' := by
  cases g with
  | reset => exact absurd rfl h
  | _ => rfl

theorem Circuit.play_eq_playOps {ρ : Reading} {c : Circuit} {ids : List NodeId}
    {ops : List Operation} (h : ids.map c.op? = ops.map some)
    (hr : ∀ op ∈ ops, op.gate ≠ .reset) (ψ : Nat → ℂ) :
    c.play ρ ids ψ = playOps ρ.boxes ops ψ := by
  induction ids generalizing ops ψ with
  | nil =>
    obtain rfl := List.map_eq_nil_iff.mp h.symm
    rfl
  | cons x ids ih =>
    cases ops with
    | nil => simp at h
    | cons op ops =>
      obtain ⟨hx, h⟩ := List.cons.inj h
      have hmatrix : ρ.matrix x op.gate = op.gate.exact ρ.boxes false :=
        Gate.exact_outcome (hr op (by simp)) _ _
      have hperform : c.perform ρ x ψ = (op.gate.exact ρ.boxes false).on op.wires ψ := by
        simp only [perform, hx, hmatrix]
      rw [play_cons, playOps_cons, hperform, ih h fun o ho => hr o (by simp [ho])]

namespace Tracking

theorem size_foldl_propagate (t : Tracking) (ops : List Operation) :
    (ops.foldl propagate t).size = t.size := by
  induction ops generalizing t with
  | nil => rfl
  | cons op ops ih => rw [List.foldl_cons, ih, size_propagate]

/-- What is known after operations holds of the amplitudes after them. -/
theorem Describes.foldl_propagate {t : Tracking} {ψ : Nat → ℂ} (h : t.Describes ψ)
    {ops : List Operation} (hfits : ∀ op ∈ ops, op.Fits t.size) :
    (ops.foldl Tracking.propagate t).Describes (playOps boxes ops ψ) := by
  induction ops generalizing t ψ with
  | nil => exact h
  | cons op ops ih =>
    rw [List.foldl_cons, playOps_cons]
    apply ih (h.propagate (hfits op (by simp)) false)
    intro o ho
    rw [size_propagate]
    exact hfits o (by simp [ho])

end Tracking

namespace Reduction

/-- The operations that are in the place of an operation after a reduction. -/
def result (op : Operation) : Reduction → List Operation
  | .keep => [op]
  | .remove => []
  | .substitute f ws => f.ops.map (·.onto ws)

/-- In a circuit of `n` wires, a reduction puts operations in the place of `op` that do the same to
the amplitudes `ψ`, up to the sign of the whole. -/
structure Faithful (boxes : String → Nat → Operator ℂ) (n : Nat) (op : Operation) (ψ : Nat → ℂ)
    (r : Reduction) : Prop where
  fragment_fits : ∀ f ws, r = .substitute f ws → f.Fits
  result_fits : ∀ o ∈ r.result op, o.Fits n
  no_reset : ∀ o ∈ r.result op, o.gate ≠ .reset
  same : ∃ σ : ℂ, (σ = 1 ∨ σ = -1) ∧
    ∀ k, playOps boxes (r.result op) ψ k = σ * (op.gate.exact boxes false).on op.wires ψ k

variable {n : Nat} {op : Operation} {ψ : Nat → ℂ}

theorem keep_faithful (hfits : op.Fits n) (hr : op.gate ≠ .reset) :
    keep.Faithful boxes n op ψ := by
  refine ⟨by simp, by simpa [result] using hfits, by simpa [result] using hr, 1, Or.inl rfl, ?_⟩
  intro k
  rw [one_mul]
  rfl

theorem remove_faithful {σ : ℂ} (hσ : σ = 1 ∨ σ = -1)
    (h : ∀ k, ψ k = σ * (op.gate.exact boxes false).on op.wires ψ k) :
    remove.Faithful boxes n op ψ :=
  ⟨by simp, by simp [result], by simp [result], σ, hσ, h⟩

theorem onto_range (g : Gate) (ws : List Wire) :
    (Operation.mk g (List.range ws.length)).onto ws = ⟨g, ws⟩ := by
  have hwires : (List.range ws.length).map (fun k => ws.getD k 0) = ws := by
    apply List.ext_getElem
    · simp
    · intro k h₁ h₂
      simp [h₂]
  simp only [Operation.onto, hwires]

theorem result_single (op : Operation) (g : Gate) (ws : List Wire) :
    (single g ws).result op = [⟨g, ws⟩] := by
  simp only [single, result, Fragment.single, List.map_cons, List.map_nil, onto_range]

theorem single_faithful {g : Gate} {ws : List Wire} (hfits : (Operation.mk g ws).Fits n)
    (hr : g ≠ .reset) {σ : ℂ} (hσ : σ = 1 ∨ σ = -1)
    (h : ∀ k, (g.exact boxes false).on ws ψ k = σ * (op.gate.exact boxes false).on op.wires ψ k) :
    (single g ws).Faithful boxes n op ψ := by
  refine ⟨?_, ?_, ?_, σ, hσ, ?_⟩
  · intro f vs hf
    obtain ⟨rfl, rfl⟩ := Reduction.substitute.inj hf
    intro o ho
    obtain rfl := List.mem_singleton.mp ho
    refine ⟨?_, List.nodup_range, ?_⟩
    · simpa using hfits.arity_eq
    · intro w hw
      exact List.mem_range.mp hw
  · rw [result_single]
    simpa using hfits
  · rw [result_single]
    simpa using hr
  · rw [result_single]
    exact h

end Reduction

theorem Tracking.look_eq_ok {t : Tracking} {w : Wire} {s : BasisState} (h : t.look w = .ok s) :
    t.get? w = some s := by
  have hread := mapError_eq_ok h
  unfold read at hread
  split at hread
  next r hr => rw [hr, Except.ok.inj hread]
  next => cases hread

end BasisFlow
