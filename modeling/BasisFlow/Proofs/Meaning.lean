import BasisFlow.Proofs.Exact
import BasisFlow.Proofs.Requests
import BasisFlow.Proofs.Wave

namespace BasisFlow

/-- What a circuit leaves open: the matrix of every black box, and the value that every reset
meets. -/
structure Reading where
  boxes : String → Nat → Operator ℂ
  outcome : NodeId → Bool

/-- The matrix of the gate of a node. -/
noncomputable def Reading.matrix (ρ : Reading) (id : NodeId) (g : Gate) : Operator ℂ :=
  g.exact ρ.boxes (ρ.outcome id)

namespace Circuit

variable {ρ : Reading} {c : Circuit}

/-- The register after one node. -/
noncomputable def advance (ρ : Reading) (c : Circuit) (r : Register ℂ) (id : NodeId) :
    Register ℂ :=
  match c.op? id with
  | some op => r.act (ρ.matrix id op.gate) op.wires
  | none => r

/-- The state that the nodes `L`, one after the other, make of all wires at zero. -/
noncomputable def state (ρ : Reading) (c : Circuit) (L : List NodeId) : Register ℂ :=
  L.foldl (c.advance ρ) (.ground c.width)

/-- What one node does to amplitudes. -/
noncomputable def perform (ρ : Reading) (c : Circuit) (id : NodeId) (ψ : Nat → ℂ) : Nat → ℂ :=
  match c.op? id with
  | some op => (ρ.matrix id op.gate).on op.wires ψ
  | none => ψ

/-- What the nodes `L`, one after the other, do to amplitudes. -/
noncomputable def play (ρ : Reading) (c : Circuit) (L : List NodeId) (ψ : Nat → ℂ) : Nat → ℂ :=
  L.foldl (fun ψ id => c.perform ρ id ψ) ψ

theorem play_append (L M : List NodeId) (ψ : Nat → ℂ) :
    c.play ρ (L ++ M) ψ = c.play ρ M (c.play ρ L ψ) :=
  List.foldl_append

theorem play_cons (x : NodeId) (L : List NodeId) (ψ : Nat → ℂ) :
    c.play ρ (x :: L) ψ = c.play ρ L (c.perform ρ x ψ) :=
  rfl

theorem play_concat {id : NodeId} {op : Operation} (h : c.op? id = some op) (L : List NodeId)
    (ψ : Nat → ℂ) :
    c.play ρ (L ++ [id]) ψ = (ρ.matrix id op.gate).on op.wires (c.play ρ L ψ) := by
  rw [play_append, play_cons, perform, h]
  rfl

theorem perform_smul (id : NodeId) (σ : ℂ) (ψ : Nat → ℂ) :
    c.perform ρ id (fun k => σ * ψ k) = fun k => σ * c.perform ρ id ψ k := by
  cases h : c.op? id with
  | none => simp only [perform, h]
  | some op =>
    simp only [perform, h]
    exact Operator.on_smul _ _ σ ψ

theorem play_smul (L : List NodeId) (σ : ℂ) (ψ : Nat → ℂ) :
    c.play ρ L (fun k => σ * ψ k) = fun k => σ * c.play ρ L ψ k := by
  induction L generalizing ψ with
  | nil => rfl
  | cons x L ih => rw [play_cons, perform_smul, ih, play_cons]

theorem play_congr_op {d : Circuit} {L : List NodeId} (h : ∀ x ∈ L, d.op? x = c.op? x)
    (ψ : Nat → ℂ) : d.play ρ L ψ = c.play ρ L ψ := by
  induction L generalizing ψ with
  | nil => rfl
  | cons x L ih =>
    have hx : d.perform ρ x ψ = c.perform ρ x ψ := by simp only [perform, h x (by simp)]
    rw [play_cons, play_cons, hx, ih fun y hy => h y (by simp [hy])]

section Order

variable (hfits : ∀ id op, c.op? id = some op → op.Fits c.width)
include hfits

theorem perform_comm {x y : NodeId} (hd : ∀ w, c.onWire w x → ¬ c.onWire w y) (ψ : Nat → ℂ) :
    c.perform ρ x (c.perform ρ y ψ) = c.perform ρ y (c.perform ρ x ψ) := by
  cases hx : c.op? x with
  | none => simp [perform, hx]
  | some a =>
    cases hy : c.op? y with
    | none => simp [perform, hy]
    | some b =>
      have hdisjoint : a.wires.Disjoint b.wires := by
        intro w ha hb
        exact hd w (by simp [onWire, hx, ha]) (by simp [onWire, hy, hb])
      simp only [perform, hx, hy]
      exact Operator.on_comm (hfits x a hx).nodup (hfits y b hy).nodup hdisjoint _ _ ψ

theorem play_perform_comm {x : NodeId} {A : List NodeId}
    (hd : ∀ y ∈ A, ∀ w, c.onWire w x → ¬ c.onWire w y) (ψ : Nat → ℂ) :
    c.perform ρ x (c.play ρ A ψ) = c.play ρ A (c.perform ρ x ψ) := by
  induction A generalizing ψ with
  | nil => rfl
  | cons y A ih =>
    rw [play_cons, play_cons, ih (fun z hz => hd z (by simp [hz])),
      perform_comm hfits (hd y (by simp))]

/-- Nodes do the same in two orders that agree on every wire. -/
theorem play_congr {L M : List NodeId} (hL : L.Nodup) (hM : M.Nodup) (hmem : ∀ x, x ∈ L ↔ x ∈ M)
    (hlane : ∀ w, L.filter (c.onWire w) = M.filter (c.onWire w)) (ψ : Nat → ℂ) :
    c.play ρ L ψ = c.play ρ M ψ := by
  induction L generalizing M ψ with
  | nil =>
    have he : M = [] := List.eq_nil_iff_forall_not_mem.mpr fun x hx => by simpa using (hmem x).mpr hx
    rw [he]
  | cons x L ih =>
    obtain ⟨hxL, hL'⟩ := List.nodup_cons.mp hL
    obtain ⟨A, B, rfl⟩ := List.append_of_mem ((hmem x).mp (by simp))
    obtain ⟨hxAB, hAB⟩ := List.nodup_cons.mp (List.nodup_middle.mp hM)
    -- no node of `A` shares a wire with `x`, so that `x` can be taken first in `M` as well
    have hclear : ∀ w, c.onWire w x → A.filter (c.onWire w) = [] := by
      intro w hw
      have hl := hlane w
      rw [List.filter_cons_of_pos hw, List.filter_append, List.filter_cons_of_pos hw] at hl
      cases hA : A.filter (c.onWire w) with
      | nil => rfl
      | cons z t =>
        rw [hA] at hl
        obtain ⟨rfl, _⟩ := List.cons.inj hl
        have hz : x ∈ A := List.mem_of_mem_filter (by rw [hA]; simp)
        exact absurd (List.mem_append_left B hz) hxAB
    have hd : ∀ y ∈ A, ∀ w, c.onWire w x → ¬ c.onWire w y := by
      intro y hy w hx hyw
      have hm : y ∈ A.filter (c.onWire w) := List.mem_filter.mpr ⟨hy, hyw⟩
      rw [hclear w hx] at hm
      cases hm
    have hrest : ∀ w, L.filter (c.onWire w) = (A ++ B).filter (c.onWire w) := by
      intro w
      have hl := hlane w
      by_cases hw : c.onWire w x
      · rw [List.filter_cons_of_pos hw, List.filter_append, List.filter_cons_of_pos hw,
          hclear w hw] at hl
        rw [List.filter_append, hclear w hw]
        exact (List.cons.inj hl).2
      · rw [List.filter_cons_of_neg hw, List.filter_append, List.filter_cons_of_neg hw] at hl
        rw [hl, List.filter_append]
    have hmem' : ∀ y, y ∈ L ↔ y ∈ A ++ B := by
      intro y
      by_cases hy : y = x
      · subst y
        exact ⟨fun h => absurd h hxL, fun h => absurd h hxAB⟩
      · simpa [hy] using hmem y
    rw [play_cons, ih hL' hAB hmem' hrest, play_append, play_append, play_cons,
      play_perform_comm hfits hd]

end Order

theorem Linked.play_eq {L M : List NodeId} (hL : c.Linked L) (hM : c.Linked M) (ψ : Nat → ℂ) :
    c.play ρ L ψ = c.play ρ M ψ := by
  apply play_congr (fun _ _ => hL.op_fits) hL.nodup hM.nodup
  · intro x
    rw [hL.mem_iff, hM.mem_iff]
  · intro w
    rw [← hL.lane_eq, ← hM.lane_eq]

/-- The amplitudes of all wires at zero. -/
def ground (k : Nat) : ℂ :=
  if k = 0 then 1 else 0

theorem advance_spec (hfits : ∀ id op, c.op? id = some op → op.Fits c.width) {r : Register ℂ}
    (hr : r.Full) (hq : r.qubits = c.width) (id : NodeId) :
    (c.advance ρ r id).Full ∧ (c.advance ρ r id).qubits = c.width ∧
      (c.advance ρ r id).amplitude = c.perform ρ id r.amplitude := by
  cases hx : c.op? id with
  | none =>
    simp only [advance, perform, hx]
    exact ⟨hr, hq, trivial⟩
  | some op =>
    have hop := hfits id op hx
    have hlt : ∀ w ∈ op.wires, w < r.qubits := fun w hw => hq ▸ hop.lt_width w hw
    simp only [advance, perform, hx]
    exact ⟨Register.act_full hr _ _, hq, Register.amplitude_act hr hop.nodup hlt _⟩

theorem foldl_advance_spec (hfits : ∀ id op, c.op? id = some op → op.Fits c.width)
    (L : List NodeId) {r : Register ℂ} (hr : r.Full) (hq : r.qubits = c.width) :
    (L.foldl (c.advance ρ) r).Full ∧ (L.foldl (c.advance ρ) r).qubits = c.width ∧
      (L.foldl (c.advance ρ) r).amplitude = c.play ρ L r.amplitude := by
  induction L generalizing r with
  | nil => exact ⟨hr, hq, rfl⟩
  | cons x L ih =>
    obtain ⟨hf, hw, ha⟩ := advance_spec (ρ := ρ) hfits hr hq x
    rw [List.foldl_cons, play_cons, ← ha]
    exact ih hf hw

theorem Linked.state_spec {M : List NodeId} (h : c.Linked M) (ρ : Reading) (L : List NodeId) :
    (c.state ρ L).Full ∧ (c.state ρ L).qubits = c.width ∧
      (c.state ρ L).amplitude = c.play ρ L ground := by
  have hstart : (Register.ground c.width : Register ℂ).amplitude = ground := by
    funext k
    exact Register.amplitude_ground c.width k
  have hspec := foldl_advance_spec (ρ := ρ) (fun _ _ => h.op_fits) L
    (Register.ground_full c.width) rfl
  rw [hstart] at hspec
  exact hspec

theorem Linked.amplitude_state {M : List NodeId} (h : c.Linked M) (ρ : Reading) (L : List NodeId) :
    (c.state ρ L).amplitude = c.play ρ L ground :=
  (h.state_spec ρ L).2.2

end Circuit

theorem mapError_eq_ok {ε δ α : Type} {f : ε → δ} {x : Except ε α} {a : α}
    (h : x.mapError f = .ok a) : x = .ok a := by
  cases x with
  | error e => cases h
  | ok b => exact congrArg Except.ok (Except.ok.inj h)

namespace Register

theorem apply_eq_ok {r s : Register ℂ} {op : Operation} (h : r.apply op = .ok s) :
    ∃ m, op.gate.operator = .ok (some m) ∧ s = r.act m op.wires := by
  obtain ⟨arity, _, h⟩ := except_bind_eq_ok.mp h
  split at h
  next => cases h
  next =>
    split at h
    next => cases h
    next =>
      obtain ⟨matrix, hmatrix, h⟩ := except_bind_eq_ok.mp h
      obtain ⟨found, hfound, hm⟩ := except_bind_eq_ok.mp (mapError_eq_ok hmatrix)
      cases found with
      | none =>
        cases hm
        cases h
      | some m =>
        obtain ⟨_, _, hm⟩ := except_bind_eq_ok.mp hm
        cases hm
        refine ⟨m, hfound, ?_⟩
        simp only at h
        split at h
        next => cases h
        next => exact (Except.ok.inj h).symm

theorem new_eq_ok {n : Nat} {r : Register ℂ} (h : new n = .ok r) : r = ground n := by
  unfold new at h
  split at h
  next => cases h
  next => exact (Except.ok.inj h).symm

/-- A circuit that can be simulated has the simulated state, whatever its reading. -/
theorem run_eq_state {c : Circuit} {r : Register ℂ} (h : run c = .ok r) (ρ : Reading) :
    r = c.state ρ c.order := by
  obtain ⟨start, hstart, h⟩ := except_bind_eq_ok.mp h
  obtain rfl := new_eq_ok hstart
  rw [Circuit.state]
  unfold Circuit.ops at h
  generalize (ground c.width : Register ℂ) = s at h ⊢
  generalize c.order = L at h ⊢
  induction L generalizing s with
  | nil => exact (Except.ok.inj h).symm
  | cons x L ih =>
    cases hn : c.node? x with
    | none =>
      rw [List.filterMap_cons_none (by simp [hn])] at h
      simpa [Circuit.advance, Circuit.op?, hn] using ih s h
    | some n =>
      rw [List.filterMap_cons_some (b := n.op) (by simp [hn]), List.foldlM_cons] at h
      obtain ⟨t, ht, h⟩ := except_bind_eq_ok.mp h
      obtain ⟨m, hm, rfl⟩ := apply_eq_ok ht
      have hmatrix : ρ.matrix x n.op.gate = m := Gate.exact_eq hm _ _
      simpa [Circuit.advance, Circuit.op?, hn, hmatrix] using ih _ h

end Register

end BasisFlow
