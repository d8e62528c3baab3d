import BasisFlow.Proofs.Propagation

namespace BasisFlow

/-- What a gate without controls makes of the state that comes to one of its wires. -/
def BaseGate.effect (g : BaseGate) (s : BasisState) : BasisState :=
  match g.kind with
  | .swap => s
  | .phaseOnly => if s.isClassical then s else .unknown
  | _ =>
    match Transfer.ofBase? g with
    | some f => f.apply s
    | none => .unknown

/-- The base gate that a gate acts as, if it has no controls. -/
def Gate.bare? : Gate → Option BaseGate
  | .base g => some g
  | .controlled g p => if p.isEmpty then some g else none
  | .reset => none
  | .halfSwap => none

def Gate.effect (g : Gate) (s : BasisState) : BasisState :=
  match g.bare? with
  | some b => b.effect s
  | none => if g = .reset then .zero else .unknown

/-- The wire whose state an operation brings to a wire. -/
def Operation.source (op : Operation) (v : Wire) : Wire :=
  match op.gate.bare?, op.wires with
  | some .swap, [a, b] => if v = a then b else if v = b then a else v
  | _, _ => v

theorem BaseGate.eq_swap_of_kind {g : BaseGate} (h : g.kind = .swap) : g = .swap := by
  cases g with
  | swap => rfl
  | rz θ =>
    simp only [kind] at h
    split at h <;> cases h
  | _ => cases h

theorem BaseGate.arity_of_kind {g : BaseGate} (h : g.kind = .phaseOnly) : g.arity = 1 := by
  cases g with
  | swap => cases h
  | blackBox name n => cases h
  | _ => rfl

theorem Transfer.arity_of_ofBase {g : BaseGate} {f : Transfer} (h : ofBase? g = some f) :
    g.arity = 1 := by
  cases g with
  | swap => cases h
  | blackBox name n => cases h
  | _ => rfl

theorem Operation.source_mem {op : Operation} {v : Wire} (h : v ∈ op.wires) :
    op.source v ∈ op.wires := by
  unfold source
  split
  next a b _ hwires =>
    rw [hwires]
    split
    next => simp
    next =>
      split
      next => simp
      next => exact hwires ▸ h
  next => exact h

namespace Tracking

theorem ext_get? {t r : Tracking} (h : ∀ v, t.get? v = r.get? v) : t = r := by
  obtain ⟨states⟩ := t
  obtain ⟨others⟩ := r
  exact congrArg Tracking.mk (List.ext_getElem? h)

theorem get?_of_lt {t : Tracking} {w : Wire} (h : w < t.size) : ∃ s, t.get? w = some s :=
  Option.isSome_iff_exists.mp ((t.get?_isSome_iff w).mpr h)

theorem get?_exchange (t : Tracking) {a b : Wire} (hab : a ≠ b) (ha : a < t.size)
    (hb : b < t.size) (v : Wire) :
    (t.exchange a b).get? v = t.get? (if v = a then b else if v = b then a else v) := by
  obtain ⟨s, hs⟩ := get?_of_lt ha
  obtain ⟨r, hr⟩ := get?_of_lt hb
  simp only [exchange, hs, hr, get?_set]
  by_cases hva : v = a
  · subst v
    simp [Ne.symm hab, hs, hr]
  · by_cases hvb : v = b
    · subst v
      simp [hva, hs, hr]
    · simp [hva, hvb, Ne.symm hva, Ne.symm hvb]

theorem get?_dephase (t : Tracking) (w v : Wire) :
    (t.dephase w).get? v =
      if v = w then (t.get? v).map fun s => if s.isClassical then s else .unknown
      else t.get? v := by
  unfold dephase
  by_cases hv : v = w
  · subst v
    rw [if_pos rfl]
    split
    next s hs =>
      split
      next hc => simp [hs, hc]
      next hc => simp [forget, get?_set, hs, hc]
    next hs => simp [hs]
  · rw [if_neg hv]
    split
    next s hs =>
      split
      next => rfl
      next => rw [forget, get?_set, if_neg (Ne.symm hv)]
    next => rfl

section Operand

variable {t : Tracking} {ws : List Wire}

theorem get?_propagateBase {g : BaseGate} (hlen : ws.length = g.arity) (hn : ws.Nodup)
    (hlt : ∀ w ∈ ws, w < t.size) (v : Wire) :
    (t.propagateBase g ws).get? v =
      if v ∈ ws then (t.get? ((Operation.mk (.base g) ws).source v)).map g.effect
      else t.get? v := by
  unfold propagateBase
  split
  next hk =>
    obtain rfl := BaseGate.eq_swap_of_kind hk
    obtain ⟨a, b, rfl⟩ := List.length_eq_two.mp hlen
    have heffect : BaseGate.swap.effect = id := rfl
    rw [get?_exchange t (by simpa using hn) (hlt a (by simp)) (hlt b (by simp)), heffect,
      Option.map_id]
    by_cases hv : v ∈ [a, b]
    · rw [if_pos hv]
      rfl
    · rw [if_neg hv]
      simp only [List.mem_cons, List.not_mem_nil, or_false, not_or] at hv
      rw [if_neg hv.1, if_neg hv.2]
  next hk =>
    obtain ⟨w, rfl⟩ := List.length_eq_one_iff.mp (hlen.trans (BaseGate.arity_of_kind hk))
    have heffect : g.effect = fun s => if s.isClassical then s else .unknown := by
      funext s
      simp only [BaseGate.effect, hk]
    have hsource : (Operation.mk (.base g) [w]).source v = v := by simp [Operation.source]
    rw [List.foldl_cons, List.foldl_nil, get?_dephase, heffect, hsource]
    simp only [List.mem_singleton]
  next hswap hphase =>
    have hsource : (Operation.mk (.base g) ws).source v = v := by
      unfold Operation.source
      split
      next hbare _ => exact absurd (congrArg BaseGate.kind (Option.some.inj hbare)) hswap
      next => rfl
    rw [hsource]
    split
    next f w hf =>
      have heffect : g.effect = f.apply := by
        funext s
        simp only [BaseGate.effect, hf]
      simp only [get?_transfer, heffect, List.mem_singleton, eq_comm]
    next hnone =>
      have hf : Transfer.ofBase? g = none := by
        cases hf : Transfer.ofBase? g with
        | none => rfl
        | some f =>
          obtain ⟨w, hw⟩ := List.length_eq_one_iff.mp (hlen.trans (Transfer.arity_of_ofBase hf))
          exact absurd hw (hnone f w hf)
      have heffect : g.effect = fun _ => .unknown := by
        funext s
        simp only [BaseGate.effect, hf]
      rw [get?_forgetAll, heffect]

/-- An operation brings to each of its wires the state of one of them, changed by its gate, and
leaves the other wires alone. -/
theorem get?_propagate {op : Operation} (hfits : op.Fits t.size) (v : Wire) :
    (t.propagate op).get? v =
      if v ∈ op.wires then (t.get? (op.source v)).map op.gate.effect else t.get? v := by
  have harity := hfits.arity_eq
  obtain ⟨gate, ws⟩ := op
  have hforget : gate.bare? = none → gate ≠ .reset → (t.forgetAll ws).get? v =
      if v ∈ ws then (t.get? ((Operation.mk gate ws).source v)).map gate.effect else t.get? v := by
    intro hbare hreset
    have heffect : gate.effect = fun _ => .unknown := by
      funext s
      simp only [Gate.effect, hbare, if_neg hreset]
    simp only [get?_forgetAll, heffect, Operation.source, hbare]
  cases gate with
  | base g => exact get?_propagateBase harity hfits.nodup hfits.lt_width v
  | halfSwap => exact hforget rfl (by simp)
  | reset =>
    obtain ⟨w, rfl⟩ := List.length_eq_one_iff.mp harity
    have heffect : Gate.reset.effect = fun _ => .zero := rfl
    have hstep : t.propagate ⟨.reset, [w]⟩ = t.set w .zero := rfl
    simp only [hstep, get?_set, heffect, List.mem_singleton, eq_comm, Operation.source, Gate.bare?]
  | controlled g p =>
    obtain ⟨bits⟩ := p
    cases bits with
    | nil =>
      -- without a control the gate is its base gate
      refine get?_propagateBase ?_ hfits.nodup hfits.lt_width v
      simpa [Gate.arity, Polarity.length] using harity
    | cons b bits => exact hforget rfl (by simp)

end Operand

end Tracking

/-- The first state says no more than the second. -/
def BasisState.Coarser (r s : BasisState) : Prop :=
  r = s ∨ r = .unknown

theorem BaseGate.effect_unknown (g : BaseGate) : g.effect .unknown = .unknown := by
  unfold effect
  split
  next => rfl
  next => rfl
  next =>
    split
    next f _ => cases f <;> rfl
    next => rfl

theorem BasisState.Coarser.effect {r s : BasisState} (h : r.Coarser s) (g : Gate) :
    (g.effect r).Coarser (g.effect s) := by
  rcases h with rfl | rfl
  · exact Or.inl rfl
  · unfold Gate.effect
    split
    next b _ => exact Or.inr b.effect_unknown
    next => exact Or.inl rfl

namespace Tracking

/-- The first tracking says no more than the second: on every wire it has the same state, or does
not know it. -/
def Coarser (r t : Tracking) : Prop :=
  r.size = t.size ∧ ∀ w, r.get? w = t.get? w ∨ r.get? w = some .unknown

theorem Coarser.refl (t : Tracking) : t.Coarser t :=
  ⟨rfl, fun _ => Or.inl rfl⟩

theorem Coarser.trans {q r t : Tracking} (hq : q.Coarser r) (hr : r.Coarser t) : q.Coarser t := by
  refine ⟨hq.1.trans hr.1, fun w => ?_⟩
  rcases hq.2 w with h | h
  · rcases hr.2 w with h' | h'
    · exact Or.inl (h.trans h')
    · exact Or.inr (h.trans h')
  · exact Or.inr h

theorem Coarser.state {r t : Tracking} (h : r.Coarser t) {w : Wire} {s : BasisState}
    (hs : t.get? w = some s) : ∃ s', r.get? w = some s' ∧ s'.Coarser s := by
  rcases h.2 w with he | hu
  · exact ⟨s, he.trans hs, Or.inl rfl⟩
  · exact ⟨.unknown, hu, Or.inr rfl⟩

/-- Knowing less before an operation is knowing no more after it. -/
theorem Coarser.propagate {r t : Tracking} (h : r.Coarser t) {op : Operation}
    (hfits : op.Fits t.size) : (r.propagate op).Coarser (t.propagate op) := by
  refine ⟨by rw [size_propagate, size_propagate, h.1], fun v => ?_⟩
  rw [get?_propagate hfits, get?_propagate (h.1 ▸ hfits)]
  by_cases hv : v ∈ op.wires
  · obtain ⟨s, hs⟩ := get?_of_lt (hfits.lt_width _ (Operation.source_mem hv))
    obtain ⟨s', hs', hc⟩ := h.state hs
    rw [if_pos hv, if_pos hv, hs, hs']
    rcases hc.effect op.gate with he | hu
    · exact Or.inl (congrArg some he)
    · exact Or.inr (congrArg some hu)
  · rw [if_neg hv, if_neg hv]
    exact h.2 v

end Tracking

end BasisFlow
