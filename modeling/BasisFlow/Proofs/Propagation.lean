import BasisFlow.Proofs.Knowledge
import BasisFlow.Proofs.Meaning

namespace BasisFlow

namespace Tracking

/-- Every state that is tracked and known is the state of its wire. -/
def Describes (t : Tracking) (ψ : Nat → ℂ) : Prop :=
  ∀ w s, t.get? w = some s → s ≠ .unknown → Factors ψ w s

section Access

variable (t : Tracking) (v w : Wire)

theorem get?_set (s : BasisState) :
    (t.set w s).get? v = if w = v then (t.get? v).map fun _ => s else t.get? v := by
  by_cases hv : w = v
  · subst v
    by_cases hw : w < t.states.length <;> simp [set, get?, hw]
  · simp [set, get?, hv]

theorem get?_transfer (f : Transfer) :
    (t.transfer w f).get? v = if w = v then (t.get? v).map f.apply else t.get? v := by
  by_cases hv : w = v <;> simp [transfer, get?, hv]

theorem get?_forgetAll (ws : List Wire) :
    (t.forgetAll ws).get? v = if v ∈ ws then (t.get? v).map fun _ => .unknown else t.get? v := by
  induction ws generalizing t with
  | nil => rfl
  | cons w ws ih =>
    have hstep : t.forgetAll (w :: ws) = (t.forget w).forgetAll ws := rfl
    rw [hstep, ih, forget, get?_set]
    by_cases hw : w = v
    · subst v
      simp [Option.map_map, Function.comp_def]
    · simp [hw, Ne.symm hw]

theorem get?_isSome_iff : (t.get? v).isSome ↔ v < t.size := by
  simp [get?, size]

end Access

@[simp] theorem size_set (t : Tracking) (w : Wire) (s : BasisState) : (t.set w s).size = t.size := by
  simp [set, size]

theorem size_foldl {f : Tracking → Wire → Tracking} (hf : ∀ t w, (f t w).size = t.size)
    (t : Tracking) (ws : List Wire) : (ws.foldl f t).size = t.size := by
  induction ws generalizing t with
  | nil => rfl
  | cons w ws ih => rw [List.foldl_cons, ih, hf]

theorem size_forgetAll (t : Tracking) (ws : List Wire) : (t.forgetAll ws).size = t.size :=
  size_foldl (fun t w => size_set t w .unknown) t ws

theorem size_exchange (t : Tracking) (a b : Wire) : (t.exchange a b).size = t.size := by
  unfold exchange
  split
  next => rw [size_set, size_set]
  next => rfl

theorem size_dephase (t : Tracking) (w : Wire) : (t.dephase w).size = t.size := by
  unfold dephase
  split
  next s _ =>
    split
    next => rfl
    next => exact size_set t w .unknown
  next => rfl

theorem size_propagateBase (t : Tracking) (g : BaseGate) (ws : List Wire) :
    (t.propagateBase g ws).size = t.size := by
  unfold propagateBase
  split
  next =>
    split
    next => exact size_exchange t _ _
    next => exact size_forgetAll t ws
  next => exact size_foldl size_dephase t ws
  next =>
    split
    next => simp [transfer, size]
    next => exact size_forgetAll t _

@[simp] theorem size_propagate (t : Tracking) (op : Operation) : (t.propagate op).size = t.size := by
  unfold propagate
  split
  next g _ => exact size_propagateBase t g op.wires
  next g p _ =>
    split
    next => exact size_propagateBase t g op.wires
    next => exact size_forgetAll t op.wires
  next => exact size_foldl (fun t w => size_set t w .zero) t op.wires
  next => exact size_forgetAll t op.wires

section Sound

variable {t : Tracking} {ψ : Nat → ℂ} {boxes : String → Nat → Operator ℂ}

theorem Describes.smul (h : t.Describes ψ) (σ : ℂ) : t.Describes fun k => σ * ψ k :=
  fun w s hs hk => (h w s hs hk).smul σ

/-- Only the wires that are acted on need to be looked at. -/
theorem Describes.of_touched (h : t.Describes ψ) {r : Tracking} {ws : List Wire} (hn : ws.Nodup)
    {m : Operator ℂ} (hoff : ∀ v, v ∉ ws → r.get? v = t.get? v)
    (hon : ∀ v ∈ ws, ∀ s, r.get? v = some s → s ≠ .unknown → Factors (m.on ws ψ) v s) :
    r.Describes (m.on ws ψ) := by
  intro v s hs hk
  by_cases hv : v ∈ ws
  · exact hon v hv s hs hk
  · rw [hoff v hv] at hs
    exact (h v s hs hk).on_of_notMem hn hv m

theorem Describes.forgetAll (h : t.Describes ψ) {ws : List Wire} (hn : ws.Nodup)
    (m : Operator ℂ) : (t.forgetAll ws).Describes (m.on ws ψ) := by
  apply h.of_touched hn
  · intro v hv
    rw [get?_forgetAll, if_neg hv]
  · intro v hv s hs hk
    rw [get?_forgetAll, if_pos hv] at hs
    obtain ⟨_, _, rfl⟩ := Option.map_eq_some_iff.mp hs
    exact absurd rfl hk

theorem Describes.transfer (h : t.Describes ψ) {w : Wire} {m : Operator ℂ} {f : Transfer}
    (hm : ∀ s, m.Sends s (f.apply s)) : (t.transfer w f).Describes (m.on [w] ψ) := by
  apply h.of_touched (List.nodup_singleton w)
  · intro v hv
    rw [get?_transfer, if_neg fun e => hv (by simp [e])]
  · intro v hv s hs hk
    obtain rfl := List.mem_singleton.mp hv
    rw [get?_transfer, if_pos rfl] at hs
    obtain ⟨r, hr, rfl⟩ := Option.map_eq_some_iff.mp hs
    have hknown : r ≠ .unknown := by
      rintro rfl
      exact hk (by cases f <;> rfl)
    exact (h v r hr hknown).on_single (hm r)

theorem Describes.dephase (h : t.Describes ψ) (w : Wire) (a d : ℂ) :
    (t.dephase w).Describes ((Operator.ofRows 1 [[a, 0], [0, d]]).on [w] ψ) := by
  unfold Tracking.dephase
  split
  next r hr =>
    split
    next hc =>
      apply h.of_touched (List.nodup_singleton w) (fun _ _ => rfl)
      intro v hv s hs hk
      obtain rfl := List.mem_singleton.mp hv
      obtain rfl := Option.some.inj (hr.symm.trans hs)
      exact (h v r hr hk).on_single (Operator.sends_diagonal a d hc)
    next => exact h.forgetAll (List.nodup_singleton w) _
  next hr =>
    apply h.of_touched (List.nodup_singleton w) (fun _ _ => rfl)
    intro v hv s hs _
    obtain rfl := List.mem_singleton.mp hv
    rw [hr] at hs
    cases hs

theorem Describes.exchange (h : t.Describes ψ) {a b : Wire} (hab : a ≠ b) (ha : a < t.size)
    (hb : b < t.size) :
    (t.exchange a b).Describes ((BaseGate.swap.exact boxes).on [a, b] ψ) := by
  have hn : [a, b].Nodup := by simpa using hab
  have hflip : (BaseGate.swap.exact boxes).on [a, b] ψ = (BaseGate.swap.exact boxes).on [b, a] ψ := by
    funext k
    rw [swap_on hab, swap_on (Ne.symm hab), exchanged_comm hab]
  obtain ⟨s, hs⟩ := Option.isSome_iff_exists.mp ((get?_isSome_iff t a).mpr ha)
  obtain ⟨r, hr⟩ := Option.isSome_iff_exists.mp ((get?_isSome_iff t b).mpr hb)
  have hex : t.exchange a b = (t.set a r).set b s := by simp [Tracking.exchange, hs, hr]
  rw [hex]
  apply h.of_touched hn
  · intro v hv
    have hva : a ≠ v := fun e => hv (by simp [e])
    have hvb : b ≠ v := fun e => hv (by simp [e])
    rw [get?_set, if_neg hvb, get?_set, if_neg hva]
  · intro v hv q hq hk
    rw [get?_set, get?_set] at hq
    rcases List.mem_cons.mp hv with rfl | hv
    · rw [if_neg (Ne.symm hab), if_pos rfl, hs] at hq
      obtain rfl := Option.some.inj hq
      rw [hflip]
      exact (h b _ hr hk).swap_on (Ne.symm hab)
    · obtain rfl := List.mem_singleton.mp hv
      rw [if_pos rfl, if_neg hab, hr] at hq
      obtain rfl := Option.some.inj hq
      exact (h a _ hs hk).swap_on hab

theorem Describes.set_zero (h : t.Describes ψ) (w : Wire) (outcome : Bool) :
    (t.set w .zero).Describes ((Gate.reset.exact boxes outcome).on [w] ψ) := by
  apply h.of_touched (List.nodup_singleton w)
  · intro v hv
    rw [get?_set, if_neg fun e => hv (by simp [e])]
  · intro v hv s hs _
    obtain rfl := List.mem_singleton.mp hv
    rw [get?_set, if_pos rfl] at hs
    obtain ⟨_, _, rfl⟩ := Option.map_eq_some_iff.mp hs
    exact ⟨fun k => ψ (assign k v outcome), fun k b => by simp only [assign_assign],
      fun k => reset_on outcome v ψ k⟩

theorem Describes.propagateBase (h : t.Describes ψ) {g : BaseGate} {ws : List Wire}
    (hn : ws.Nodup) (hlen : ws.length = g.arity) (hlt : ∀ w ∈ ws, w < t.size) :
    (t.propagateBase g ws).Describes ((g.exact boxes).on ws ψ) := by
  unfold Tracking.propagateBase
  split
  next hk =>
    have hg : g = .swap := by
      cases g with
      | swap => rfl
      | rz θ =>
        simp only [BaseGate.kind] at hk
        split at hk <;> cases hk
      | _ => cases hk
    subst hg
    obtain ⟨a, b, rfl⟩ := List.length_eq_two.mp hlen
    exact h.exchange (by simpa using hn) (hlt a (by simp)) (hlt b (by simp))
  next hk =>
    obtain ⟨a, d, hm⟩ := BaseGate.diagonal_of_kind boxes hk
    have harity : g.arity = 1 := by
      cases g with
      | swap => cases hk
      | blackBox name n => cases hk
      | _ => rfl
    obtain ⟨w, rfl⟩ := List.length_eq_one_iff.mp (hlen.trans harity)
    rw [hm]
    exact h.dephase w a d
  next =>
    split
    next f w hf => exact h.transfer fun s => Transfer.sends hf s
    next => exact h.forgetAll hn _

/-- What is known after an operation holds of the amplitudes after it. -/
theorem Describes.propagate (h : t.Describes ψ) {op : Operation} (hfits : op.Fits t.size)
    (outcome : Bool) :
    (t.propagate op).Describes ((op.gate.exact boxes outcome).on op.wires ψ) := by
  have harity := hfits.arity_eq
  obtain ⟨gate, ws⟩ := op
  cases gate with
  | base g => exact h.propagateBase hfits.nodup harity hfits.lt_width
  | halfSwap => exact h.forgetAll hfits.nodup _
  | reset =>
    obtain ⟨w, rfl⟩ := List.length_eq_one_iff.mp harity
    exact h.set_zero w outcome
  | controlled g p =>
    obtain ⟨bits⟩ := p
    cases bits with
    | nil =>
      have hmatrix : ((Gate.controlled g ⟨[]⟩).exact boxes outcome).on ws ψ =
          (g.exact boxes).on ws ψ := by
        funext k
        have hc := @Operator.controlled_on ℂ _ [] ws hfits.nodup (g.exact boxes) ψ k
        simpa [Fires, Gate.exact] using hc
      rw [hmatrix]
      refine h.propagateBase hfits.nodup ?_ hfits.lt_width
      simpa [Gate.arity, Polarity.length] using harity
    | cons b bits => exact h.forgetAll hfits.nodup _

theorem initial_describes (n : Nat) : (initial n).Describes Circuit.ground := by
  intro w s hs _
  have hzero : s = .zero := by
    simp only [initial, get?, List.getElem?_replicate, Option.ite_none_right_eq_some,
      Option.some.injEq] at hs
    exact hs.2.symm
  subst hzero
  refine ⟨fun k => Circuit.ground (assign k w false), fun k b => by simp only [assign_assign], ?_⟩
  intro k
  cases hk : k.testBit w with
  | false =>
    have hself : assign k w false = k := by rw [← hk, assign_testBit]
    simp only [hself, BasisState.amp, one_mul]
  | true =>
    have hne : k ≠ 0 := by
      rintro rfl
      simp at hk
    simp [Circuit.ground, hne, BasisState.amp]

end Sound

end Tracking

end BasisFlow
