import BasisFlow.Proofs.Agreement
import BasisFlow.Proofs.Decisions
import BasisFlow.Proofs.Visits

namespace BasisFlow

/-- What a pass makes of one operation: what becomes of it, and the operations in its place. -/
structure Treatment where
  op : Operation
  outcome : Outcome
  ops : List Operation
  deriving DecidableEq

namespace Options

/-- The reduction of an operation, and the operations whose effect is tracked for it. A reduced
swap is tracked as the swap that it was. There is none where no decision can be made; the node, here
a dummy, shows in the error only. -/
def plan (o : Options) (t : Tracking) (op : Operation) : Option (Reduction × List Operation) :=
  match op.gate with
  | .controlled g p =>
    if o.controls then
      (Controls.reduce 0 g p op.wires t).toOption.map fun d => (d.reduction, d.reduction.result op)
    else some (.keep, [op])
  | .base .swap =>
    if o.swaps then (Swaps.reduce 0 op.wires t).toOption.map fun d => (d.reduction, [op])
    else some (.keep, [op])
  | _ => some (.keep, [op])

def treat (o : Options) (t : Tracking) (op : Operation) : Option (Treatment × Tracking) :=
  (o.plan t op).map fun (r, acts) =>
    (⟨op, r.outcome, r.result op⟩, acts.foldl Tracking.propagate t)

/-- A pass over operations in a row. -/
def sweep (o : Options) (t : Tracking) : List Operation → Option (List Treatment × Tracking)
  | [] => some ([], t)
  | op :: ops => do
    let (e, u) ← o.treat t op
    let (es, v) ← o.sweep u ops
    return (e :: es, v)

variable {o : Options} {t u v : Tracking} {op : Operation} {e : Treatment} {r : Reduction}
  {acts : List Operation}

/-- All that a plan can be. -/
theorem plan_cases (h : o.plan t op = some (r, acts)) :
    (o.rule? op.gate.kind = none ∧ r = .keep ∧ acts = [op]) ∨
    (∃ g p d, op.gate = .controlled g p ∧ o.controls = true ∧
      Controls.reduce 0 g p op.wires t = .ok d ∧ d.reduction = r ∧ acts = r.result op) ∨
    ∃ d, op.gate = .base .swap ∧ o.swaps = true ∧ Swaps.reduce 0 op.wires t = .ok d ∧
      d.reduction = r ∧ acts = [op] := by
  unfold plan at h
  split at h
  next g p hgate =>
    split at h
    next hon =>
      obtain ⟨d, hd, h⟩ := Option.map_eq_some_iff.mp h
      cases h
      refine Or.inr (Or.inl ⟨g, p, d, hgate, hon, ?_, rfl, rfl⟩)
      cases hreduce : Controls.reduce 0 g p op.wires t with
      | error _ => simp [hreduce, Except.toOption] at hd
      | ok d' => simpa [hreduce, Except.toOption] using hd
    next hoff =>
      cases h
      exact Or.inl ⟨by simp [hgate, Gate.kind, rule?, hoff], rfl, rfl⟩
  next hgate =>
    split at h
    next hon =>
      obtain ⟨d, hd, h⟩ := Option.map_eq_some_iff.mp h
      cases h
      refine Or.inr (Or.inr ⟨d, hgate, hon, ?_, rfl, rfl⟩)
      cases hreduce : Swaps.reduce 0 op.wires t with
      | error _ => simp [hreduce, Except.toOption] at hd
      | ok d' => simpa [hreduce, Except.toOption] using hd
    next hoff =>
      cases h
      exact Or.inl ⟨by simp [hgate, Gate.kind, BaseGate.kind, rule?, hoff], rfl, rfl⟩
  next hcontrolled hswap =>
    cases h
    refine Or.inl ⟨?_, rfl, rfl⟩
    cases hgate : op.gate with
    | base g => exact rule?_base (fun e => hswap (e ▸ hgate)) o
    | controlled g p => exact absurd hgate (hcontrolled g p)
    | _ => rfl

/-- There is no plan for a controlled gate on which no decision can be made, and only there. -/
theorem plan_eq_none (h : o.plan t op = none) (hfits : op.Fits t.size) :
    ∃ g p e, op.gate = .controlled g p ∧ o.controls = true ∧
      Controls.reduce 0 g p op.wires t = .error e := by
  obtain ⟨gate, wires⟩ := op
  unfold plan at h
  split at h
  next g p hgate =>
    split at h
    next hon =>
      refine ⟨g, p, ?_⟩
      cases hreduce : Controls.reduce 0 g p wires t with
      | error e => exact ⟨e, hgate, hon, rfl⟩
      | ok d => simp [hreduce, Except.toOption] at h
    next => cases h
  next hgate =>
    obtain rfl : gate = .base .swap := hgate
    split at h
    next =>
      obtain ⟨_, _, _, _, _, _, _, hreduce⟩ := @Swaps.reduce_eq 0 wires t hfits
      simp [hreduce, Except.toOption] at h
    next => cases h
  next => cases h

theorem plan_staysOn (h : o.plan t op = some (r, acts)) (hfits : op.Fits t.size) :
    r.StaysOn op := by
  obtain ⟨gate, wires⟩ := op
  rcases plan_cases h with ⟨_, rfl, _⟩ | ⟨g, p, d, rfl, _, hd, rfl, _⟩ | ⟨d, rfl, _, hd, rfl, _⟩
  · exact Reduction.keep_staysOn _
  · exact Controls.reduce_staysOn hd hfits
  · exact Swaps.reduce_staysOn hd hfits.nodup

theorem plan_acts (h : o.plan t op = some (r, acts)) (hfits : op.Fits t.size) :
    ∀ a ∈ acts, a.Fits t.size ∧ ∀ w ∈ a.wires, w ∈ op.wires := by
  have hself : ∀ a ∈ [op], a.Fits t.size ∧ ∀ w ∈ a.wires, w ∈ op.wires := by
    intro a ha
    obtain rfl := List.mem_singleton.mp ha
    exact ⟨hfits, fun _ hw => hw⟩
  have hresult := (plan_staysOn h hfits).result hfits
  rcases plan_cases h with ⟨_, _, rfl⟩ | ⟨_, _, _, _, _, _, _, rfl⟩ | ⟨_, _, _, _, _, rfl⟩
  · exact hself
  · exact hresult
  · exact hself

theorem plan_congr (hsize : t.size = u.size) (h : ∀ w ∈ op.wires, t.get? w = u.get? w) :
    o.plan t op = o.plan u op := by
  have hlook : ∀ w ∈ op.wires, t.look w = u.look w :=
    fun w hw => Tracking.look_congr hsize (h w hw)
  unfold plan
  split
  next => rw [Controls.reduce_congr hlook]
  next => rw [Swaps.reduce_congr hlook]
  next => rfl

theorem treat_eq_some (h : o.treat t op = some (e, u)) :
    ∃ r acts, o.plan t op = some (r, acts) ∧ e = ⟨op, r.outcome, r.result op⟩ ∧
      u = acts.foldl Tracking.propagate t := by
  obtain ⟨⟨r, acts⟩, hplan, h⟩ := Option.map_eq_some_iff.mp h
  cases h
  exact ⟨r, acts, hplan, rfl, rfl⟩

theorem treat_op (h : o.treat t op = some (e, u)) : e.op = op := by
  obtain ⟨_, _, _, rfl, _⟩ := treat_eq_some h
  rfl

theorem treat_size (h : o.treat t op = some (e, u)) : u.size = t.size := by
  obtain ⟨_, acts, _, _, rfl⟩ := treat_eq_some h
  exact Tracking.size_foldl_propagate t acts

theorem treat_ops (h : o.treat t op = some (e, u)) (hfits : op.Fits t.size) :
    ∀ a ∈ e.ops, a.Fits t.size ∧ ∀ w ∈ a.wires, w ∈ e.op.wires := by
  obtain ⟨r, _, hplan, rfl, _⟩ := treat_eq_some h
  exact (plan_staysOn hplan hfits).result hfits

end Options

namespace Tracking

variable {t u : Tracking} {ops : List Operation} {ws : List Wire}

theorem get?_foldl_propagate (h : ∀ a ∈ ops, a.Fits t.size ∧ ∀ w ∈ a.wires, w ∈ ws) {v : Wire}
    (hv : v ∉ ws) : (ops.foldl propagate t).get? v = t.get? v := by
  induction ops generalizing t with
  | nil => rfl
  | cons a ops ih =>
    obtain ⟨hfits, hin⟩ := h a (by simp)
    have hrest : ∀ b ∈ ops, b.Fits (t.propagate a).size ∧ ∀ w ∈ b.wires, w ∈ ws := by
      intro b hb
      rw [size_propagate]
      exact h b (by simp [hb])
    rw [List.foldl_cons, ih hrest, get?_propagate hfits, if_neg fun hm => hv (hin v hm)]

theorem foldl_propagate_congr (hsize : t.size = u.size)
    (h : ∀ a ∈ ops, a.Fits t.size ∧ ∀ w ∈ a.wires, w ∈ ws)
    (hsame : ∀ w ∈ ws, t.get? w = u.get? w) :
    ∀ w ∈ ws, (ops.foldl propagate t).get? w = (ops.foldl propagate u).get? w := by
  induction ops generalizing t u with
  | nil => exact hsame
  | cons a ops ih =>
    obtain ⟨hfits, hin⟩ := h a (by simp)
    rw [List.foldl_cons, List.foldl_cons]
    apply ih
    · rw [size_propagate, size_propagate, hsize]
    · intro b hb
      rw [size_propagate]
      exact h b (by simp [hb])
    · intro w hw
      rw [get?_propagate hfits, get?_propagate (hsize ▸ hfits)]
      by_cases hm : w ∈ a.wires
      · rw [if_pos hm, if_pos hm, hsame _ (hin _ (Operation.source_mem hm))]
      · rw [if_neg hm, if_neg hm, hsame w hw]

end Tracking

namespace Options

variable {o : Options} {t u v : Tracking} {op x y : Operation} {e ex ey : Treatment}

theorem treat_frame (h : o.treat t op = some (e, u)) (hfits : op.Fits t.size) {w : Wire}
    (hw : w ∉ op.wires) : u.get? w = t.get? w := by
  obtain ⟨_, _, hplan, _, rfl⟩ := treat_eq_some h
  exact Tracking.get?_foldl_propagate (plan_acts hplan hfits) hw

theorem treat_congr (h : o.treat t op = some (e, u)) (hfits : op.Fits t.size)
    (hsize : t.size = v.size) (hsame : ∀ w ∈ op.wires, t.get? w = v.get? w) :
    ∃ u', o.treat v op = some (e, u') ∧ ∀ w ∈ op.wires, u.get? w = u'.get? w := by
  obtain ⟨r, acts, hplan, rfl, rfl⟩ := treat_eq_some h
  refine ⟨acts.foldl Tracking.propagate v, ?_, ?_⟩
  · rw [treat, ← plan_congr hsize hsame, hplan]
    rfl
  · exact Tracking.foldl_propagate_congr hsize (plan_acts hplan hfits) hsame

/-- Visits of two operations that share no wire can be made in either order. -/
theorem treat_comm (hx : x.Fits t.size) (hy : y.Fits t.size) (hapart : x.wires.Disjoint y.wires)
    (hex : o.treat t x = some (ex, u)) (hey : o.treat u y = some (ey, v)) :
    ∃ u', o.treat t y = some (ey, u') ∧ o.treat u' x = some (ex, v) := by
  have hu := treat_size hex
  have hyu : y.Fits u.size := hu ▸ hy
  obtain ⟨u', hey', hony⟩ := treat_congr hey hyu hu fun w hw =>
    treat_frame hex hx fun hm => hapart hm hw
  have hu' := treat_size hey'
  obtain ⟨v', hex', honx⟩ := treat_congr hex hx hu'.symm fun w hw =>
    (treat_frame hey' hy fun hm => hapart hw hm).symm
  have hxu' : x.Fits u'.size := hu' ▸ hx
  have hv : v = v' := by
    apply Tracking.ext_get?
    intro w
    by_cases hwx : w ∈ x.wires
    · rw [treat_frame hey hyu (hapart hwx), honx w hwx]
    · rw [treat_frame hex' hxu' hwx]
      by_cases hwy : w ∈ y.wires
      · exact hony w hwy
      · rw [treat_frame hey hyu hwy, treat_frame hex hx hwx, treat_frame hey' hy hwy]
  exact ⟨u', hey', hv ▸ hex'⟩

variable {ops xs ys : List Operation} {es fs : List Treatment}

theorem sweep_cons_eq_some :
    o.sweep t (op :: ops) = some (es, v) ↔
      ∃ e u fs, o.treat t op = some (e, u) ∧ o.sweep u ops = some (fs, v) ∧ es = e :: fs := by
  constructor
  · intro h
    obtain ⟨⟨e, u⟩, htreat, h⟩ := Option.bind_eq_some_iff.mp h
    obtain ⟨⟨fs, v'⟩, hsweep, h⟩ := Option.bind_eq_some_iff.mp h
    cases h
    exact ⟨e, u, fs, htreat, hsweep, rfl⟩
  · rintro ⟨e, u, fs, htreat, hsweep, rfl⟩
    simp [sweep, htreat, hsweep]

theorem sweep_append_eq_some :
    o.sweep t (xs ++ ys) = some (es, v) ↔
      ∃ fs u gs, o.sweep t xs = some (fs, u) ∧ o.sweep u ys = some (gs, v) ∧ es = fs ++ gs := by
  induction xs generalizing t es with
  | nil =>
    constructor
    · intro h
      exact ⟨[], t, es, rfl, h, rfl⟩
    · rintro ⟨fs, u, gs, hxs, hys, rfl⟩
      cases hxs
      exact hys
  | cons x xs ih =>
    rw [List.cons_append, sweep_cons_eq_some]
    constructor
    · rintro ⟨e, u, rest, htreat, hsweep, rfl⟩
      obtain ⟨fs, u', gs, hxs, hys, rfl⟩ := ih.mp hsweep
      exact ⟨e :: fs, u', gs, sweep_cons_eq_some.mpr ⟨e, u, fs, htreat, hxs, rfl⟩, hys, rfl⟩
    · rintro ⟨fs, u', gs, hxs, hys, rfl⟩
      obtain ⟨e, u, rest, htreat, hrest, rfl⟩ := sweep_cons_eq_some.mp hxs
      exact ⟨e, u, rest ++ gs, htreat, ih.mpr ⟨rest, u', gs, hrest, hys, rfl⟩, rfl⟩

theorem sweep_size (h : o.sweep t ops = some (es, v)) : v.size = t.size := by
  induction ops generalizing t es with
  | nil =>
    cases h
    rfl
  | cons op ops ih =>
    obtain ⟨e, u, fs, htreat, hsweep, _⟩ := sweep_cons_eq_some.mp h
    rw [ih hsweep, treat_size htreat]

theorem sweep_fits (h : o.sweep t ops = some (es, v)) (hfits : ∀ op ∈ ops, op.Fits t.size) :
    ∀ e ∈ es, ∀ a ∈ e.ops, a.Fits t.size ∧ ∀ w ∈ a.wires, w ∈ e.op.wires := by
  induction ops generalizing t es with
  | nil =>
    cases h
    simp
  | cons op ops ih =>
    obtain ⟨e, u, fs, htreat, hsweep, rfl⟩ := sweep_cons_eq_some.mp h
    have hu := treat_size htreat
    intro e' he'
    rcases List.mem_cons.mp he' with rfl | he'
    · exact treat_ops htreat (hfits op (by simp))
    · rw [← hu]
      exact ih hsweep (fun a ha => hu ▸ hfits a (by simp [ha])) e' he'

theorem sweep_exchange (h : Exchange Operation.wires xs ys) (hfits : ∀ op ∈ xs, op.Fits t.size)
    (hs : o.sweep t xs = some (es, v)) :
    ∃ fs, o.sweep t ys = some (fs, v) ∧ Exchange (·.op.wires) es fs := by
  obtain @⟨front, back, x, y, apart⟩ := h
  obtain ⟨efront, u, _, hfront, hxy, rfl⟩ := sweep_append_eq_some.mp hs
  obtain ⟨ex, u₁, _, hex, hy, rfl⟩ := sweep_cons_eq_some.mp hxy
  obtain ⟨ey, u₂, eback, hey, hback, rfl⟩ := sweep_cons_eq_some.mp hy
  have hu := sweep_size hfront
  obtain ⟨u', hey', hex'⟩ :=
    treat_comm (hu ▸ hfits x (by simp)) (hu ▸ hfits y (by simp)) apart hex hey
  have hrest : o.sweep u (y :: x :: back) = some (ey :: ex :: eback, v) :=
    sweep_cons_eq_some.mpr ⟨ey, u', ex :: eback, hey',
      sweep_cons_eq_some.mpr ⟨ex, u₂, eback, hex', hback, rfl⟩, rfl⟩
  refine ⟨efront ++ ey :: ex :: eback,
    sweep_append_eq_some.mpr ⟨efront, u, _, hfront, hrest, rfl⟩, .swap efront eback ?_⟩
  rw [treat_op hex, treat_op hey]
  exact apart

/-- The order of operations that share no wire makes no difference to a pass. -/
theorem sweep_rearranged (h : Rearranged Operation.wires xs ys)
    (hfits : ∀ op ∈ xs, op.Fits t.size) (hs : o.sweep t xs = some (es, v)) :
    ∃ fs, o.sweep t ys = some (fs, v) ∧ Rearranged (·.op.wires) es fs := by
  induction h with
  | refl => exact ⟨es, hs, Rearranged.refl es⟩
  | @tail ms ys hm hstep ih =>
    obtain ⟨fs, hfs, hes⟩ := ih
    have hmfits : ∀ op ∈ ms, op.Fits t.size :=
      fun op hop => hfits op ((show Rearranged _ xs ms from hm).perm.mem_iff.mpr hop)
    obtain ⟨gs, hgs, hstep'⟩ := sweep_exchange hstep hmfits hfs
    exact ⟨gs, hgs, hes.tail hstep'⟩

end Options

end BasisFlow
