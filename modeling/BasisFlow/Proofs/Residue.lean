import BasisFlow.Proofs.Sweep

namespace BasisFlow

namespace Tracking

theorem Coarser.foldl_propagate {r t : Tracking} (h : r.Coarser t) {ops : List Operation}
    (hfits : ∀ op ∈ ops, op.Fits t.size) :
    (ops.foldl Tracking.propagate r).Coarser (ops.foldl Tracking.propagate t) := by
  induction ops generalizing r t with
  | nil => exact h
  | cons op ops ih =>
    rw [List.foldl_cons, List.foldl_cons]
    apply ih (h.propagate (hfits op (by simp)))
    intro a ha
    rw [size_propagate]
    exact hfits a (by simp [ha])

end Tracking

namespace Swaps

/-- What is known of the two wires behind a step. -/
def Step.carry : Step → BasisState × BasisState → BasisState × BasisState
  | .x .top, (s, r) => (Transfer.flipBit s, r)
  | .x .bottom, (s, r) => (s, Transfer.flipBit r)
  | .z .top, (s, r) => (Transfer.flipPhase s, r)
  | .z .bottom, (s, r) => (s, Transfer.flipPhase r)
  | .h .top, (s, r) => (Transfer.changeBasis s, r)
  | .h .bottom, (s, r) => (s, Transfer.changeBasis r)
  | .halfSwap _ _, _ => (.unknown, .unknown)

variable {t : Tracking} {a b : Wire} {s r : BasisState}

theorem Step.propagate_carry (hab : a ≠ b) (hs : t.get? a = some s) (hr : t.get? b = some r)
    {st : Step} (hp : st.isProper) :
    (t.propagate ⟨st.gate, st.wires a b⟩).get? a = some (st.carry (s, r)).1 ∧
      (t.propagate ⟨st.gate, st.wires a b⟩).get? b = some (st.carry (s, r)).2 := by
  have htransfer : ∀ (f : Transfer), (t.transfer a f).get? a = some (f.apply s) ∧
      (t.transfer a f).get? b = some r ∧ (t.transfer b f).get? a = some s ∧
      (t.transfer b f).get? b = some (f.apply r) := by
    intro f
    simp [Tracking.get?_transfer, hs, hr, hab, Ne.symm hab]
  cases st with
  | x q =>
    obtain ⟨haa, hba, hab', hbb⟩ := htransfer .bitFlip
    cases q
    · exact ⟨haa, hba⟩
    · exact ⟨hab', hbb⟩
  | z q =>
    obtain ⟨haa, hba, hab', hbb⟩ := htransfer .phaseFlip
    cases q
    · exact ⟨haa, hba⟩
    · exact ⟨hab', hbb⟩
  | h q =>
    obtain ⟨haa, hba, hab', hbb⟩ := htransfer .basisChange
    cases q
    · exact ⟨haa, hba⟩
    · exact ⟨hab', hbb⟩
  | halfSwap q q' =>
    have hboth : a ∈ (Step.halfSwap q q').wires a b ∧ b ∈ (Step.halfSwap q q').wires a b := by
      cases q <;> cases q' <;> simp_all [Step.isProper, Step.wires, Role.wire]
    have hforget : t.propagate ⟨(Step.halfSwap q q').gate, (Step.halfSwap q q').wires a b⟩ =
        t.forgetAll ((Step.halfSwap q q').wires a b) := rfl
    rw [hforget, Tracking.get?_forgetAll, Tracking.get?_forgetAll, if_pos hboth.1, if_pos hboth.2,
      hs, hr]
    exact ⟨rfl, rfl⟩

theorem foldl_carry (hab : a ≠ b) (hs : t.get? a = some s) (hr : t.get? b = some r)
    {steps : List Step} (hp : ∀ st ∈ steps, st.isProper) :
    ((steps.map fun st => ⟨st.gate, st.wires a b⟩).foldl Tracking.propagate t).get? a =
        some (steps.foldl (fun p st => st.carry p) (s, r)).1 ∧
      ((steps.map fun st => ⟨st.gate, st.wires a b⟩).foldl Tracking.propagate t).get? b =
        some (steps.foldl (fun p st => st.carry p) (s, r)).2 := by
  induction steps generalizing t s r with
  | nil => exact ⟨hs, hr⟩
  | cons st steps ih =>
    obtain ⟨ha, hb⟩ := st.propagate_carry hab hs hr (hp st (by simp))
    exact ih ha hb fun q hq => hp q (by simp [hq])

/-- Behind a replacement, the two states are known to be exchanged or not known at all. -/
theorem lookup_carry (hne : s ≠ r) {steps : List Step} {o : Orientation}
    (h : lookup? s r = some (steps, o)) :
    (steps.foldl (fun p st => st.carry p) (arranged o (s, r))).1.Coarser (arranged o (s, r)).2 ∧
      (steps.foldl (fun p st => st.carry p) (arranged o (s, r))).2.Coarser
        (arranged o (s, r)).1 := by
  unfold BasisState.Coarser
  cases s <;> cases r <;> first | contradiction | (cases h; decide)

/-- A replacement of a swap lets no more be known than the swap. -/
theorem replacement_coarser (hab : a ≠ b) (hs : t.get? a = some s) (hr : t.get? b = some r)
    (hne : s ≠ r) {steps : List Step} {o : Orientation} (h : lookup? s r = some (steps, o))
    {ops : List Operation} (hops : ops = (steps.map (·.op o)).map (·.onto [a, b]))
    (hin : ∀ op ∈ ops, op.Fits t.size ∧ ∀ w ∈ op.wires, w ∈ [a, b]) :
    (ops.foldl Tracking.propagate t).Coarser (t.exchange a b) := by
  have hproper := isProper_of_lookup h
  have ha : a < t.size := (t.get?_isSome_iff a).mp (by simp [hs])
  have hb : b < t.size := (t.get?_isSome_iff b).mp (by simp [hr])
  have hcarry := lookup_carry hne h
  -- the steps are on the two wires in the order of their roles
  obtain ⟨s', r', hs', hr', hsc, hrc⟩ : ∃ s' r', (ops.foldl Tracking.propagate t).get? a = some s' ∧
      (ops.foldl Tracking.propagate t).get? b = some r' ∧ s'.Coarser r ∧ r'.Coarser s := by
    have hlist : ops = steps.map fun st =>
        ⟨st.gate, st.wires (arranged o (a, b)).1 (arranged o (a, b)).2⟩ := by
      rw [hops, List.map_map]
      exact List.map_congr_left fun st _ => op_onto o a b
    rw [hlist]
    cases o with
    | same =>
      obtain ⟨hfirst, hsecond⟩ := foldl_carry hab hs hr hproper
      exact ⟨_, _, hfirst, hsecond, hcarry.1, hcarry.2⟩
    | exchanged =>
      obtain ⟨hfirst, hsecond⟩ := foldl_carry (Ne.symm hab) hr hs hproper
      exact ⟨_, _, hsecond, hfirst, hcarry.2, hcarry.1⟩
  refine ⟨by rw [Tracking.size_foldl_propagate, Tracking.size_exchange], fun v => ?_⟩
  rw [Tracking.get?_exchange t hab ha hb]
  by_cases hva : v = a
  · subst v
    rw [if_pos rfl, hs', hr]
    exact hsc.imp (congrArg some) (congrArg some)
  · by_cases hvb : v = b
    · subst v
      rw [if_neg hva, if_pos rfl, hr', hs]
      exact hrc.imp (congrArg some) (congrArg some)
    · rw [if_neg hva, if_neg hvb]
      exact Or.inl (Tracking.get?_foldl_propagate hin (by simp [hva, hvb]))

end Swaps

namespace Controls

variable {node : NodeId} {g : BaseGate} {p : Polarity} {wires : List Wire} {t r : Tracking}

/-- No bit of a control is known, and a bit flip is not on a target in a phase state. -/
def Idle (t : Tracking) (g : BaseGate) (p : Polarity) (wires : List Wire) : Prop :=
  p.isEmpty ∨ ((∀ c ∈ pairs p wires, t.bit? c.1 = none) ∧
    ∃ target, (wires.drop p.length).getLast? = some target ∧
      (g = .x → t.get? target ≠ some .plus ∧ t.get? target ≠ some .minus))

theorem survivors_eq_self {cs : List (Wire × Bool)} :
    (survivors t cs).length = cs.length ↔ ∀ c ∈ cs, t.bit? c.1 = none := by
  rw [survivors, List.length_filter_eq_length_iff]
  simp

theorem find?_contradicts_of_free {cs : List (Wire × Bool)} (h : ∀ c ∈ cs, t.bit? c.1 = none) :
    cs.find? (contradicts t) = none := by
  apply List.find?_eq_none.mpr
  intro c hc
  simp [contradicts, h c hc]

/-- An idle gate is kept. -/
theorem Idle.reduce_eq (h : Idle t g p wires)
    (hfits : (Operation.mk (.controlled g p) wires).Fits t.size) :
    reduce node g p wires t = .ok ⟨.keep, none⟩ := by
  rw [Controls.reduce_eq hfits]
  rcases h with he | ⟨hfree, target, htarget, hg⟩
  · rw [if_pos he]
  · split
    next => rfl
    next =>
      simp only [htarget]
      have hplus : ¬ (g = .x ∧ t.get? target = some .plus) := fun h => (hg h.1).1 h.2
      have hminus : ¬ (g = .x ∧ t.get? target = some .minus) := fun h => (hg h.1).2 h.2
      simp only [settle, if_neg hplus, find?_contradicts_of_free hfree, if_neg hminus,
        if_pos (survivors_eq_self.mpr hfree)]

/-- Who knows less finds the same gates idle. -/
theorem Idle.coarser (h : Idle t g p wires) (hr : r.Coarser t) : Idle r g p wires := by
  rcases h with he | ⟨hfree, target, htarget, hg⟩
  · exact Or.inl he
  · refine Or.inr ⟨?_, target, htarget, ?_⟩
    · intro c hc
      rcases hr.bit?_eq c.1 with he | hn
      · rw [he, hfree c hc]
      · exact hn
    · intro hx
      rcases hr.2 target with he | hu
      · rw [he]
        exact hg hx
      · rw [hu]
        exact ⟨by simp, by simp⟩

theorem pairs_append (S : List (Wire × Bool)) (ts : List Wire) :
    pairs ⟨S.map (·.2)⟩ (S.map (·.1) ++ ts) = S ∧
      (S.map (·.1) ++ ts).drop (Polarity.length ⟨S.map (·.2)⟩) = ts := by
  have hlen : (S.map (·.1)).length = Polarity.length ⟨S.map (·.2)⟩ := by simp [Polarity.length]
  constructor
  · rw [pairs, List.take_left' hlen, List.zip_map']
    exact List.map_id' S
  · rw [List.drop_left' hlen]

theorem survivors_free {cs : List (Wire × Bool)} {c : Wire × Bool} (h : c ∈ survivors t cs) :
    t.bit? c.1 = none := by
  simpa using (List.mem_filter.mp h).2

/-- A gate that has lost its known controls is idle, if it has any left. -/
theorem idle_of_survivors {cs : List (Wire × Bool)} {targets : List Wire} {target : Wire}
    (htarget : targets.getLast? = some target)
    (hg : g = .x → t.get? target ≠ some .plus ∧ t.get? target ≠ some .minus)
    {S : List (Wire × Bool)} (hS : ∀ c ∈ S, c ∈ survivors t cs) :
    Idle t g ⟨S.map (·.2)⟩ (S.map (·.1) ++ targets) := by
  obtain ⟨hpairs, hdrop⟩ := pairs_append S targets
  refine Or.inr ⟨?_, target, by rw [hdrop, htarget], hg⟩
  rw [hpairs]
  exact fun c hc => survivors_free (hS c hc)

/-- The one operation that a reduction of a controlled gate leaves in its place: a gate without
controls, or one that is idle. -/
structure Left (t : Tracking) (op : Operation) (r : Reduction) (a : Operation) : Prop where
  result_eq : r.result op = [a]
  outcome_eq : r.outcome = .substituted
  settled : (∃ b, a.gate = .base b) ∨
    ∃ g p, a.gate = .controlled g p ∧ Idle t g p a.wires

theorem single_left {op : Operation} {gate : Gate} {ws : List Wire}
    (h : (∃ b, gate = .base b) ∨ ∃ g p, gate = .controlled g p ∧ Idle t g p ws) :
    Left t op (.single gate ws) ⟨gate, ws⟩ :=
  ⟨Reduction.result_single op gate ws, rfl, h⟩

theorem kickback_left {cs : List (Wire × Bool)} {d : Decision} {op : Operation}
    (h : kickback (survivors t cs) = .ok d) :
    d.reduction = .remove ∨ ∃ a, Left t op d.reduction a := by
  rcases kickback_cases h with ⟨_, hd⟩ | ⟨w, b, _, hd⟩ | ⟨target, _, _, hd⟩
  · exact Or.inl hd
  · rw [hd]
    exact Or.inr ⟨_, single_left (Or.inl ⟨.z, rfl⟩)⟩
  · rw [hd]
    refine Or.inr ⟨_, single_left (Or.inr ⟨.z, _, rfl, ?_⟩)⟩
    have hlast : [target.1].getLast? = some target.1 := rfl
    exact idle_of_survivors hlast (by simp) fun c hc => List.mem_of_mem_erase hc

/-- What a decision on a controlled gate leaves: the gate itself if it is idle, nothing, or one
operation. -/
theorem reduce_left {d : Decision} (h : reduce node g p wires t = .ok d)
    (hfits : (Operation.mk (.controlled g p) wires).Fits t.size) :
    (d.reduction = .keep ∧ Idle t g p wires) ∨ d.reduction = .remove ∨
      ∃ a, Left t ⟨.controlled g p, wires⟩ d.reduction a := by
  rw [reduce_eq hfits] at h
  split at h
  next hempty =>
    cases h
    exact Or.inl ⟨rfl, Or.inl hempty⟩
  next =>
    split at h
    next => cases h
    next target htarget =>
      unfold settle at h
      split at h
      next =>
        cases h
        exact Or.inr (Or.inl rfl)
      next hplus =>
        split at h
        next =>
          cases h
          exact Or.inr (Or.inl rfl)
        next =>
          split at h
          next => exact Or.inr (kickback_left h)
          next hminus =>
            have hg : g = .x → t.get? target ≠ some .plus ∧ t.get? target ≠ some .minus :=
              fun hx => ⟨fun he => hplus ⟨hx, he⟩, fun he => hminus ⟨hx, he⟩⟩
            split at h
            next hall =>
              cases h
              exact Or.inl ⟨rfl, Or.inr ⟨survivors_eq_self.mp hall, target, htarget, hg⟩⟩
            next =>
              cases h
              refine Or.inr (Or.inr ⟨_, single_left ?_⟩)
              split
              next => exact Or.inl ⟨g, rfl⟩
              next => exact Or.inr ⟨g, _, rfl, idle_of_survivors htarget hg fun _ hc => hc⟩

end Controls

namespace Options

variable {o : Options} {r t u : Tracking} {op : Operation} {e : Treatment} {ops : List Operation}

theorem plan_unruled (h : o.rule? op.gate.kind = none) (t : Tracking) :
    o.plan t op = some (.keep, [op]) := by
  obtain ⟨gate, wires⟩ := op
  unfold plan
  split
  next g p hgate =>
    obtain rfl : gate = .controlled g p := hgate
    rw [if_neg]
    intro hon
    simp [Gate.kind, rule?, hon] at h
  next hgate =>
    obtain rfl : gate = .base .swap := hgate
    rw [if_neg]
    intro hon
    simp [Gate.kind, BaseGate.kind, rule?, hon] at h
  next => rfl

theorem plan_idle {g : BaseGate} {p : Polarity} (hgate : op.gate = .controlled g p)
    (h : Controls.Idle t g p op.wires) (hfits : op.Fits t.size) :
    o.plan t op = some (.keep, [op]) := by
  obtain ⟨gate, wires⟩ := op
  obtain rfl : gate = .controlled g p := hgate
  simp only [plan, h.reduce_eq hfits]
  split <;> rfl

theorem plan_swap (hgate : op.gate = .base .swap) (hfits : op.Fits t.size) :
    ∃ r, o.plan t op = some (r, [op]) := by
  obtain ⟨gate, wires⟩ := op
  obtain rfl : gate = .base .swap := hgate
  obtain ⟨_, _, _, _, _, _, _, hreduce⟩ := @Swaps.reduce_eq 0 wires t hfits
  simp only [plan, hreduce]
  split <;> exact ⟨_, rfl⟩

/-- A sweep over the operations comes to know no more than `u`, and rewrites swaps at most; in a
settled case it rewrites nothing. -/
def Resweeps (o : Options) (r : Tracking) (ops : List Operation) (u : Tracking)
    (settled : Prop) : Prop :=
  ∃ es v, o.sweep r ops = some (es, v) ∧ v.Coarser u ∧
    (∀ e ∈ es, e.outcome ≠ .kept → e.op.gate = .base .swap) ∧
    (settled → ∀ e ∈ es, e.outcome = .kept)

theorem resweeps_nil (hr : r.Coarser u) (settled : Prop) : o.Resweeps r [] u settled :=
  ⟨[], r, rfl, hr, by simp, by simp⟩

theorem resweeps_unruled (h : ∀ a ∈ ops, o.rule? a.gate.kind = none)
    (hu : (ops.foldl Tracking.propagate r).Coarser u) (settled : Prop) :
    o.Resweeps r ops u settled := by
  obtain ⟨es, hes, hkept⟩ : ∃ es, o.sweep r ops = some (es, ops.foldl Tracking.propagate r) ∧
      ∀ e ∈ es, e.outcome = .kept := by
    clear hu
    induction ops generalizing r with
    | nil => exact ⟨[], rfl, by simp⟩
    | cons a ops ih =>
      have htreat : o.treat r a = some (⟨a, .kept, [a]⟩, r.propagate a) := by
        rw [treat, plan_unruled (h a (by simp))]
        rfl
      obtain ⟨es, hes, hkept⟩ := ih (r := r.propagate a) fun b hb => h b (by simp [hb])
      exact ⟨_, sweep_cons_eq_some.mpr ⟨_, _, es, htreat, hes, rfl⟩, by simpa using hkept⟩
  exact ⟨es, _, hes, hu, fun e he hn => absurd (hkept e he) hn, fun _ => hkept⟩

theorem resweeps_single {k : Reduction} (h : o.plan r op = some (k, [op]))
    (hu : (r.propagate op).Coarser u) {settled : Prop}
    (hk : k = .keep ∨ (op.gate = .base .swap ∧ ¬ settled)) : o.Resweeps r [op] u settled := by
  have htreat : o.treat r op = some (⟨op, k.outcome, k.result op⟩, r.propagate op) := by
    rw [treat, h]
    rfl
  refine ⟨_, _, sweep_cons_eq_some.mpr ⟨_, _, [], htreat, rfl, rfl⟩, hu, ?_, ?_⟩
  · intro e he hn
    obtain rfl := List.mem_singleton.mp he
    rcases hk with rfl | ⟨hswap, _⟩
    · exact absurd rfl hn
    · exact hswap
  · intro hsettled e he
    obtain rfl := List.mem_singleton.mp he
    rcases hk with rfl | ⟨_, hno⟩
    · rfl
    · exact absurd hsettled hno

/-- What is left of a controlled gate, visited again by one who knows no more. -/
theorem controls_again {g : BaseGate} {p : Polarity} {wires : List Wire} {d : Decision}
    {node : NodeId} (hd : Controls.reduce node g p wires t = .ok d)
    (hfits : (Operation.mk (.controlled g p) wires).Fits t.size) (hr : r.Coarser t)
    {settled : Prop} (hs : settled → d.reduction.outcome = .kept) :
    o.Resweeps r (d.reduction.result ⟨.controlled g p, wires⟩)
      ((d.reduction.result ⟨.controlled g p, wires⟩).foldl Tracking.propagate t) settled := by
  have hresult := (Controls.reduce_staysOn hd hfits).result hfits
  rcases Controls.reduce_left hd hfits with ⟨hkeep, hidle⟩ | hremove | ⟨a, ha⟩
  · rw [hkeep]
    apply resweeps_single _ (hr.propagate hfits) (Or.inl rfl)
    exact plan_idle rfl (hidle.coarser hr) (hr.1 ▸ hfits)
  · rw [hremove]
    exact resweeps_nil hr settled
  · rw [ha.result_eq] at hresult ⊢
    have hafits : a.Fits t.size := (hresult a (by simp)).1
    have hu : (r.propagate a).Coarser (t.propagate a) := hr.propagate hafits
    rcases ha.settled with ⟨b, hb⟩ | ⟨g', p', hg', hidle⟩
    · by_cases hswap : b = .swap
      · -- a swap that has lost its controls may be reduced in its turn
        subst hswap
        obtain ⟨k, hk⟩ := @plan_swap o r a hb (hr.1 ▸ hafits)
        refine resweeps_single hk hu (Or.inr ⟨hb, fun hsettled => ?_⟩)
        have hkept := hs hsettled
        rw [ha.outcome_eq] at hkept
        cases hkept
      · have hrule : o.rule? a.gate.kind = none := by
          rw [hb]
          exact rule?_base hswap o
        exact resweeps_single (plan_unruled hrule r) hu (Or.inl rfl)
    · exact resweeps_single (plan_idle hg' (hidle.coarser hr) (hr.1 ▸ hafits)) hu (Or.inl rfl)

/-- What is left of a swap, visited again by one who knows no more. -/
theorem swaps_again {wires : List Wire} {d : Decision} {node : NodeId}
    (hd : Swaps.reduce node wires t = .ok d)
    (hfits : (Operation.mk (.base .swap) wires).Fits t.size) (hr : r.Coarser t) (settled : Prop) :
    o.Resweeps r (d.reduction.result ⟨.base .swap, wires⟩) (t.propagate ⟨.base .swap, wires⟩)
      settled := by
  have hresult := (Swaps.reduce_staysOn hd hfits.nodup).result hfits
  obtain ⟨top, bottom, s, q, rfl, hs, hq, hcases⟩ := Swaps.reduce_cases hd
  have hexchange : t.propagate ⟨.base .swap, [top, bottom]⟩ = t.exchange top bottom := rfl
  rcases hcases with ⟨rfl, rfl, hd⟩ | ⟨rfl, _, hd⟩ | ⟨hne, steps, orientation, hlookup, hd⟩
  · rw [hd]
    have hunknown : ∀ w, t.get? w = some .unknown → r.look w = .ok .unknown := by
      intro w hw
      obtain ⟨s', hs', hc⟩ := hr.state hw
      obtain rfl : s' = .unknown := hc.elim id id
      exact Tracking.look_of_get? hs'
    have hreduce : Swaps.reduce 0 [top, bottom] r = .ok ⟨.keep, none⟩ := by
      simp only [Swaps.reduce, hunknown top hs, hunknown bottom hq]
      rfl
    apply resweeps_single _ (hr.propagate hfits) (Or.inl rfl)
    simp only [plan, hreduce]
    split <;> rfl
  · rw [hd, hexchange, Tracking.exchange_eq_self hs hq]
    exact resweeps_nil hr settled
  · rw [hd] at hresult ⊢
    apply resweeps_unruled
    · intro a ha
      obtain ⟨_, hst, rfl⟩ := List.mem_map.mp ha
      obtain ⟨st, _, rfl⟩ := List.mem_map.mp hst
      cases st <;> rfl
    · rw [hexchange]
      have hwires : top ≠ bottom := by simpa using hfits.nodup
      exact (hr.foldl_propagate fun a ha => (hresult a ha).1).trans
        (Swaps.replacement_coarser hwires hs hq hne hlookup rfl hresult)

/-- What a visit leaves in the place of an operation, visited again by one who knows no more. -/
theorem treat_again (h : o.treat t op = some (e, u)) (hfits : op.Fits t.size)
    (hr : r.Coarser t) :
    o.Resweeps r e.ops u (e.outcome ≠ .kept → e.op.gate = .base .swap) := by
  obtain ⟨k, acts, hplan, rfl, rfl⟩ := treat_eq_some h
  obtain ⟨gate, wires⟩ := op
  rcases plan_cases hplan with ⟨hrule, rfl, rfl⟩ | ⟨g, p, d, rfl, _, hd, rfl, rfl⟩ |
      ⟨d, rfl, _, hd, rfl, rfl⟩
  · exact resweeps_single (plan_unruled hrule r) (hr.propagate hfits) (Or.inl rfl)
  · refine controls_again hd hfits hr fun hsettled => ?_
    by_contra hn
    cases hsettled hn
  · exact swaps_again hd hfits hr _

/-- What a pass leaves, swept again by one who knows no more. -/
theorem sweep_again {es : List Treatment} (h : o.sweep t ops = some (es, u))
    (hfits : ∀ op ∈ ops, op.Fits t.size) (hr : r.Coarser t) :
    o.Resweeps r (es.flatMap (·.ops)) u
      (∀ e ∈ es, e.outcome ≠ .kept → e.op.gate = .base .swap) := by
  induction ops generalizing t r es with
  | nil =>
    cases h
    exact resweeps_nil hr _
  | cons op ops ih =>
    obtain ⟨e, m, fs, htreat, hsweep, rfl⟩ := sweep_cons_eq_some.mp h
    have hm := treat_size htreat
    obtain ⟨es₁, v, hes₁, hv, hswaps₁, hkept₁⟩ := treat_again htreat (hfits op (by simp)) hr
    obtain ⟨es₂, v', hes₂, hv', hswaps₂, hkept₂⟩ :=
      ih hsweep (fun a ha => hm ▸ hfits a (by simp [ha])) hv
    refine ⟨es₁ ++ es₂, v', ?_, hv', ?_, ?_⟩
    · rw [List.flatMap_cons]
      exact sweep_append_eq_some.mpr ⟨es₁, v, es₂, hes₁, hes₂, rfl⟩
    · exact fun f hf => (List.mem_append.mp hf).elim (hswaps₁ f) (hswaps₂ f)
    · intro hall f hf
      rcases List.mem_append.mp hf with hf | hf
      · exact hkept₁ (hall e (by simp)) f hf
      · exact hkept₂ (fun a ha => hall a (by simp [ha])) f hf

end Options

end BasisFlow
