import BasisFlow.Proofs.ControlReduction
import BasisFlow.Proofs.Effect
import BasisFlow.Proofs.SwapReduction

namespace BasisFlow

namespace Tracking

/-- The bit that a wire is known to have. -/
def bit? (t : Tracking) (w : Wire) : Option Bool :=
  (t.get? w).bind BasisState.bit?

theorem look_of_get? {t : Tracking} {w : Wire} {s : BasisState} (h : t.get? w = some s) :
    t.look w = .ok s := by
  simp [look, read, h, Except.mapError]

theorem look_congr {t r : Tracking} (hsize : t.size = r.size) {w : Wire}
    (h : t.get? w = r.get? w) : t.look w = r.look w := by
  simp only [look, read, h, hsize]

/-- Who knows less knows no bit in place of another. -/
theorem Coarser.bit?_eq {r t : Tracking} (h : r.Coarser t) (w : Wire) :
    r.bit? w = t.bit? w ∨ r.bit? w = none := by
  rcases h.2 w with he | hu
  · exact Or.inl (by simp only [bit?, he])
  · exact Or.inr (by simp [bit?, hu, BasisState.bit?])

end Tracking

namespace Controls

/-- The controls of a gate on the given wires, with the values that they have to take. -/
abbrev pairs (p : Polarity) (wires : List Wire) : List (Wire × Bool) :=
  (wires.take p.length).zip p.bits

/-- The control is known to have the other value. -/
def contradicts (t : Tracking) (c : Wire × Bool) : Bool :=
  t.bit? c.1 = some (!c.2)

/-- The controls whose values are not known. -/
def survivors (t : Tracking) (cs : List (Wire × Bool)) : List (Wire × Bool) :=
  cs.filter fun c => t.bit? c.1 = none

theorem survey_eq {t : Tracking} {cs : List (Wire × Bool)} (h : ∀ c ∈ cs, c.1 < t.size) :
    survey t cs = .ok (match cs.find? (contradicts t) with
      | some c => .contradicted c.1
      | none => .surviving (survivors t cs)) := by
  induction cs with
  | nil => rfl
  | cons c cs ih =>
    obtain ⟨w, required⟩ := c
    obtain ⟨s, hs⟩ := Tracking.get?_of_lt (h _ (List.mem_cons_self))
    have hbit : t.bit? w = s.bit? := by simp [Tracking.bit?, hs]
    have hrest := ih fun c hc => h c (List.mem_cons_of_mem _ hc)
    simp only [survey, Tracking.look_of_get? hs, bind, Except.bind]
    cases hb : s.bit? with
    | none =>
      have hno : contradicts t (w, required) = false := by simp [contradicts, hbit, hb]
      simp only [hrest, List.find?_cons, hno, survivors, List.filter_cons, hbit, hb]
      cases cs.find? (contradicts t) <;> rfl
    | some b =>
      by_cases hreq : b = required
      · have hno : contradicts t (w, required) = false := by simp [contradicts, hbit, hb, hreq]
        simp [hreq, hrest, hno, survivors, hbit, hb]
      · have hyes : contradicts t (w, required) = true := by
          cases b <;> cases required <;> simp_all [contradicts]
        simp [hreq, hyes, pure, Except.pure]

/-- What becomes of a gate with at least one control and a last target. -/
def settle (g : BaseGate) (cs : List (Wire × Bool)) (targets : List Wire) (target : Wire)
    (t : Tracking) : Except ReductionError Decision :=
  if g = .x ∧ t.get? target = some .plus then .ok ⟨.remove, some .idleTarget⟩
  else match cs.find? (contradicts t) with
    | some c => .ok ⟨.remove, some (.neverFires c.1)⟩
    | none =>
      if g = .x ∧ t.get? target = some .minus then kickback (survivors t cs)
      else if (survivors t cs).length = cs.length then .ok ⟨.keep, none⟩
      else .ok ⟨strip g (survivors t cs) targets, none⟩

section Node

variable {node : NodeId} {g : BaseGate} {p : Polarity} {wires : List Wire} {t : Tracking}

theorem pairs_lt {n : Nat} (hfits : (Operation.mk (.controlled g p) wires).Fits n) :
    ∀ c ∈ pairs p wires, c.1 < n := by
  intro c hc
  apply hfits.lt_width
  change c.1 ∈ wires
  rw [← (split_wires hfits).1]
  exact List.mem_append_left _ (List.mem_map.mpr ⟨c, hc, rfl⟩)

theorem length_pairs {n : Nat} (hfits : (Operation.mk (.controlled g p) wires).Fits n) :
    (pairs p wires).length = p.length := by
  rw [← List.length_map (·.2), (split_wires hfits).2.1]
  rfl

theorem target_mem {target : Wire} (h : (wires.drop p.length).getLast? = some target) :
    target ∈ wires :=
  List.mem_of_mem_drop (List.mem_of_getLast? h)

/-- The decision on a controlled gate, from what is known of its wires. -/
theorem reduce_eq (hfits : (Operation.mk (.controlled g p) wires).Fits t.size) :
    reduce node g p wires t =
      if p.isEmpty then .ok ⟨.keep, none⟩
      else match (wires.drop p.length).getLast? with
        | none => .error (.controlOperands g.name p.length node 0)
        | some target => settle g (pairs p wires) (wires.drop p.length) target t := by
  have hlen : wires.length = p.length + g.arity := hfits.arity_eq
  unfold reduce
  rw [if_neg (not_not.mpr hlen)]
  split
  next => rfl
  next =>
    cases htarget : (wires.drop p.length).getLast? with
    | none => rfl
    | some target =>
      obtain ⟨s, hs⟩ := Tracking.get?_of_lt (hfits.lt_width target (target_mem htarget))
      have hsurvey := survey_eq (pairs_lt hfits)
      simp only [settle, length_pairs hfits, hs, Option.some.injEq]
      by_cases hg : g = .x
      · simp only [hg, ↓reduceIte, Tracking.look_of_get? hs, bind, Except.bind, true_and]
        rw [hsurvey]
        split
        next => rfl
        next => cases (pairs p wires).find? (contradicts t) <;> rfl
      · simp only [hg, ↓reduceIte, bind, Except.bind, false_and, reduceCtorEq]
        rw [hsurvey]
        cases (pairs p wires).find? (contradicts t) <;> rfl

theorem survey_congr {r : Tracking} {cs : List (Wire × Bool)}
    (h : ∀ c ∈ cs, t.look c.1 = r.look c.1) : survey t cs = survey r cs := by
  induction cs with
  | nil => rfl
  | cons c cs ih => simp only [survey, h c (by simp), ih fun d hd => h d (by simp [hd])]

/-- A decision on a controlled gate depends on the wires of the gate only. -/
theorem reduce_congr {r : Tracking} (h : ∀ w ∈ wires, t.look w = r.look w) :
    reduce node g p wires t = reduce node g p wires r := by
  have hsurvey : survey t (pairs p wires) = survey r (pairs p wires) :=
    survey_congr fun c hc => h c.1 (List.mem_of_mem_take (List.of_mem_zip hc).1)
  unfold reduce
  cases htarget : (wires.drop p.length).getLast? with
  | none => rfl
  | some target => simp only [h target (target_mem htarget), hsurvey]

/-- The node shows in errors only. -/
theorem reduce_node (m : NodeId) :
    (reduce node g p wires t).toOption = (reduce m g p wires t).toOption := by
  unfold reduce
  split
  next => rfl
  next =>
    split
    next => rfl
    next =>
      cases (wires.drop p.length).getLast? <;> rfl

end Node

end Controls

namespace Swaps

variable {node : NodeId} {wires : List Wire} {t : Tracking}

/-- There is always a decision on a swap. -/
theorem reduce_eq (hfits : (Operation.mk (.base .swap) wires).Fits t.size) :
    ∃ top bottom s r, wires = [top, bottom] ∧ t.get? top = some s ∧ t.get? bottom = some r ∧
      reduce node wires t = .ok (decide top bottom s r) := by
  obtain ⟨top, bottom, rfl⟩ := List.length_eq_two.mp hfits.arity_eq
  obtain ⟨s, hs⟩ := Tracking.get?_of_lt (hfits.lt_width top (by simp))
  obtain ⟨r, hr⟩ := Tracking.get?_of_lt (hfits.lt_width bottom (by simp))
  refine ⟨top, bottom, s, r, rfl, hs, hr, ?_⟩
  simp only [reduce, Tracking.look_of_get? hs, Tracking.look_of_get? hr, bind, Except.bind]
  rfl

theorem reduce_congr {r : Tracking} (h : ∀ w ∈ wires, t.look w = r.look w) :
    reduce node wires t = reduce node wires r := by
  unfold reduce
  split
  next top bottom => rw [h top (by simp), h bottom (by simp)]
  next => rfl

theorem reduce_node (m : NodeId) :
    (reduce node wires t).toOption = (reduce m wires t).toOption := by
  unfold reduce
  split <;> rfl

end Swaps

namespace Reduction

/-- What has become of a node after a reduction of it. -/
def outcome : Reduction → Outcome
  | .keep => .kept
  | .remove => .removed
  | .substitute _ _ => .substituted

/-- A fragment that a reduction puts in the place of an operation fits on distinct wires of it. -/
def StaysOn (r : Reduction) (op : Operation) : Prop :=
  ∀ f ws, r = .substitute f ws → f.Fits ∧ f.width = ws.length ∧ ws.Nodup ∧ ∀ w ∈ ws, w ∈ op.wires

theorem keep_staysOn (op : Operation) : keep.StaysOn op := by
  intro f ws h
  cases h

theorem remove_staysOn (op : Operation) : remove.StaysOn op := by
  intro f ws h
  cases h

theorem single_staysOn {op : Operation} {g : Gate} {ws : List Wire} (harity : ws.length = g.arity)
    (hn : ws.Nodup) (hin : ∀ w ∈ ws, w ∈ op.wires) : (single g ws).StaysOn op := by
  intro f vs h
  obtain ⟨rfl, rfl⟩ := Reduction.substitute.inj h
  refine ⟨?_, rfl, hn, hin⟩
  intro o ho
  obtain rfl := List.mem_singleton.mp ho
  exact ⟨by simpa using harity, List.nodup_range, fun w hw => List.mem_range.mp hw⟩

/-- The operations in the place of an operation are on its wires. -/
theorem StaysOn.result {r : Reduction} {op : Operation} (h : r.StaysOn op) {n : Nat}
    (hfits : op.Fits n) :
    ∀ o ∈ r.result op, o.Fits n ∧ ∀ w ∈ o.wires, w ∈ op.wires := by
  intro o ho
  cases r with
  | keep =>
    obtain rfl := List.mem_singleton.mp ho
    exact ⟨hfits, fun _ hw => hw⟩
  | remove => cases ho
  | substitute f ws =>
    obtain ⟨hf, hwidth, hn, hin⟩ := h f ws rfl
    obtain ⟨o', ho', rfl⟩ := List.mem_map.mp ho
    obtain ⟨harity, hdistinct, hsub⟩ := (hwidth ▸ hf o' ho').onto hn
    have hon : ∀ w ∈ (o'.onto ws).wires, w ∈ op.wires := fun w hw => hin w (hsub w hw)
    exact ⟨⟨harity, hdistinct, fun w hw => hfits.lt_width w (hon w hw)⟩, hon⟩

end Reduction

namespace Controls

variable {node : NodeId} {g : BaseGate} {p : Polarity} {wires : List Wire} {t : Tracking}
  {d : Decision}

theorem kickback_staysOn {S : List (Wire × Bool)} (h : kickback S = .ok d)
    (hn : (S.map (·.1)).Nodup) {op : Operation} (hin : ∀ c ∈ S, c.1 ∈ op.wires) :
    d.reduction.StaysOn op := by
  rcases kickback_cases h with ⟨_, hd⟩ | ⟨w, b, rfl, hd⟩ | ⟨target, hm, _, hd⟩
  · rw [hd]
    exact Reduction.remove_staysOn op
  · rw [hd]
    exact Reduction.single_staysOn rfl (List.nodup_singleton w) (by simpa using hin)
  · rw [hd]
    -- the target of the phase flip goes from its place among the survivors to the end
    have hmoved : (S.map (·.1)).Perm ((S.erase target).map (·.1) ++ [target.1]) :=
      ((List.perm_cons_erase hm).map (·.1)).trans (List.perm_append_singleton _ _).symm
    apply Reduction.single_staysOn
    · simp [Gate.arity, Polarity.length, BaseGate.arity]
    · exact hmoved.nodup_iff.mp hn
    · intro w hw
      obtain ⟨c, hc, rfl⟩ := List.mem_map.mp (hmoved.mem_iff.mpr hw)
      exact hin c hc

theorem strip_staysOn {n : Nat} (hfits : (Operation.mk (.controlled g p) wires).Fits n)
    {S : List (Wire × Bool)} (hsub : S.Sublist (pairs p wires)) :
    (strip g S (wires.drop p.length)).StaysOn ⟨.controlled g p, wires⟩ := by
  obtain ⟨hwires, _, hlen⟩ := split_wires hfits
  have hsubwires : (S.map (·.1) ++ wires.drop p.length).Sublist wires := by
    have happ := (hsub.map (·.1)).append (List.Sublist.refl (wires.drop p.length))
    rwa [hwires] at happ
  apply Reduction.single_staysOn _ (hsubwires.nodup hfits.nodup) fun w hw => hsubwires.mem hw
  rw [List.length_append, hlen, List.length_map]
  cases S with
  | nil => simp [Gate.arity]
  | cons c S => simp [Gate.arity, Polarity.length]

theorem surviving_eq {cs S : List (Wire × Bool)} (hlt : ∀ c ∈ cs, c.1 < t.size)
    (h : survey t cs = .ok (.surviving S)) : S = survivors t cs := by
  rw [survey_eq hlt] at h
  cases hfind : cs.find? (contradicts t) with
  | none =>
    rw [hfind] at h
    cases h
    rfl
  | some c =>
    rw [hfind] at h
    cases h

theorem reduce_staysOn (h : reduce node g p wires t = .ok d)
    (hfits : (Operation.mk (.controlled g p) wires).Fits t.size) :
    d.reduction.StaysOn ⟨.controlled g p, wires⟩ := by
  rcases reduce_cases h with hd | ⟨_, _, _, _, hd⟩ | ⟨_, _, hd⟩ | ⟨S, hsurvey, hd⟩
  · rw [hd]
    exact Reduction.keep_staysOn _
  · rw [hd]
    exact Reduction.remove_staysOn _
  · rw [hd]
    exact Reduction.remove_staysOn _
  · have hsub : S.Sublist (pairs p wires) :=
      surviving_eq (pairs_lt hfits) hsurvey ▸ List.filter_sublist
    rcases hd with ⟨_, _, _, _, hkick⟩ | hd
    · obtain ⟨hn, _, _⟩ := List.nodup_append'.mp (split_nodup hfits)
      apply kickback_staysOn hkick ((hsub.map (·.1)).nodup hn)
      intro c hc
      exact List.mem_of_mem_take (List.of_mem_zip (hsub.mem hc)).1
    · rw [hd]
      exact strip_staysOn hfits hsub

end Controls

theorem Swaps.reduce_staysOn {node : NodeId} {wires : List Wire} {t : Tracking} {d : Decision}
    (h : reduce node wires t = .ok d) (hn : wires.Nodup) :
    d.reduction.StaysOn ⟨.base .swap, wires⟩ := by
  obtain ⟨top, bottom, s, r, rfl, _, _, hd⟩ := reduce_cases h
  rcases hd with ⟨_, _, hd⟩ | ⟨_, _, hd⟩ | ⟨_, steps, o, hlookup, hd⟩
  · rw [hd]
    exact Reduction.keep_staysOn _
  · rw [hd]
    exact Reduction.remove_staysOn _
  · rw [hd]
    intro f ws hf
    obtain ⟨rfl, rfl⟩ := Reduction.substitute.inj hf
    refine ⟨?_, rfl, hn, fun w hw => hw⟩
    intro op hop
    obtain ⟨st, hst, rfl⟩ := List.mem_map.mp hop
    exact op_fits (isProper_of_lookup hlookup st hst) o

/-- A reduction that stays on the wires of a node can be carried out. -/
theorem Reduction.StaysOn.commit {r : Reduction} {op : Operation} (h : r.StaysOn op) {c : Circuit}
    {id : NodeId} (hop : c.op? id = some op) : ∃ d, r.commit c id = .ok (r.outcome, d) := by
  obtain ⟨n, hn, rfl⟩ := Option.map_eq_some_iff.mp hop
  cases r with
  | keep => exact ⟨c, rfl⟩
  | remove =>
    simp only [Reduction.commit, Circuit.remove, hn]
    exact ⟨_, rfl⟩
  | substitute f ws =>
    obtain ⟨_, hwidth, hnodup, hin⟩ := h f ws rfl
    have hnone : ws.find? (· ∉ n.wires) = none := by
      apply List.find?_eq_none.mpr
      intro w hw hd
      exact of_decide_eq_true hd (hin w hw)
    have hrep : firstRepeated [] ws = none := firstRepeated_of_nodup hnodup (by simp)
    simp only [Reduction.commit, Circuit.substitute, Circuit.remove, hn, hwidth, hnone, hrep,
      ne_eq, not_true_eq_false, ↓reduceIte]
    exact ⟨_, rfl⟩

end BasisFlow
