import BasisFlow.Proofs.Replacement
import BasisFlow.Reduction.Controls

namespace BasisFlow

variable {boxes : String → Nat → Operator ℂ} {ψ : Nat → ℂ}

/-- There is no amplitude where the wire `w` has another value than `b`. -/
def Fixed (ψ : Nat → ℂ) (w : Wire) (b : Bool) : Prop :=
  ∀ k, k.testBit w ≠ b → ψ k = 0

theorem Fixed.on_eq_zero {w : Wire} {b : Bool} (h : Fixed ψ w b) {ts : List Wire} (hn : ts.Nodup)
    (hw : w ∉ ts) (m : Operator ℂ) {k : Nat} (hk : k.testBit w ≠ b) : m.on ts ψ k = 0 := by
  apply Finset.sum_eq_zero
  intro l _
  have hput : (put ts l k).testBit w ≠ b := by rwa [testBit_put_of_notMem hn hw]
  rw [h _ hput, mul_zero]

theorem Tracking.Describes.fixed {t : Tracking} (ht : t.Describes ψ) {w : Wire} {s : BasisState}
    (hs : t.get? w = some s) {b : Bool} (hb : s.bit? = some b) : Fixed ψ w b := by
  have hknown : s ≠ .unknown := by
    rintro rfl
    cases hb
  intro k hk
  exact (ht w s hs hknown).eq_zero hb hk

namespace Controls

/-- What a survey finds out about controls: those that it drops are always satisfied. -/
theorem survey_surviving {t : Tracking} (ht : t.Describes ψ) {cs S : List (Wire × Bool)}
    (h : survey t cs = .ok (.surviving S)) :
    S.Sublist cs ∧ ∀ c ∈ cs, c ∈ S ∨ Fixed ψ c.1 c.2 := by
  induction cs generalizing S with
  | nil =>
    cases h
    simp
  | cons c cs ih =>
    obtain ⟨w, required⟩ := c
    obtain ⟨s, hs, hrest⟩ := except_bind_eq_ok.mp h
    have hget := Tracking.look_eq_ok hs
    cases hb : s.bit? with
    | some b =>
      simp only [hb] at hrest
      split at hrest
      next hreq =>
        obtain ⟨hsub, hall⟩ := ih hrest
        refine ⟨hsub.cons _, ?_⟩
        intro c hc
        rcases List.mem_cons.mp hc with rfl | hc
        · exact Or.inr (hreq ▸ ht.fixed hget hb)
        · exact hall c hc
      next => cases hrest
    | none =>
      simp only [hb] at hrest
      obtain ⟨result, hresult, hrest⟩ := except_bind_eq_ok.mp hrest
      cases result with
      | contradicted v => cases hrest
      | surviving S' =>
        cases hrest
        obtain ⟨hsub, hall⟩ := ih hresult
        refine ⟨hsub.cons_cons _, ?_⟩
        intro c hc
        rcases List.mem_cons.mp hc with rfl | hc
        · exact Or.inl (by simp)
        · rcases hall c hc with hm | hf
          · exact Or.inl (by simp [hm])
          · exact Or.inr hf

theorem survey_contradicted {t : Tracking} (ht : t.Describes ψ) {cs : List (Wire × Bool)}
    {w : Wire} (h : survey t cs = .ok (.contradicted w)) :
    ∃ b, (w, b) ∈ cs ∧ Fixed ψ w (!b) := by
  induction cs with
  | nil => cases h
  | cons c cs ih =>
    obtain ⟨v, required⟩ := c
    obtain ⟨s, hs, hrest⟩ := except_bind_eq_ok.mp h
    have hget := Tracking.look_eq_ok hs
    have hlater : survey t cs = .ok (.contradicted w) →
        ∃ b, (w, b) ∈ (v, required) :: cs ∧ Fixed ψ w (!b) := by
      intro hsurvey
      obtain ⟨b, hm, hf⟩ := ih hsurvey
      exact ⟨b, by simp [hm], hf⟩
    cases hb : s.bit? with
    | some b =>
      simp only [hb] at hrest
      split at hrest
      next => exact hlater hrest
      next hreq =>
        obtain rfl : v = w := Survey.contradicted.inj (Except.ok.inj hrest)
        have hflip : b = !required := by cases b <;> cases required <;> simp_all
        refine ⟨required, by simp, ?_⟩
        rw [← hflip]
        exact ht.fixed hget hb
    | none =>
      simp only [hb] at hrest
      obtain ⟨result, hresult, hrest⟩ := except_bind_eq_ok.mp hrest
      cases result with
      | surviving S => cases hrest
      | contradicted u =>
        obtain rfl : u = w := Survey.contradicted.inj (Except.ok.inj hrest)
        exact hlater hresult

theorem guard_congr {cs S : List (Wire × Bool)} {ts : List Wire} (hsub : S.Sublist cs)
    (hall : ∀ c ∈ cs, c ∈ S ∨ Fixed ψ c.1 c.2) (hn : ts.Nodup) (hd : ∀ c ∈ cs, c.1 ∉ ts)
    (m : Operator ℂ) (k : Nat) :
    (if Fires cs k then m.on ts ψ k else ψ k) = if Fires S k then m.on ts ψ k else ψ k := by
  by_cases hS : Fires S k
  · by_cases hc : Fires cs k
    · rw [if_pos hc, if_pos hS]
    · obtain ⟨c, hno⟩ := not_forall.mp hc
      obtain ⟨hm, hne⟩ := Classical.not_imp.mp hno
      have hf : Fixed ψ c.1 c.2 := (hall c hm).resolve_left fun hmS => hne (hS c hmS)
      rw [if_neg hc, if_pos hS, hf k hne, hf.on_eq_zero hn (hd c hm) m hne]
  · have hc : ¬ Fires cs k := fun hc => hS fun c hm => hc c (hsub.mem hm)
    rw [if_neg hc, if_neg hS]

theorem guard_eq_self {cs : List (Wire × Bool)} {ts : List Wire} {w : Wire} {b : Bool}
    (hm : (w, b) ∈ cs) (hf : Fixed ψ w (!b)) (hn : ts.Nodup) (hw : w ∉ ts) (m : Operator ℂ)
    (k : Nat) : (if Fires cs k then m.on ts ψ k else ψ k) = ψ k := by
  by_cases hc : Fires cs k
  · have hne : k.testBit w ≠ !b := by simp [hc (w, b) hm]
    rw [if_pos hc, hf k hne, hf.on_eq_zero hn hw m hne]
  · rw [if_neg hc]

/-- All that a decision on a controlled gate can be. -/
theorem reduce_cases {node : NodeId} {g : BaseGate} {p : Polarity} {wires : List Wire}
    {t : Tracking} {d : Decision} (h : reduce node g p wires t = .ok d) :
    d.reduction = .keep ∨
    (∃ target, g = .x ∧ (wires.drop p.length).getLast? = some target ∧
      t.get? target = some .plus ∧ d.reduction = .remove) ∨
    (∃ w, survey t ((wires.take p.length).zip p.bits) = .ok (.contradicted w) ∧
      d.reduction = .remove) ∨
    ∃ S, survey t ((wires.take p.length).zip p.bits) = .ok (.surviving S) ∧
      ((∃ target, g = .x ∧ (wires.drop p.length).getLast? = some target ∧
        t.get? target = some .minus ∧ kickback S = .ok d) ∨
      d.reduction = strip g S (wires.drop p.length)) := by
  unfold reduce at h
  split at h
  next => cases h
  next =>
    split at h
    next =>
      cases h
      exact Or.inl rfl
    next =>
      split at h
      next => cases h
      next target htarget =>
        extract_lets rest at h
        -- the state of the target is looked up for a bit flip only
        obtain ⟨flipped, hlook, h⟩ : ∃ flipped, (∀ s, s ≠ .unknown → flipped = s →
            g = .x ∧ t.get? target = some s) ∧ rest flipped = .ok d := by
          split at h
          next hg =>
            obtain ⟨flipped, hflipped, h⟩ := except_bind_eq_ok.mp h
            exact ⟨flipped, fun s _ he => ⟨hg, he ▸ Tracking.look_eq_ok hflipped⟩, h⟩
          next => exact ⟨.unknown, fun s hs he => absurd he.symm hs, h⟩
        simp only [rest] at h
        split at h
        next hplus =>
          cases h
          obtain ⟨hg, hget⟩ := hlook .plus (by simp) hplus
          exact Or.inr (Or.inl ⟨target, hg, htarget, hget, rfl⟩)
        next =>
          obtain ⟨result, hresult, h⟩ := except_bind_eq_ok.mp h
          cases result with
          | contradicted w =>
            cases h
            exact Or.inr (Or.inr (Or.inl ⟨w, hresult, rfl⟩))
          | surviving S =>
            simp only at h
            split at h
            next hminus =>
              obtain ⟨hg, hget⟩ := hlook .minus (by simp) hminus
              exact Or.inr (Or.inr (Or.inr ⟨S, hresult, Or.inl ⟨target, hg, htarget, hget, h⟩⟩))
            next =>
              split at h
              next =>
                cases h
                exact Or.inl rfl
              next =>
                cases h
                exact Or.inr (Or.inr (Or.inr ⟨S, hresult, Or.inr rfl⟩))

/-- All that a decision on a bit flip of a target in the minus state can be. -/
theorem kickback_cases {S : List (Wire × Bool)} {d : Decision} (h : kickback S = .ok d) :
    (S = [] ∧ d.reduction = .remove) ∨
    (∃ w b, S = [(w, b)] ∧ d.reduction = .single (.base .z) [w]) ∨
    ∃ target ∈ S, target.2 = true ∧
      d.reduction = .single (.controlled .z ⟨(S.erase target).map (·.2)⟩)
        ((S.erase target).map (·.1) ++ [target.1]) := by
  unfold kickback at h
  split at h
  next =>
    cases h
    exact Or.inl ⟨rfl, rfl⟩
  next w b =>
    cases h
    exact Or.inr (Or.inl ⟨w, b, rfl, rfl⟩)
  next =>
    split at h
    next => cases h
    next target hfind =>
      cases h
      exact Or.inr (Or.inr ⟨target, List.mem_of_find?_eq_some hfind, List.find?_some hfind, rfl⟩)

/-- A sign on the surviving controls is a phase flip on one of them. -/
theorem kickback_faithful {S : List (Wire × Bool)} {d : Decision} (h : kickback S = .ok d)
    {n : Nat} (hn : (S.map (·.1)).Nodup) (hlt : ∀ c ∈ S, c.1 < n) {op : Operation}
    (hop : ∀ k, (op.gate.exact boxes false).on op.wires ψ k =
      if Fires S k then -ψ k else ψ k) :
    d.reduction.Faithful boxes n op ψ := by
  rcases kickback_cases h with ⟨rfl, hd⟩ | ⟨w, b, rfl, hd⟩ | ⟨target, hm, htrue, hd⟩
  · rw [hd]
    apply Reduction.remove_faithful (Or.inr rfl)
    intro k
    have hfires : Fires [] k := by simp [Fires]
    rw [hop, if_pos hfires]
    ring
  · rw [hd]
    have hfits : (Operation.mk (.base .z) [w]).Fits n :=
      ⟨rfl, List.nodup_singleton w, by simpa using hlt⟩
    have hfires : ∀ k, Fires [(w, b)] k ↔ k.testBit w = b := by simp [Fires]
    cases b with
    | true =>
      apply Reduction.single_faithful hfits (by simp) (Or.inl rfl)
      intro k
      rw [hop, Gate.exact, z_on]
      simp only [hfires, one_mul]
    | false =>
      apply Reduction.single_faithful hfits (by simp) (Or.inr rfl)
      intro k
      rw [hop, Gate.exact, z_on]
      cases hk : k.testBit w <;> simp [hfires, hk]
  · rw [hd]
    have hperm : S.Perm (target :: S.erase target) := List.perm_cons_erase hm
    have hfires : ∀ k, Fires S k ↔ Fires (S.erase target) k ∧ k.testBit target.1 := by
      intro k
      have hcons : Fires S k ↔ Fires (target :: S.erase target) k :=
        forall_congr' fun c => by rw [hperm.mem_iff]
      rw [hcons, fires_cons, htrue, and_comm]
    have hmoved : (S.map (·.1)).Perm ((S.erase target).map (·.1) ++ [target.1]) :=
      (hperm.map (·.1)).trans (List.perm_append_singleton _ _).symm
    have hwires := hmoved.nodup_iff.mp hn
    have hfits : (Operation.mk (.controlled .z ⟨(S.erase target).map (·.2)⟩)
        ((S.erase target).map (·.1) ++ [target.1])).Fits n := by
      refine ⟨by simp [Gate.arity, Polarity.length, BaseGate.arity], hwires, ?_⟩
      intro w hw
      obtain ⟨c, hc, rfl⟩ := List.mem_map.mp (hmoved.mem_iff.mpr hw)
      exact hlt c hc
    apply Reduction.single_faithful hfits (by simp) (Or.inl rfl)
    intro k
    have hz := Operator.controlled_on hwires (BaseGate.z.exact boxes) ψ k
    rw [hop, one_mul, Gate.exact, hz, z_on]
    by_cases he : Fires (S.erase target) k
    · simp [hfires, he]
    · simp [hfires, he]

section Node

variable {g : BaseGate} {p : Polarity} {wires : List Wire} {n : Nat}

theorem split_wires (hfits : (Operation.mk (.controlled g p) wires).Fits n) :
    ((wires.take p.length).zip p.bits).map (·.1) ++ wires.drop p.length = wires ∧
      ((wires.take p.length).zip p.bits).map (·.2) = p.bits ∧
      (wires.drop p.length).length = g.arity := by
  have hlen : wires.length = p.length + g.arity := hfits.arity_eq
  have htake : (wires.take p.length).length = p.bits.length := by
    rw [List.length_take, hlen, Nat.min_eq_left (Nat.le_add_right _ _)]
    rfl
  refine ⟨?_, ?_, ?_⟩
  · rw [List.map_fst_zip (Nat.le_of_eq htake), List.take_append_drop]
  · rw [List.map_snd_zip (Nat.le_of_eq htake.symm)]
  · rw [List.length_drop, hlen, Nat.add_sub_cancel_left]

theorem split_nodup (hfits : (Operation.mk (.controlled g p) wires).Fits n) :
    (((wires.take p.length).zip p.bits).map (·.1) ++ wires.drop p.length).Nodup := by
  rw [(split_wires hfits).1]
  exact hfits.nodup

theorem split_disjoint (hfits : (Operation.mk (.controlled g p) wires).Fits n) :
    ∀ c ∈ (wires.take p.length).zip p.bits, c.1 ∉ wires.drop p.length := by
  obtain ⟨_, _, hdisjoint⟩ := List.nodup_append'.mp (split_nodup hfits)
  exact fun c hc => hdisjoint (List.mem_map.mpr ⟨c, hc, rfl⟩)

theorem controlled_gate_on (hfits : (Operation.mk (.controlled g p) wires).Fits n) (k : Nat) :
    ((Gate.controlled g p).exact boxes false).on wires ψ k =
      if Fires ((wires.take p.length).zip p.bits) k then
        (g.exact boxes).on (wires.drop p.length) ψ k
      else ψ k := by
  obtain ⟨hwires, hbits, _⟩ := split_wires hfits
  have hon := Operator.controlled_on (split_nodup hfits) (g.exact boxes) ψ k
  rw [hwires, hbits] at hon
  exact hon

theorem target_of_x (hfits : (Operation.mk (.controlled .x p) wires).Fits n) {target : Wire}
    (ht : (wires.drop p.length).getLast? = some target) : wires.drop p.length = [target] := by
  obtain ⟨v, hv⟩ := List.length_eq_one_iff.mp (split_wires hfits).2.2
  rw [hv] at ht ⊢
  obtain rfl : v = target := by simpa using ht
  rfl

theorem strip_faithful (hfits : (Operation.mk (.controlled g p) wires).Fits n)
    {S : List (Wire × Bool)} (hsub : S.Sublist ((wires.take p.length).zip p.bits))
    (hop : ∀ k, ((Gate.controlled g p).exact boxes false).on wires ψ k =
      if Fires S k then (g.exact boxes).on (wires.drop p.length) ψ k else ψ k) :
    (strip g S (wires.drop p.length)).Faithful boxes n ⟨.controlled g p, wires⟩ ψ := by
  obtain ⟨hwires, _, hlen⟩ := split_wires hfits
  have hsubwires : (S.map (·.1) ++ wires.drop p.length).Sublist wires := by
    have happ := (hsub.map (·.1)).append (List.Sublist.refl (wires.drop p.length))
    rwa [hwires] at happ
  have hn := hsubwires.nodup hfits.nodup
  have hlt : ∀ w ∈ S.map (·.1) ++ wires.drop p.length, w < n :=
    fun w hw => hfits.lt_width w (hsubwires.mem hw)
  cases S with
  | nil =>
    have hbase : (Operation.mk (.base g) (wires.drop p.length)).Fits n := ⟨hlen, hn, hlt⟩
    apply Reduction.single_faithful hbase (by simp) (Or.inl rfl)
    intro k
    have hfires : Fires [] k := by simp [Fires]
    rw [hop, if_pos hfires, one_mul]
    rfl
  | cons c S =>
    have hrest : (Operation.mk (.controlled g ⟨(c :: S).map (·.2)⟩)
        ((c :: S).map (·.1) ++ wires.drop p.length)).Fits n := by
      refine ⟨?_, hn, hlt⟩
      rw [List.length_append, hlen]
      simp [Gate.arity, Polarity.length]
    apply Reduction.single_faithful hrest (by simp) (Or.inl rfl)
    intro k
    rw [hop, one_mul]
    exact Operator.controlled_on hn (g.exact boxes) ψ k

/-- Every decision on a controlled gate leaves operations that do the same, up to a sign. -/
theorem reduce_faithful {node : NodeId} {t : Tracking} {d : Decision}
    (h : reduce node g p wires t = .ok d) (hfits : (Operation.mk (.controlled g p) wires).Fits n)
    (ht : t.Describes ψ) : d.reduction.Faithful boxes n ⟨.controlled g p, wires⟩ ψ := by
  obtain ⟨hwires, _, _⟩ := split_wires hfits
  obtain ⟨hcs, hts, _⟩ := List.nodup_append'.mp (split_nodup hfits)
  have hoff := split_disjoint hfits
  have hlt : ∀ c ∈ (wires.take p.length).zip p.bits, c.1 < n := by
    intro c hc
    apply hfits.lt_width
    change c.1 ∈ wires
    rw [← hwires]
    exact List.mem_append_left _ (List.mem_map.mpr ⟨c, hc, rfl⟩)
  rcases reduce_cases h with hd | ⟨target, rfl, htarget, hplus, hd⟩ | ⟨w, hsurvey, hd⟩ |
      ⟨S, hsurvey, hd⟩
  · rw [hd]
    exact Reduction.keep_faithful hfits (by simp)
  · rw [hd]
    apply Reduction.remove_faithful (Or.inl rfl)
    intro k
    have hidle := (ht target .plus hplus (by simp)).plus_assign k (!k.testBit target)
    rw [one_mul, controlled_gate_on hfits, target_of_x hfits htarget, x_on, hidle, ite_self]
  · rw [hd]
    obtain ⟨b, hm, hf⟩ := survey_contradicted ht hsurvey
    apply Reduction.remove_faithful (Or.inl rfl)
    intro k
    rw [one_mul, controlled_gate_on hfits, guard_eq_self hm hf hts (hoff _ hm)]
  · obtain ⟨hsub, hall⟩ := survey_surviving ht hsurvey
    have hop : ∀ k, ((Gate.controlled g p).exact boxes false).on wires ψ k =
        if Fires S k then (g.exact boxes).on (wires.drop p.length) ψ k else ψ k := by
      intro k
      rw [controlled_gate_on hfits, guard_congr hsub hall hts hoff]
    rcases hd with ⟨target, rfl, htarget, hminus, hkick⟩ | hd
    · apply kickback_faithful hkick ((hsub.map (·.1)).nodup hcs)
      · exact fun c hc => hlt c (hsub.mem hc)
      · intro k
        rw [hop, target_of_x hfits htarget, x_on,
          (ht target .minus hminus (by simp)).minus_assign]
    · rw [hd]
      exact strip_faithful hfits hsub hop

end Node

end Controls

end BasisFlow
