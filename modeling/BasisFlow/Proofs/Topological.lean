import BasisFlow.Circuit.Order
import BasisFlow.Proofs.Splice

namespace BasisFlow

namespace Circuit

/-- An enumeration of the nodes of a circuit in which each comes after all nodes before it. -/
structure IsTopological (c : Circuit) (L : List NodeId) : Prop where
  nodup : L.Nodup
  mem_iff : ∀ id, id ∈ L ↔ (c.node? id).isSome
  after : ∀ a x b, L = a ++ x :: b → ∀ p ∈ c.before x, p ∈ a

theorem mem_before_iff {c : Circuit} {x p : NodeId} :
    p ∈ c.before x ↔ ∃ n, c.node? x = some n ∧ ∃ q ∈ n.legs, q.prev = some p := by
  cases h : c.node? x with
  | none => simp [before, h]
  | some n => simp [before, h, Node.prevs]

theorem Linked.isTopological {c : Circuit} {L : List NodeId} (h : c.Linked L) :
    c.IsTopological L := by
  refine ⟨h.nodup, h.mem_iff, ?_⟩
  rintro a x b rfl p hp
  obtain ⟨n, hn, q, hq, hqp⟩ := mem_before_iff.mp hp
  have hlast := (h.between hn hq).1
  rw [hqp] at hlast
  exact List.mem_of_mem_filter (List.mem_of_getLast? hlast.symm)

/-- Two lists of the same entries without repetitions are equal if in the second each entry comes
after its neighbour in the first. -/
theorem eq_of_neighbour_before {l m : List NodeId} (hl : l.Nodup) (hm : m.Nodup)
    (hmem : ∀ x, x ∈ m ↔ x ∈ l)
    (hprev : ∀ a p x b, l = a ++ p :: x :: b → ∀ u v, m = u ++ x :: v → p ∈ u) : m = l := by
  induction l generalizing m with
  | nil => exact List.eq_nil_iff_forall_not_mem.mpr fun x hx => by simpa using (hmem x).mp hx
  | cons y l ih =>
    obtain ⟨hy, hl'⟩ := List.nodup_cons.mp hl
    cases m with
    | nil => simpa using (hmem y).mpr (by simp)
    | cons z m =>
      obtain ⟨hz, hm'⟩ := List.nodup_cons.mp hm
      rcases List.mem_cons.mp ((hmem z).mp (by simp)) with rfl | hzl
      · rw [ih hl' hm']
        · intro x
          have hx := hmem x
          simp only [List.mem_cons] at hx
          by_cases he : x = z
          · subst x
            exact ⟨fun h => absurd h hz, fun h => absurd h hy⟩
          · simpa [he] using hx
        · intro a p x b hab u v huv
          have hp := hprev (z :: a) p x b (by simp [hab]) (z :: u) v (by simp [huv])
          rcases List.mem_cons.mp hp with rfl | hp
          · exact absurd (by simp [hab]) hy
          · exact hp
      · -- the first entry of `m` would have its neighbour before it
        obtain ⟨c, b, hcb⟩ := List.append_of_mem hzl
        obtain ⟨a, p, hap⟩ := List.eq_nil_or_concat (y :: c) |>.resolve_left (by simp)
        have hsplit : y :: l = a ++ p :: z :: b := by
          rw [hcb, ← List.cons_append, hap]
          simp
        simpa using hprev a p z b hsplit [] m rfl

/-- On every wire a topological order of a linked circuit runs along the wire. -/
theorem Linked.filter_eq {c : Circuit} {L M : List NodeId} (h : c.Linked L)
    (hM : c.IsTopological M) (w : Wire) : M.filter (c.onWire w) = L.filter (c.onWire w) := by
  apply eq_of_neighbour_before (h.threads w).nodup (hM.nodup.filter _)
  · intro x
    simp only [List.mem_filter, hM.mem_iff, h.mem_iff]
  · intro a p x b hab u v huv
    have hleg := (h.threads w).leg_eq (a ++ [p]) x b (by simp [hab])
    simp only [strand, Option.bind_eq_some_iff] at hleg
    obtain ⟨n, hn, hfind⟩ := hleg
    have hp : p ∈ c.before x := mem_before_iff.mpr ⟨n, hn, _, Node.leg?_mem hfind, by simp⟩
    have hxM : x ∈ M := List.mem_of_mem_filter (by rw [huv]; simp : x ∈ M.filter (c.onWire w))
    obtain ⟨d, e, hde⟩ := List.append_of_mem hxM
    have hpd := hM.after d x e hde p hp
    have hpon : c.onWire w p := by
      have : p ∈ L.filter (c.onWire w) := by rw [hab]; simp
      exact (List.mem_filter.mp this).2
    have hxon : c.onWire w x := by
      have : x ∈ M.filter (c.onWire w) := by rw [huv]; simp
      exact (List.mem_filter.mp this).2
    have hcut : u ++ x :: v = d.filter (c.onWire w) ++ x :: e.filter (c.onWire w) := by
      rw [← huv, hde, List.filter_append, List.filter_cons, if_pos hxon]
    have hnd : (u ++ x :: v).Nodup := huv ▸ hM.nodup.filter _
    rcases Strand.cut_around hcut with ⟨hd, _, _⟩ | ⟨r, hr, _⟩ | ⟨r, _, hr⟩
    · exact hd ▸ List.mem_filter.mpr ⟨hpd, hpon⟩
    · exact hr ▸ List.mem_append_left _ (List.mem_filter.mpr ⟨hpd, hpon⟩)
    · -- `x` cannot stand in `v` as well
      exact absurd (hr ▸ by simp) (List.nodup_cons.mp (List.nodup_append.mp hnd).2.1).1

/-- The links of a circuit follow each of its topological orders. -/
theorem Linked.of_isTopological {c : Circuit} {L M : List NodeId} (h : c.Linked L)
    (hM : c.IsTopological M) : c.Linked M := by
  have hperm : M.Perm L := by
    rw [List.perm_ext_iff_of_nodup hM.nodup h.nodup]
    intro x
    rw [hM.mem_iff, h.mem_iff]
  refine ⟨hM.nodup, hM.mem_iff, h.size_eq.trans hperm.length_eq.symm, h.fits, ?_⟩
  intro w
  rw [h.filter_eq hM w]
  exact h.threads w

theorem next?_eq_leg (c : Circuit) (id : NodeId) (w : Wire) :
    c.next? id w = ((c.strand w).leg id).bind (·.next) := by
  cases h : c.node? id <;> simp [next?, strand, h]

theorem follow_eq {c : Circuit} {w : Wire} {a l : List NodeId} {steps : Nat}
    (h : (c.strand w).Threads w (a ++ l)) (hs : l.length ≤ steps) :
    c.follow w steps l.head? = l := by
  induction l generalizing a steps with
  | nil => cases steps <;> rfl
  | cons x l ih =>
    cases steps with
    | zero => simp at hs
    | succ steps =>
      have hnext : c.next? x w = l.head? := by
        rw [next?_eq_leg, h.leg_eq a x l rfl]
        rfl
      have hl := ih (a := a ++ [x]) (by simpa using h) (by simpa using hs)
      simp [follow, hnext, hl]

theorem Linked.length_le {c : Circuit} {L : List NodeId} (h : c.Linked L) :
    L.length ≤ c.slots.size := by
  have hsub : L ⊆ List.range c.slots.size := fun x hx => List.mem_range.mpr (h.lt_size hx)
  simpa using h.nodup.length_le_of_subset hsub

theorem Linked.lane_eq {c : Circuit} {L : List NodeId} (h : c.Linked L) (w : Wire) :
    c.lane w = L.filter (c.onWire w) := by
  have hfirst : c.first? w = (L.filter (c.onWire w)).head? := (h.threads w).first_eq
  rw [lane, hfirst]
  apply follow_eq (a := []) (h.threads w)
  exact Nat.le_trans (List.length_filter_le _ _) h.length_le

theorem mem_ids {c : Circuit} {id : NodeId} : id ∈ c.ids ↔ (c.node? id).isSome := by
  simp only [ids, List.mem_filter, List.mem_range, and_iff_right_iff_imp]
  intro h
  by_contra hn
  simp [node?_eq_none_of_le (Nat.le_of_not_lt hn)] at h

theorem mem_ids_iff_op? {c : Circuit} {id : NodeId} : id ∈ c.ids ↔ (c.op? id).isSome := by
  rw [mem_ids, op?_isSome]

theorem lt_of_mem_ids {c : Circuit} {id : Nat} (h : id ∈ c.ids) : id < c.slots.size :=
  List.mem_range.mp (List.mem_filter.mp h).1

theorem ids_nodup (c : Circuit) : c.ids.Nodup :=
  List.nodup_range.filter _

theorem Linked.perm_ids {c : Circuit} {L : List NodeId} (h : c.Linked L) : L.Perm c.ids := by
  rw [List.perm_ext_iff_of_nodup h.nodup c.ids_nodup]
  intro x
  rw [h.mem_iff, mem_ids]

theorem isTopological_iff {c : Circuit} {L : List NodeId} :
    c.IsTopological L ↔ L.Nodup ∧ (∀ id ∈ L, id ∈ c.ids) ∧ (∀ id ∈ c.ids, id ∈ L) ∧
      ∀ k : Fin L.length, ∀ p ∈ c.before L[k], p ∈ L.take k := by
  constructor
  · intro h
    refine ⟨h.nodup, ?_, ?_, ?_⟩
    · exact fun id hid => mem_ids.mpr ((h.mem_iff id).mp hid)
    · exact fun id hid => (h.mem_iff id).mpr (mem_ids.mp hid)
    · intro k
      have hsplit : L = L.take k ++ L[k] :: L.drop (k + 1) := by simp
      exact h.after _ _ _ hsplit
  · rintro ⟨hnodup, hsub, hall, hbefore⟩
    refine ⟨hnodup, ?_, ?_⟩
    · intro id
      rw [← mem_ids]
      exact ⟨hsub id, hall id⟩
    · rintro a x b rfl p hp
      have hk := hbefore ⟨a.length, by simp⟩ p (by simpa using hp)
      simpa using hk

instance (c : Circuit) (L : List NodeId) : Decidable (c.IsTopological L) :=
  decidable_of_iff _ isTopological_iff.symm

/-- Among some nodes of a linked circuit the first in the order is ready. -/
theorem Linked.exists_ready {c : Circuit} {L waiting : List NodeId} (h : c.Linked L)
    (hsub : waiting ⊆ L) (hne : waiting ≠ []) : ∃ id ∈ waiting, c.isReady waiting id := by
  have hf : L.filter (· ∈ waiting) ≠ [] := by
    obtain ⟨y, hy⟩ := List.exists_mem_of_ne_nil waiting hne
    exact List.ne_nil_of_mem (List.mem_filter.mpr ⟨hsub hy, by simpa using hy⟩)
  obtain ⟨x, m, hxm⟩ := List.exists_cons_of_ne_nil hf
  obtain ⟨a, b, hL, ha, hx, _⟩ := List.filter_eq_cons_iff.mp hxm
  refine ⟨x, by simpa using hx, ?_⟩
  simp only [isReady, List.all_eq_true, decide_eq_true_eq]
  intro p hp hw
  have hpa := h.isTopological.after a x b (by simp [hL]) p hp
  exact absurd hw (by simpa using ha p hpa)

/-- Taking ready nodes again and again takes all of them, each after those before it. -/
theorem Linked.arrange_spec {c : Circuit} {L : List NodeId} (h : c.Linked L) (steps : Nat)
    {waiting : List NodeId} (hn : waiting.Nodup) (hsub : waiting ⊆ L)
    (hs : waiting.length ≤ steps) :
    (c.arrange steps waiting).Perm waiting ∧ ∀ a x b, c.arrange steps waiting = a ++ x :: b →
      ∀ p ∈ c.before x, p ∈ waiting → p ∈ a := by
  induction steps generalizing waiting with
  | zero =>
    have he : waiting = [] := List.length_eq_zero_iff.mp (by omega)
    subst he
    exact ⟨List.Perm.refl _, by simp [arrange]⟩
  | succ steps ih =>
    by_cases he : waiting = []
    · subst he
      exact ⟨List.Perm.refl _, by simp [arrange]⟩
    · obtain ⟨y, hy, hr⟩ := h.exists_ready hsub he
      obtain ⟨id, hid⟩ := Option.isSome_iff_exists.mp (List.find?_isSome.mpr ⟨y, hy, hr⟩)
      have hmem := List.mem_of_find?_eq_some hid
      have hready := List.find?_some hid
      have hlen : (waiting.erase id).length ≤ steps := by
        rw [List.length_erase_of_mem hmem]
        omega
      obtain ⟨hperm, hafter⟩ := ih (hn.erase id) (fun x hx => hsub (List.mem_of_mem_erase hx)) hlen
      have hstep : c.arrange (steps + 1) waiting = id :: c.arrange steps (waiting.erase id) := by
        simp [arrange, hid]
      rw [hstep]
      refine ⟨(hperm.cons id).trans (List.perm_cons_erase hmem).symm, ?_⟩
      intro a x b hab p hp hw
      cases a with
      | nil =>
        simp only [List.nil_append, List.cons.injEq] at hab
        obtain ⟨rfl, _⟩ := hab
        simp only [isReady, List.all_eq_true, decide_eq_true_eq] at hready
        exact absurd hw (hready p hp)
      | cons z a =>
        simp only [List.cons_append, List.cons.injEq] at hab
        obtain ⟨rfl, hrest⟩ := hab
        by_cases hpid : p = id
        · simp [hpid]
        · have hpa := hafter a x b hrest p hp ((List.mem_erase_of_ne hpid).mpr hw)
          simp [hpa]

theorem Linked.mem_of_before {c : Circuit} {L : List NodeId} (h : c.Linked L) {p x : NodeId}
    (hp : p ∈ c.before x) : p ∈ L := by
  obtain ⟨n, hn, _⟩ := mem_before_iff.mp hp
  obtain ⟨a, b, hab⟩ := List.append_of_mem ((h.mem_iff x).mpr (by simp [hn]))
  rw [hab]
  exact List.mem_append_left _ (h.isTopological.after a x b hab p hp)

theorem Linked.order_isTopological {c : Circuit} {L : List NodeId} (h : c.Linked L) :
    c.IsTopological c.order := by
  have hsub : c.ids ⊆ L := fun x hx => (h.mem_iff x).mpr (mem_ids.mp hx)
  obtain ⟨hperm, hafter⟩ := h.arrange_spec c.ids.length c.ids_nodup hsub (Nat.le_refl _)
  refine ⟨hperm.nodup_iff.mpr c.ids_nodup, ?_, ?_⟩
  · intro id
    rw [← mem_ids]
    exact hperm.mem_iff
  · intro a x b hab p hp
    exact hafter a x b hab p hp (mem_ids.mpr ((h.mem_iff p).mp (h.mem_of_before hp)))

end Circuit

end BasisFlow
