import BasisFlow.Proofs.Bookkeeping
import BasisFlow.Proofs.Neighbours
import Mathlib.Data.List.Sort

namespace BasisFlow

namespace Circuit

/-- The nodes directly after `id`, once for each wire. -/
def behind (c : Circuit) (id : NodeId) : List NodeId :=
  match c.node? id with
  | some n => n.nexts.filterMap fun p => p
  | none => []

/-- The number of links into each node. -/
def degrees (c : Circuit) (id : NodeId) : Option Nat :=
  (c.node? id).map fun _ => (c.before id).length

/-- Counts down one link for each of the nodes, which become ready when no link is left. Nothing
comes of it if a node is not in the table or has no link left to count down. -/
def release (d : NodeId → Option Nat) (ready : List NodeId) :
    List NodeId → Option ((NodeId → Option Nat) × List NodeId)
  | [] => some (d, ready)
  | s :: rest =>
    match d s with
    | some (k + 1) =>
      release (fun x => if x = s then some k else d x) (if k = 0 then s :: ready else ready) rest
    | _ => none

/-- Takes the least ready node and releases the nodes behind it, again and again. Nothing comes of
it if a ready node is missing, a release fails, or the steps do not suffice. -/
def drain (c : Circuit) : Nat → (NodeId → Option Nat) → List NodeId → Option (List NodeId)
  | 0, _, ready => if ready = [] then some [] else none
  | steps + 1, d, ready =>
    match ready.min? with
    | none => some []
    | some id => do
      let _ ← c.node? id
      let (d, ready) ← release d (ready.erase id) (c.behind id)
      let rest ← c.drain steps d ready
      return id :: rest

/-- The order of `order`, found by counting down links. -/
def order? (c : Circuit) : Option (List NodeId) :=
  c.drain c.ids.length c.degrees (c.ids.filter fun id => c.degrees id = some 0)

theorem release_eq {d : NodeId → Option Nat} {ready succs : List NodeId}
    (h : ∀ s ∈ succs, ∃ k, d s = some k ∧ succs.count s ≤ k) :
    ∃ d' ready', release d ready succs = some (d', ready') ∧
      (∀ x, d' x = (d x).map (· - succs.count x)) ∧
      (∀ x, x ∈ ready' ↔ x ∈ ready ∨ x ∈ succs ∧ d x = some (succs.count x)) ∧
      (ready.Nodup → (∀ x ∈ succs, x ∉ ready) → ready'.Nodup) := by
  induction succs generalizing d ready with
  | nil => exact ⟨d, ready, rfl, by simp, by simp, fun hn _ => hn⟩
  | cons s succs ih =>
    obtain ⟨k, hk, hc⟩ := h s (by simp)
    rw [List.count_cons_self] at hc
    cases k with
    | zero => omega
    | succ k =>
      let d₁ : NodeId → Option Nat := fun x => if x = s then some k else d x
      have hd₁ : ∀ x, x ≠ s → d₁ x = d x := fun x hx => by simp [d₁, hx]
      have hds : d₁ s = some k := by simp [d₁]
      have h₁ : ∀ t ∈ succs, ∃ j, d₁ t = some j ∧ succs.count t ≤ j := by
        intro t ht
        by_cases he : t = s
        · subst t
          exact ⟨k, hds, by omega⟩
        · obtain ⟨j, hj, hcj⟩ := h t (by simp [ht])
          rw [List.count_cons_of_ne (Ne.symm he)] at hcj
          exact ⟨j, (hd₁ t he).trans hj, hcj⟩
      obtain ⟨d', ready', hr, hd', hmem, hnodup⟩ :=
        @ih d₁ (if k = 0 then s :: ready else ready) h₁
      refine ⟨d', ready', ?_, ?_, ?_, ?_⟩
      · rw [release, hk]
        exact hr
      · intro x
        rw [hd']
        by_cases hx : x = s
        · subst x
          rw [hds, hk, List.count_cons_self]
          simp
        · rw [hd₁ x hx, List.count_cons_of_ne (Ne.symm hx)]
      · intro x
        rw [hmem]
        by_cases hx : x = s
        · subst x
          have hin : s ∈ succs ↔ 0 < succs.count s := List.count_pos_iff.symm
          rw [hds, hk, List.count_cons_self, hin]
          by_cases hz : k = 0
          · have : succs.count s = 0 := by omega
            simp [hz, this]
          · have hpos : succs.count s = k → 0 < succs.count s := by omega
            simp only [hz, ↓reduceIte, Option.some.injEq, List.mem_cons, true_or, true_and,
              Nat.add_right_cancel_iff]
            exact or_congr_right ⟨fun hb => hb.2, fun he => ⟨hpos he.symm, he⟩⟩
        · rw [hd₁ x hx, List.count_cons_of_ne (Ne.symm hx)]
          by_cases hz : k = 0 <;> simp [hz, hx]
      · intro hn hout
        apply hnodup
        · by_cases hz : k = 0
          · simpa [hz] using ⟨hout s (by simp), hn⟩
          · simpa [hz] using hn
        · intro x hx
          have hxr := hout x (by simp [hx])
          by_cases hz : k = 0
          · have hs : s ∉ succs := List.count_eq_zero.mp (by omega)
            have hxs : x ≠ s := fun e => hs (e ▸ hx)
            simpa [hz, hxs] using hxr
          · simpa [hz] using hxr

theorem Linked.count_links {c : Circuit} {L : List NodeId} (h : c.Linked L) {a : NodeId}
    {n : Node} (hn : c.node? a = some n) (f : Leg → Option NodeId) (b : NodeId) :
    (n.legs.filterMap f).count b =
      (List.range c.width).countP fun w => ((c.strand w).leg a).bind f = some b := by
  have hfits := h.fits a n hn
  have hnodup : n.wires.Nodup := hfits.nodup
  have hleg : ∀ w, (c.strand w).leg a = n.leg? w := by simp [strand, hn]
  have hlegs : (n.legs.filterMap f).count b =
      n.wires.countP fun w => ((c.strand w).leg a).bind f = some b := by
    rw [List.count, List.countP_filterMap, Node.wires, List.countP_map]
    apply List.countP_congr
    intro p hp
    have hfind := Node.leg?_of_mem hnodup hp
    cases hf : f p <;> simp [hleg, hfind, hf]
  rw [hlegs, List.countP_eq_length_filter, List.countP_eq_length_filter]
  apply List.Perm.length_eq
  rw [List.perm_ext_iff_of_nodup (hnodup.filter _) (List.nodup_range.filter _)]
  intro w
  simp only [List.mem_filter, List.mem_range, decide_eq_true_eq, and_congr_left_iff]
  intro hw
  obtain ⟨p, hp, _⟩ := Option.bind_eq_some_iff.mp hw
  have hmem : w ∈ n.wires := Node.leg?_isSome_iff.mp (by rw [← hleg, hp]; rfl)
  exact ⟨fun _ => hfits.lt_width w hmem, fun _ => hmem⟩

theorem Linked.count_behind_eq {c : Circuit} {L : List NodeId} (h : c.Linked L) (a b : NodeId) :
    (c.behind a).count b = (List.range c.width).countP fun w => c.next? a w = some b := by
  cases hn : c.node? a with
  | none => simp [behind, next?, hn]
  | some n =>
    have hlinks := h.count_links hn (·.next) b
    simp only [← next?_eq_leg] at hlinks
    simpa [behind, hn, Node.nexts, List.filterMap_map, Function.comp_def] using hlinks

theorem Linked.count_behind {c : Circuit} {L : List NodeId} (h : c.Linked L) (a b : NodeId) :
    (c.behind a).count b = (c.before b).count a := by
  have hprev : (c.before b).count a =
      (List.range c.width).countP fun w => c.prev? b w = some a := by
    cases hn : c.node? b with
    | none => simp [before, prev?, hn]
    | some n =>
      have hlinks := h.count_links hn (·.prev) a
      simp only [← prev?_eq_leg] at hlinks
      simpa [before, hn, Node.prevs, List.filterMap_map, Function.comp_def] using hlinks
  rw [h.count_behind_eq, hprev]
  apply List.countP_congr
  intro w _
  simpa using h.next?_iff

theorem find?_eq_of_least {l : List NodeId} {p : NodeId → Bool} {x : NodeId}
    (hs : l.Pairwise (· < ·)) (hx : x ∈ l) (hp : p x) (hmin : ∀ y ∈ l, p y → x ≤ y) :
    l.find? p = some x := by
  induction l with
  | nil => simp at hx
  | cons y l ih =>
    obtain ⟨hy, hs'⟩ := List.pairwise_cons.mp hs
    rcases List.mem_cons.mp hx with rfl | hx
    · simp [hp]
    · have hpy : p y = false := by
        by_contra hn
        have hle := hmin y (by simp) (by simpa using hn)
        exact absurd (hy x hx) (Nat.not_lt.mpr hle)
      rw [List.find?_cons_of_neg (by simp [hpy])]
      exact ih hs' hx fun z hz hpz => hmin z (by simp [hz]) hpz

/-- What the table and the ready nodes say while the nodes `waiting` are still to be taken. -/
structure Draining (c : Circuit) (waiting : List NodeId) (d : NodeId → Option Nat)
    (ready : List NodeId) : Prop where
  sorted : waiting.Pairwise (· < ·)
  live : ∀ x ∈ waiting, (c.node? x).isSome
  closed : ∀ x ∉ waiting, ∀ p ∈ c.before x, p ∉ waiting
  degree : ∀ x ∈ waiting, d x = some ((c.before x).countP (· ∈ waiting))
  nodup : ready.Nodup
  mem_ready : ∀ x, x ∈ ready ↔ x ∈ waiting ∧ c.isReady waiting x

theorem Linked.not_mem_before {c : Circuit} {L : List NodeId} (h : c.Linked L) (x : NodeId) :
    x ∉ c.before x := by
  intro hx
  obtain ⟨n, hn, _⟩ := mem_before_iff.mp hx
  obtain ⟨a, b, hab⟩ := List.append_of_mem ((h.mem_iff x).mpr (by simp [hn]))
  have ha := h.isTopological.after a x b hab x hx
  exact (List.nodup_append.mp (hab ▸ h.nodup)).2.2 x ha x (by simp) rfl

theorem countP_erase_waiting {waiting l : List NodeId} {id : NodeId} (hn : waiting.Nodup)
    (hid : id ∈ waiting) :
    l.countP (· ∈ waiting.erase id) = l.countP (· ∈ waiting) - l.count id := by
  induction l with
  | nil => simp
  | cons x l ih =>
    have hle : l.count id ≤ l.countP (· ∈ waiting) := by
      apply List.countP_mono_left
      intro y _ hy
      rw [beq_iff_eq.mp hy]
      simpa using hid
    rw [List.countP_cons, List.countP_cons, List.count_cons, ih]
    by_cases hx : x = id
    · subst x
      simp [hn.not_mem_erase, hid]
    · by_cases hw : x ∈ waiting
      · simp [hx, hw, List.mem_erase_of_ne hx]
        omega
      · simp [hx, hw, List.mem_erase_of_ne hx]

theorem isReady_iff {c : Circuit} {waiting : List NodeId} {x : NodeId} :
    c.isReady waiting x ↔ ∀ p ∈ c.before x, p ∉ waiting := by
  simp [isReady]

theorem isReady_iff_countP {c : Circuit} {waiting : List NodeId} {x : NodeId} :
    c.isReady waiting x ↔ (c.before x).countP (· ∈ waiting) = 0 := by
  rw [isReady_iff, List.countP_eq_zero]
  simp

theorem Draining.step {c : Circuit} {L waiting ready : List NodeId} {d : NodeId → Option Nat}
    {id : NodeId} (h : c.Linked L) (hd : c.Draining waiting d ready) (hid : id ∈ ready) :
    ∃ d' ready', release d (ready.erase id) (c.behind id) = some (d', ready') ∧
      c.Draining (waiting.erase id) d' ready' := by
  obtain ⟨hidw, hidr⟩ := (hd.mem_ready id).mp hid
  have hn : waiting.Nodup := hd.sorted.imp Nat.ne_of_lt
  have hbehind : ∀ x, x ∈ c.behind id ↔ id ∈ c.before x := by
    intro x
    rw [← List.count_pos_iff, h.count_behind, List.count_pos_iff]
  have hwait : ∀ x, id ∈ c.before x → x ∈ waiting := by
    intro x hx
    by_contra hxw
    exact hd.closed x hxw id hx hidw
  have hle : ∀ x, (c.before x).count id ≤ (c.before x).countP (· ∈ waiting) := by
    intro x
    apply List.countP_mono_left
    intro y _ hy
    rw [beq_iff_eq.mp hy]
    simpa using hidw
  obtain ⟨d', ready', hr, hd', hmem, hnodup⟩ := @release_eq d (ready.erase id) (c.behind id) <| by
    intro x hx
    rw [h.count_behind]
    exact ⟨_, hd.degree x (hwait x ((hbehind x).mp hx)), hle x⟩
  have hfresh : ∀ x ∈ c.behind id, x ∉ ready := by
    intro x hx hxr
    exact isReady_iff.mp ((hd.mem_ready x).mp hxr).2 id ((hbehind x).mp hx) hidw
  refine ⟨d', ready', hr, ?_, ?_, ?_, ?_, ?_, ?_⟩
  · exact hd.sorted.sublist List.erase_sublist
  · exact fun x hx => hd.live x (List.mem_of_mem_erase hx)
  · intro x hx p hp hpw
    have hpw' := List.mem_of_mem_erase hpw
    by_cases he : x = id
    · subst x
      exact isReady_iff.mp hidr p hp hpw'
    · exact hd.closed x (fun hxw => hx ((List.mem_erase_of_ne he).mpr hxw)) p hp hpw'
  · intro x hx
    rw [hd', hd.degree x (List.mem_of_mem_erase hx), h.count_behind, countP_erase_waiting hn hidw]
    rfl
  · exact hnodup (hd.nodup.erase id) fun x hx hxr => hfresh x hx (List.mem_of_mem_erase hxr)
  · intro x
    rw [hmem, hd.nodup.mem_erase_iff, hd.mem_ready, hn.mem_erase_iff, hbehind, h.count_behind]
    constructor
    · rintro (⟨hne, hxw, hxr⟩ | ⟨hb, hx⟩)
      · exact ⟨⟨hne, hxw⟩, isReady_iff.mpr fun p hp hpw =>
          isReady_iff.mp hxr p hp (List.mem_of_mem_erase hpw)⟩
      · have hxw := hwait x hb
        have hne : x ≠ id := fun e => h.not_mem_before id (e ▸ hb)
        rw [hd.degree x hxw, Option.some.injEq] at hx
        refine ⟨⟨hne, hxw⟩, isReady_iff_countP.mpr ?_⟩
        rw [countP_erase_waiting hn hidw, hx, Nat.sub_self]
    · rintro ⟨⟨hne, hxw⟩, hxr⟩
      by_cases hb : id ∈ c.before x
      · refine Or.inr ⟨hb, ?_⟩
        rw [isReady_iff_countP, countP_erase_waiting hn hidw] at hxr
        have := hle x
        rw [hd.degree x hxw, Option.some.injEq]
        omega
      · refine Or.inl ⟨hne, hxw, isReady_iff.mpr fun p hp hpw => ?_⟩
        have hpid : p ≠ id := fun e => hb (e ▸ hp)
        exact isReady_iff.mp hxr p hp ((List.mem_erase_of_ne hpid).mpr hpw)

/-- Counting down links finds the same order as looking for ready nodes. -/
theorem Linked.drain_eq {c : Circuit} {L : List NodeId} (h : c.Linked L) (steps : Nat)
    {waiting ready : List NodeId} {d : NodeId → Option Nat} (hd : c.Draining waiting d ready)
    (hs : waiting.length ≤ steps) : c.drain steps d ready = some (c.arrange steps waiting) := by
  induction steps generalizing waiting ready d with
  | zero =>
    have he : waiting = [] := List.length_eq_zero_iff.mp (by omega)
    have hready : ready = [] := List.eq_nil_iff_forall_not_mem.mpr fun x hx => by
      simpa [he] using ((hd.mem_ready x).mp hx).1
    simp [drain, arrange, hready]
  | succ steps ih =>
    cases hmin : ready.min? with
    | none =>
      have hready : ready = [] := List.min?_eq_none_iff.mp hmin
      have he : waiting = [] := by
        by_contra hne
        obtain ⟨x, hx, hr⟩ := h.exists_ready (fun y hy => (h.mem_iff y).mpr (hd.live y hy)) hne
        simpa [hready] using (hd.mem_ready x).mpr ⟨hx, hr⟩
      simp [drain, arrange, hmin, he]
    | some id =>
      obtain ⟨hid, hleast⟩ := List.min?_eq_some_iff.mp hmin
      obtain ⟨hidw, hidr⟩ := (hd.mem_ready id).mp hid
      obtain ⟨n, hn⟩ := Option.isSome_iff_exists.mp (hd.live id hidw)
      obtain ⟨d', ready', hr, hd'⟩ := hd.step h hid
      have hfind : waiting.find? (c.isReady waiting) = some id :=
        find?_eq_of_least hd.sorted hidw hidr fun y hy hyr => hleast y ((hd.mem_ready y).mpr ⟨hy, hyr⟩)
      have hlen : (waiting.erase id).length ≤ steps := by
        rw [List.length_erase_of_mem hidw]
        omega
      simp [drain, arrange, hmin, hn, hr, hfind, ih hd' hlen]

theorem ids_sorted (c : Circuit) : c.ids.Pairwise (· < ·) :=
  List.pairwise_lt_range.filter _

theorem Linked.order?_eq {c : Circuit} {L : List NodeId} (h : c.Linked L) :
    c.order? = some c.order := by
  have hlive : ∀ x, ∀ p ∈ c.before x, p ∈ c.ids := by
    intro x p hp
    rw [mem_ids, ← h.mem_iff]
    exact h.mem_of_before hp
  have hcount : ∀ x, (c.before x).countP (· ∈ c.ids) = (c.before x).length := by
    intro x
    rw [List.countP_eq_length]
    simpa using hlive x
  have hdegree : ∀ x ∈ c.ids, c.degrees x = some ((c.before x).countP (· ∈ c.ids)) := by
    intro x hx
    obtain ⟨n, hn⟩ := Option.isSome_iff_exists.mp (mem_ids.mp hx)
    rw [degrees, hn, hcount]
    rfl
  apply h.drain_eq c.ids.length _ (Nat.le_refl _)
  refine ⟨c.ids_sorted, fun x hx => mem_ids.mp hx, ?_, hdegree, c.ids_nodup.filter _, ?_⟩
  · intro x hx p hp
    obtain ⟨n, hn, _⟩ := mem_before_iff.mp hp
    exact absurd (mem_ids.mpr (by simp [hn])) hx
  · intro x
    rw [List.mem_filter, isReady_iff_countP]
    apply and_congr_right
    intro hx
    rw [decide_eq_true_eq, hdegree x hx, Option.some.injEq]

/-- Whatever was asked of a circuit, and whether or not it was granted, its links, ends and counts
are consistent. So no request and no traversal meets a missing node, a missing leg, a wire without
ends, a wire without a name or a count that is zero already. -/
theorem Reachable.bookkeeping_sound {width : Nat} {c : Circuit} (h : c.Reachable width) :
    c.width = width ∧ c.Consistent ∧
    (∀ op, c.append? op = some (c.append op)) ∧
    (∀ id, c.remove? id = some (c.remove id)) ∧
    (∀ id (f : Fragment) ws, f.Built → c.substitute? id f ws = some (c.substitute id f ws)) ∧
    c.order? = some c.order ∧ ∀ id ∈ c.order, (c.node? id).isSome := by
  obtain ⟨L, hL⟩ := h.linked
  refine ⟨h.width_eq, hL.consistent, hL.append?_eq, hL.remove?_eq, ?_, hL.order?_eq, ?_⟩
  · intro id f ws hf
    exact hL.substitute?_eq id hf.fits ws
  · intro id hid
    exact (hL.order_isTopological.mem_iff id).mp hid

theorem refused_requests_bookkeeping_sound :
    let f : Fragment := ⟨2, []⟩
    let c := [Request.append ⟨.cx, [0, 1]⟩, .append ⟨.cx, [1, 1]⟩, .append ⟨.base .h, [1]⟩,
      .remove 7, .substitute 1 f (.empty 2) [1, 0], .remove 0].foldl after (empty 2)
    c.Reachable 2 ∧ c.Consistent ∧ c.order? = some [1] ∧
      c.remove? 0 = some (.error (.missingNode 0)) := by
  intro f c
  have hc : c.Reachable 2 := ⟨_, rfl⟩
  obtain ⟨_, hcons, _, hremove, _, horder, _⟩ := hc.bookkeeping_sound
  exact ⟨hc, hcons, horder.trans (by decide), (hremove 0).trans rfl⟩

end Circuit

end BasisFlow
