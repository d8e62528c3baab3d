import BasisFlow.Proofs.Traversal
import Mathlib.Data.List.Lex

namespace BasisFlow

/-- The request only adds a node at the end or takes one out. -/
def Request.Plain : Request → Prop
  | .append _ => True
  | .remove _ => True
  | .substitute _ _ _ _ => False

namespace Circuit

/-- The first entry with a property in an increasing list is the least. -/
theorem le_of_find?_eq_some {l : List NodeId} {p : NodeId → Bool} {x y : NodeId}
    (hs : l.Pairwise (· < ·)) (hx : l.find? p = some x) (hy : y ∈ l) (hp : p y) : x ≤ y := by
  obtain ⟨_, a, b, rfl, ha⟩ := List.find?_eq_some_iff_append.mp hx
  obtain ⟨_, hb, _⟩ := List.pairwise_append.mp hs
  rcases List.mem_append.mp hy with hya | hyb
  · have hno := ha y hya
    simp [hp] at hno
  · rcases List.mem_cons.mp hyb with rfl | hyb
    · exact Nat.le_refl _
    · exact Nat.le_of_lt ((List.pairwise_cons.mp hb).1 y hyb)

/-- To take the oldest ready node each time is the least of all ways to take the waiting nodes,
each after those before it. -/
theorem arrange_least {c : Circuit} (steps : Nat) {waiting M : List NodeId}
    (hs : waiting.Pairwise (· < ·)) (hlen : waiting.length ≤ steps) (hM : M.Perm waiting)
    (hafter : ∀ a x b, M = a ++ x :: b → ∀ p ∈ c.before x, p ∈ waiting → p ∈ a) :
    c.arrange steps waiting = M ∨ c.arrange steps waiting < M := by
  induction steps generalizing waiting M with
  | zero =>
    obtain rfl : waiting = [] := List.length_eq_zero_iff.mp (by omega)
    exact Or.inl (List.perm_nil.mp hM).symm
  | succ steps ih =>
    cases M with
    | nil =>
      obtain rfl := List.nil_perm.mp hM
      exact Or.inl rfl
    | cons y M =>
      have hn : waiting.Nodup := hs.imp Nat.ne_of_lt
      have hy : y ∈ waiting := hM.mem_iff.mp (by simp)
      -- nothing stands before the first entry, so that it is ready
      have hready : c.isReady waiting y := by
        rw [isReady_iff]
        intro p hp hw
        simpa using hafter [] y M rfl p hp hw
      obtain ⟨id, hid⟩ := Option.isSome_iff_exists.mp (List.find?_isSome.mpr ⟨y, hy, hready⟩)
      have hstep : c.arrange (steps + 1) waiting = id :: c.arrange steps (waiting.erase id) := by
        simp [arrange, hid]
      rw [hstep]
      rcases Nat.lt_or_eq_of_le (le_of_find?_eq_some hs hid hy hready) with hlt | rfl
      · exact Or.inr (List.Lex.rel hlt)
      · have hrest : M.Perm (waiting.erase id) := by
          have hperm := hM.erase id
          rwa [List.erase_cons_head] at hperm
        have hlen' : (waiting.erase id).length ≤ steps := by
          rw [List.length_erase_of_mem hy]
          omega
        have hafter' : ∀ a x b, M = a ++ x :: b →
            ∀ p ∈ c.before x, p ∈ waiting.erase id → p ∈ a := by
          intro a x b hab p hp hw
          obtain ⟨hne, hpw⟩ := hn.mem_erase_iff.mp hw
          have hpa := hafter (id :: a) x b (by simp [hab]) p hp hpw
          exact (List.mem_cons.mp hpa).resolve_left hne
        rcases ih (hs.sublist List.erase_sublist) hlen' hrest hafter' with heq | hlt
        · exact Or.inl (by rw [heq])
        · exact Or.inr (List.Lex.cons hlt)

theorem IsTopological.perm_ids {c : Circuit} {L : List NodeId} (h : c.IsTopological L) :
    L.Perm c.ids := by
  rw [List.perm_ext_iff_of_nodup h.nodup c.ids_nodup]
  intro x
  rw [h.mem_iff, mem_ids]

theorem IsTopological.order_least {c : Circuit} {L : List NodeId} (h : c.IsTopological L) :
    c.order = L ∨ c.order < L :=
  arrange_least c.ids.length c.ids_sorted (Nat.le_refl _) h.perm_ids
    fun a x b hab p hp _ => h.after a x b hab p hp

theorem Linked.eq_ids {c : Circuit} {L : List NodeId} (h : c.Linked L)
    (hs : L.Pairwise (· < ·)) : L = c.ids :=
  h.isTopological.perm_ids.eq_of_pairwise' hs c.ids_sorted

/-- A new node is the youngest of all, so that without substitutions the order of creation stays
an order of the circuit. -/
theorem Linked.ids_after {c : Circuit} (h : c.Linked c.ids) {r : Request} (hr : r.Plain) :
    (c.after r).Linked (c.after r).ids := by
  cases r with
  | append op =>
    cases ha : c.append op with
    | error e => simpa [Circuit.after, ha] using h
    | ok made =>
      obtain ⟨id, d⟩ := made
      obtain ⟨hl, _, hid, _⟩ := h.append ha
      have hsorted : (c.ids ++ [id]).Pairwise (· < ·) := by
        rw [List.pairwise_append]
        refine ⟨c.ids_sorted, List.pairwise_singleton _ _, ?_⟩
        intro x hx y hy
        obtain rfl := List.mem_singleton.mp hy
        exact hid ▸ h.lt_size hx
      have heq := hl.eq_ids hsorted
      rw [heq] at hl
      simpa [Circuit.after, ha] using hl
  | remove id =>
    cases hr : c.remove id with
    | error e => simpa [Circuit.after, hr] using h
    | ok taken =>
      obtain ⟨n, d⟩ := taken
      obtain ⟨A, B, hids⟩ := List.append_of_mem ((h.mem_iff id).mpr (by simp [(remove_eq_ok hr).1]))
      have hl : d.Linked (A ++ B) := (hids ▸ h).remove hr
      have hsub : (A ++ B).Sublist c.ids := by
        rw [hids]
        exact (List.Sublist.refl A).append (List.sublist_cons_self id B)
      have heq := hl.eq_ids (c.ids_sorted.sublist hsub)
      rw [heq] at hl
      simpa [Circuit.after, hr] using hl
  | substitute id f built ws => exact hr.elim

theorem Linked.ids_foldl_after {c : Circuit} (h : c.Linked c.ids) {requests : List Request}
    (hr : ∀ r ∈ requests, r.Plain) :
    (requests.foldl Circuit.after c).Linked (requests.foldl Circuit.after c).ids := by
  induction requests generalizing c with
  | nil => exact h
  | cons r requests ih => exact ih (h.ids_after (hr r (by simp))) fun q hq => hr q (by simp [hq])

/-- The first of the nodes that wait in an order of the circuit is always ready, so that they are
taken as they wait. -/
theorem Linked.arrange_eq_self {c : Circuit} (steps : Nat) (done : List NodeId)
    {waiting : List NodeId} (h : c.Linked (done ++ waiting)) (hlen : waiting.length ≤ steps) :
    c.arrange steps waiting = waiting := by
  induction waiting generalizing done steps with
  | nil => cases steps <;> rfl
  | cons x waiting ih =>
    cases steps with
    | zero => simp at hlen
    | succ steps =>
      have hready : c.isReady (x :: waiting) x := by
        rw [isReady_iff]
        intro p hp hw
        have hpd := h.isTopological.after done x waiting rfl p hp
        exact (List.nodup_append.mp h.nodup).2.2 p hpd p hw rfl
      have hrest := ih steps (done ++ [x]) (by simpa using h) (by simpa using hlen)
      simp [arrange, hready, hrest]

/-- The order that a traversal finds by counting down links enumerates the nodes, each after those
before it, and no such enumeration is less. If no node was ever substituted it is the order of
creation. -/
theorem Reachable.order_lex_least {width : Nat} {c : Circuit} (h : c.Reachable width) :
    c.order? = some c.order ∧ c.IsTopological c.order ∧
    (∀ L, c.IsTopological L → c.order = L ∨ c.order < L) ∧
    ∀ requests : List Request, (∀ r ∈ requests, r.Plain) →
      requests.foldl after (empty width) = c → c.order = c.ids ∧ c.ids.Pairwise (· < ·) := by
  obtain ⟨L, hL⟩ := h.linked
  refine ⟨hL.order?_eq, hL.order_isTopological, fun M hM => hM.order_least, ?_⟩
  rintro requests hr rfl
  have hempty : (empty width).Linked (empty width).ids := empty_linked width
  have hids := hempty.ids_foldl_after hr
  exact ⟨Linked.arrange_eq_self _ [] hids (Nat.le_refl _), ids_sorted _⟩

theorem spliced_beside_order_lex_least :
    let requests := [Request.append ⟨.base .h, [0]⟩, .append ⟨.base .z, [0]⟩,
      .append ⟨.base .h, [1]⟩]
    let c := requests.foldl after (empty 2)
    let f : Fragment := ⟨1, [⟨.base .h, [0]⟩, ⟨.base .z, [0]⟩]⟩
    (∀ r ∈ requests, r.Plain) ∧ c.Reachable 2 ∧ c.order = [0, 1, 2] ∧
      ∃ d, c.substitute 0 f [0] = .ok ([3, 4], d) ∧ d.Reachable 2 ∧
        d.IsTopological [3, 4, 1, 2] ∧ d.order = [2, 3, 4, 1] ∧ d.order < [3, 4, 1, 2] := by
  intro requests c f
  have hplain : ∀ r ∈ requests, r.Plain := by simp [requests, Request.Plain]
  have hc : c.Reachable 2 := ⟨requests, rfl⟩
  have horder : c.order = [0, 1, 2] := (hc.order_lex_least.2.2.2 requests hplain rfl).1
  have hf : f.Built :=
    .push (.push (.empty 1) (show (Fragment.empty 1).push ⟨.base .h, [0]⟩ = _ from rfl))
      (show (Fragment.mk 1 [⟨.base .h, [0]⟩]).push ⟨.base .z, [0]⟩ = .ok f from rfl)
  have hs : ∃ d, c.substitute 0 f [0] = .ok ([3, 4], d) ∧ d.order = [2, 3, 4, 1] :=
    ⟨_, rfl, by decide⟩
  obtain ⟨d, hd, hleast⟩ := hs
  have hreach : d.Reachable 2 :=
    ⟨requests ++ [.substitute 0 f hf [0]], by simp [List.foldl_append, after, c, hd]⟩
  have hempty : (empty 2).Linked (empty 2).ids := empty_linked 2
  have hlinked : c.Linked ([] ++ 0 :: [1, 2]) := hempty.ids_foldl_after hplain
  have htop := (hlinked.substitute hf.fits hd).1.isTopological
  refine ⟨hplain, hc, horder, d, hd, hreach, htop, hleast, ?_⟩
  refine (hreach.order_lex_least.2.2.1 _ htop).resolve_left ?_
  rw [hleast]
  decide

end Circuit

end BasisFlow
