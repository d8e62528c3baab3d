import BasisFlow.Proofs.Refinement

namespace BasisFlow

/-- The slots that a reduction takes up. -/
def Reduction.added : Reduction → Nat
  | .substitute f _ => f.ops.length
  | _ => 0

/-- The circuit `d` is `c` after the node `id` has had an outcome: no other node of `c` is touched,
and all slots beyond those of `c` are taken. -/
structure Circuit.Edited (id : NodeId) (outcome : Outcome) (c d : Circuit) : Prop where
  old : ∀ x : Nat, x < c.slots.size →
    d.op? x = if x = id ∧ outcome ≠ .kept then none else c.op? x
  new : ∀ x : Nat, c.slots.size ≤ x → x < d.slots.size → (d.op? x).isSome

namespace Circuit

theorem slots_size_fill (c : Circuit) (gap : List Leg) (ops : List Operation) :
    (c.fill gap ops).2.slots.size = c.slots.size + ops.length := by
  induction ops generalizing c gap with
  | nil => rfl
  | cons op ops ih =>
    rw [fill]
    simp only [ih, slots_size_insert, List.length_cons]
    omega

theorem op?_fill_of_lt {c : Circuit} {gap : List Leg} {ops : List Operation} {x : Nat}
    (hx : x < c.slots.size) : (c.fill gap ops).2.op? x = c.op? x := by
  induction ops generalizing c gap with
  | nil => rfl
  | cons op ops ih =>
    rw [fill]
    simp only
    rw [ih (by rw [slots_size_insert]; omega), op?_insert, if_neg (Nat.ne_of_lt hx)]

theorem op?_fill_isSome {c : Circuit} {gap : List Leg} {ops : List Operation} {x : Nat}
    (hx : c.slots.size ≤ x) (hlt : x < c.slots.size + ops.length) :
    ((c.fill gap ops).2.op? x).isSome := by
  induction ops generalizing c gap with
  | nil =>
    rw [List.length_nil] at hlt
    omega
  | cons op ops ih =>
    rw [List.length_cons] at hlt
    rw [fill]
    simp only
    by_cases he : x = c.slots.size
    · rw [op?_fill_of_lt (by rw [slots_size_insert]; omega), op?_insert, if_pos he]
      rfl
    · apply ih
      · rw [slots_size_insert]
        omega
      · rw [slots_size_insert]
        omega

end Circuit

open Circuit

theorem Reduction.commit_edited {r : Reduction} {c d : Circuit} {id : NodeId} {outcome : Outcome}
    (h : r.commit c id = .ok (outcome, d)) :
    outcome = r.outcome ∧ d.slots.size = c.slots.size + r.added ∧ Edited id outcome c d := by
  cases r with
  | keep =>
    cases h
    refine ⟨rfl, rfl, fun x _ => by simp, ?_⟩
    intro x hle hlt
    omega
  | remove =>
    obtain ⟨⟨n, d'⟩, hremove, h⟩ := except_bind_eq_ok.mp h
    cases h
    have hsize := slots_size_remove hremove
    refine ⟨rfl, hsize, ?_, ?_⟩
    · intro x _
      simp [op?_remove hremove]
    · intro x hle hlt
      omega
  | substitute f ws =>
    obtain ⟨⟨ids, d'⟩, hsubstitute, h⟩ := except_bind_eq_ok.mp h
    cases h
    obtain ⟨n, e, hremove, _, _, _, hfill⟩ := substitute_eq_ok hsubstitute
    obtain rfl : (e.fill n.legs (f.ops.map (·.onto ws))).2 = d := congrArg Prod.snd hfill
    have hsize := slots_size_remove hremove
    have hroom : (e.fill n.legs (f.ops.map (·.onto ws))).2.slots.size =
        c.slots.size + f.ops.length := by
      rw [slots_size_fill, hsize, List.length_map]
    refine ⟨rfl, hroom, ?_, ?_⟩
    · intro x hx
      rw [op?_fill_of_lt (hsize ▸ hx), op?_remove hremove]
      simp
    · intro x hle hlt
      rw [hroom] at hlt
      apply op?_fill_isSome
      · omega
      · rw [hsize, List.length_map]
        exact hlt

section Bounds

variable {node : NodeId} {t : Tracking} {d : Decision}

theorem Reduction.added_single (g : Gate) (ws : List Wire) : (single g ws).added = 1 := rfl

theorem Controls.reduce_added {g : BaseGate} {p : Polarity} {wires : List Wire}
    (h : reduce node g p wires t = .ok d) (hs : d.reduction.outcome = .substituted) :
    d.reduction.added = 1 := by
  rcases reduce_cases h with hd | ⟨_, _, _, _, hd⟩ | ⟨_, _, hd⟩ | ⟨S, _, ⟨_, _, _, _, hkick⟩ | hd⟩
  · rw [hd] at hs
    cases hs
  · rw [hd] at hs
    cases hs
  · rw [hd] at hs
    cases hs
  · rcases kickback_cases hkick with ⟨_, hd⟩ | ⟨_, _, _, hd⟩ | ⟨_, _, _, hd⟩
    · rw [hd] at hs
      cases hs
    · rw [hd, Reduction.added_single]
    · rw [hd, Reduction.added_single]
  · rw [hd]
    exact Reduction.added_single _ _

theorem Swaps.lookup_length {s r : BasisState} (hne : s ≠ r) {steps : List Step}
    {o : Orientation} (h : lookup? s r = some (steps, o)) :
    1 ≤ steps.length ∧ steps.length ≤ 4 := by
  cases s <;> cases r <;> first | contradiction | (cases h; decide)

theorem Swaps.reduce_added {wires : List Wire} (h : reduce node wires t = .ok d)
    (hs : d.reduction.outcome = .substituted) :
    1 ≤ d.reduction.added ∧ d.reduction.added ≤ 4 := by
  obtain ⟨_, _, _, _, _, _, _, ⟨_, _, hd⟩ | ⟨_, _, hd⟩ | ⟨hne, steps, o, hl, hd⟩⟩ := reduce_cases h
  · rw [hd] at hs
    cases hs
  · rw [hd] at hs
    cases hs
  · rw [hd, Reduction.added, List.length_map]
    exact lookup_length hne hl

/-- A rule is about controlled gates or swaps only, and never puts an empty fragment or one of more
than four gates in their place. -/
theorem Rule.decision_added {rule : Rule} {op : Operation}
    (h : rule.decision? node op t = .ok (some d)) :
    ((∃ g p, op.gate = .controlled g p) ∨ op.gate = .base .swap) ∧
      (d.reduction.outcome = .substituted →
        1 ≤ d.reduction.added ∧ d.reduction.added ≤ 4) := by
  unfold decision? at h
  split at h
  next g p hgate =>
    obtain ⟨d', hd, h⟩ := except_bind_eq_ok.mp h
    obtain rfl := Option.some.inj (Except.ok.inj h)
    refine ⟨Or.inl ⟨g, p, hgate⟩, ?_⟩
    intro hs
    rw [Controls.reduce_added hd hs]
    omega
  next hgate =>
    obtain ⟨d', hd, h⟩ := except_bind_eq_ok.mp h
    obtain rfl := Option.some.inj (Except.ok.inj h)
    exact ⟨Or.inr hgate, Swaps.reduce_added hd⟩
  next => cases h

end Bounds

namespace Progress

variable {o : Options} {c : Circuit} {p q : Progress} {id : NodeId} {outcome : Outcome}
  {visited ids : List NodeId}

theorem visit_edited (hv : p.visit o id = .ok (outcome, q)) :
    ∃ op, p.circuit.op? id = some op ∧ q.report = p.report.record outcome ∧
      Edited id outcome p.circuit q.circuit ∧
      (outcome ≠ .kept → (∃ g pol, op.gate = .controlled g pol) ∨ op.gate = .base .swap) ∧
      (outcome ≠ .substituted → q.circuit.slots.size = p.circuit.slots.size) ∧
      (outcome = .substituted → p.circuit.slots.size + 1 ≤ q.circuit.slots.size ∧
        q.circuit.slots.size ≤ p.circuit.slots.size + 4) := by
  obtain ⟨op, hop, hreport, ⟨rfl, hcircuit, _⟩ | ⟨rule, d, hd, hcommit, _⟩⟩ := visit_cases hv
  · rw [hcircuit]
    refine ⟨op, hop, hreport, ⟨fun x _ => by simp, ?_⟩, by simp, by simp, by simp⟩
    intro x hle hlt
    omega
  · obtain ⟨rfl, hsize, hedited⟩ := Reduction.commit_edited hcommit
    obtain ⟨hgate, hbounds⟩ := Rule.decision_added hd
    refine ⟨op, hop, hreport, hedited, fun _ => hgate, ?_, ?_⟩
    · intro hne
      rw [hsize]
      cases hr : d.reduction with
      | substitute f ws => exact absurd (by rw [hr]; rfl) hne
      | _ => rfl
    · intro hs
      have := hbounds hs
      omega

/-- The accounts of a pass over the circuit `c` that has the nodes `visited` behind it. A visited
node is as it was or gone, and nothing that was put in has been taken out again. -/
structure Accounts (c : Circuit) (visited : List NodeId) (p : Progress) : Prop where
  visited_lt : ∀ x ∈ visited, x < c.slots.size
  old : ∀ x : Nat, x < c.slots.size →
    p.circuit.op? x = c.op? x ∨ (x ∈ visited ∧ p.circuit.op? x = none)
  plain : ∀ (x : Nat) op, c.op? x = some op → (∀ g pol, op.gate ≠ .controlled g pol) →
    op.gate ≠ .base .swap → p.circuit.op? x = some op
  new : ∀ x : Nat, c.slots.size ≤ x → x < p.circuit.slots.size → (p.circuit.op? x).isSome
  visited_eq : p.report.visited = visited.length
  sum_eq : p.report.visited = p.report.kept + p.report.removed + p.report.substituted
  kept_eq : p.report.kept = visited.countP fun x => (p.circuit.op? x).isSome
  le_room : c.slots.size + p.report.substituted ≤ p.circuit.slots.size
  room_le : p.circuit.slots.size ≤ c.slots.size + 4 * p.report.substituted

theorem start_accounts (c : Circuit) : (start c).Accounts c [] := by
  refine ⟨by simp, fun x _ => Or.inl rfl, fun x op hop _ _ => hop, ?_, rfl, rfl, rfl,
    Nat.le_refl _, Nat.le_refl _⟩
  intro x hle hlt
  exact absurd hlt (Nat.not_lt.mpr hle)

theorem Accounts.visit (h : p.Accounts c visited) (hid : id ∉ visited) (hlt : id < c.slots.size)
    (hv : p.visit o id = .ok (outcome, q)) : q.Accounts c (visited ++ [id]) := by
  obtain ⟨op, hop, hreport, hedited, hgate, hsame, hmore⟩ := visit_edited hv
  have hroom := h.le_room
  have hroom' := h.room_le
  have hsum := h.sum_eq
  have hgrown : c.slots.size ≤ p.circuit.slots.size := by omega
  have hopc : c.op? id = some op := by
    rcases h.old id hlt with he | ⟨hm, _⟩
    · rw [← he, hop]
    · exact absurd hm hid
  have hother : ∀ x : Nat, x < p.circuit.slots.size → x ≠ id →
      q.circuit.op? x = p.circuit.op? x := by
    intro x hx hne
    rw [hedited.old x hx, if_neg fun hc => hne hc.1]
  have hitself : q.circuit.op? id = if outcome ≠ .kept then none else some op := by
    rw [hedited.old id (Nat.lt_of_lt_of_le hlt hgrown), hop]
    simp
  have hcount : (visited ++ [id]).countP (fun x => (q.circuit.op? x).isSome) =
      p.report.kept + if outcome ≠ .kept then 0 else 1 := by
    have hbefore : visited.countP (fun x => (q.circuit.op? x).isSome) =
        visited.countP fun x => (p.circuit.op? x).isSome := by
      apply List.countP_congr
      intro x hx
      have hold := Nat.lt_of_lt_of_le (h.visited_lt x hx) hgrown
      rw [hother x hold fun e => hid (e ▸ hx)]
    rw [List.countP_append, hbefore, ← h.kept_eq, List.countP_singleton, hitself]
    split <;> rfl
  have hbounds : c.slots.size + q.report.substituted ≤ q.circuit.slots.size ∧
      q.circuit.slots.size ≤ c.slots.size + 4 * q.report.substituted := by
    rw [hreport]
    cases outcome with
    | substituted =>
      have := hmore rfl
      simp only [Report.record]
      omega
    | _ =>
      rw [hsame (by simp)]
      exact ⟨hroom, hroom'⟩
  refine ⟨?_, ?_, ?_, ?_, ?_, ?_, ?_, hbounds.1, hbounds.2⟩
  · intro x hx
    rcases List.mem_append.mp hx with hx | hx
    · exact h.visited_lt x hx
    · rw [List.mem_singleton.mp hx]
      exact hlt
  · intro x hx
    by_cases he : x = id
    · subst x
      rw [hitself, hopc]
      split
      next => exact Or.inr ⟨by simp, rfl⟩
      next => exact Or.inl rfl
    · rw [hother x (by omega) he]
      exact (h.old x hx).imp_right fun hm => ⟨by simp [hm.1], hm.2⟩
  · intro x op' hop' hcontrolled hswap
    have hx : x < c.slots.size := lt_of_mem_ids (mem_ids_iff_op?.mpr (by rw [hop']; rfl))
    by_cases he : x = id
    · subst x
      obtain rfl := Option.some.inj (hopc.symm.trans hop')
      rw [hitself, if_neg]
      intro hne
      rcases hgate hne with ⟨g, pol, hg⟩ | hg
      · exact hcontrolled g pol hg
      · exact hswap hg
    · rw [hother x (Nat.lt_of_lt_of_le hx hgrown) he]
      exact h.plain x op' hop' hcontrolled hswap
  · intro x hle hlt'
    by_cases hx : x < p.circuit.slots.size
    · have hne : x ≠ id := fun e => absurd hlt (Nat.not_lt.mpr (e ▸ hle))
      rw [hother x hx hne]
      exact h.new x hle hx
    · exact hedited.new x (by omega) hlt'
  · rw [hreport, List.length_append, ← h.visited_eq]
    cases outcome <;> rfl
  · rw [hreport]
    cases outcome <;> simp only [Report.record] <;> omega
  · rw [hcount, hreport]
    cases outcome <;> rfl

theorem Accounts.walk (h : p.Accounts c visited) (hn : (visited ++ ids).Nodup)
    (hlt : ∀ x ∈ ids, x < c.slots.size) (hw : p.walk o ids = (q, none)) :
    q.Accounts c (visited ++ ids) := by
  induction ids generalizing p visited with
  | nil =>
    cases hw
    simpa using h
  | cons id ids ih =>
    rw [Progress.walk] at hw
    split at hw
    next outcome next hv =>
      have hid : id ∉ visited := by
        intro hm
        exact (List.nodup_cons.mp (List.nodup_middle.mp hn)).1 (by simp [hm])
      have hnext := h.visit hid (hlt id (by simp)) hv
      have hq := ih hnext (by simpa using hn) (fun x hx => hlt x (by simp [hx])) hw
      simpa using hq
    next => cases hw

end Progress

section Run

variable {c : Circuit} {p : Progress} {L : List NodeId}

theorem Progress.Accounts.survivors_length (h : p.Accounts c L)
    (hL : L.Perm c.ids) :
    (c.ids.filter fun id => (p.circuit.op? id).isSome).length = p.report.kept := by
  rw [h.kept_eq, hL.countP_eq, List.countP_eq_length_filter]

theorem Progress.Accounts.added_length (h : p.Accounts c L) :
    (p.circuit.ids.filter fun id => c.slots.size ≤ id).length =
      p.circuit.slots.size - c.slots.size := by
  have hperm : (p.circuit.ids.filter fun id => c.slots.size ≤ id).Perm
      (List.range' c.slots.size (p.circuit.slots.size - c.slots.size)) := by
    rw [List.perm_ext_iff_of_nodup (p.circuit.ids_nodup.filter _) List.nodup_range']
    intro x
    rw [List.mem_filter, decide_eq_true_eq, List.mem_range'_1]
    constructor
    · rintro ⟨hx, hle⟩
      have hlt := lt_of_mem_ids hx
      omega
    · rintro ⟨hle, hlt⟩
      exact ⟨mem_ids_iff_op?.mpr (h.new x hle (by omega)), hle⟩
  rw [hperm.length_eq, List.length_range']

theorem Progress.Accounts.ids_length (h : p.Accounts c L) :
    p.circuit.ids.length = (c.ids.filter fun id => (p.circuit.op? id).isSome).length +
      (p.circuit.ids.filter fun id => c.slots.size ≤ id).length := by
  have hold : (p.circuit.ids.filter fun id => !decide (c.slots.size ≤ id)).Perm
      (c.ids.filter fun id => (p.circuit.op? id).isSome) := by
    rw [List.perm_ext_iff_of_nodup (p.circuit.ids_nodup.filter _) (c.ids_nodup.filter _)]
    intro x
    rw [List.mem_filter, List.mem_filter, mem_ids_iff_op?, mem_ids_iff_op?]
    constructor
    · rintro ⟨hlive, hx⟩
      have hlt : x < c.slots.size := by simpa using hx
      rcases h.old x hlt with he | ⟨_, hnone⟩
      · exact ⟨he ▸ hlive, hlive⟩
      · rw [hnone] at hlive
        cases hlive
    · rintro ⟨hc, hlive⟩
      have hlt := lt_of_mem_ids (mem_ids_iff_op?.mpr hc)
      exact ⟨hlive, by simpa using hlt⟩
  rw [List.length_eq_length_filter_add fun id => decide (c.slots.size ≤ id), hold.length_eq,
    Nat.add_comm]

/-- The counts of a successful run are those of the nodes. All old nodes are visited, those that are
kept stay as they are, and these are at least the nodes that are neither controlled nor swaps. All
other nodes are new, one to four for each substitution. -/
theorem Circuit.Reachable.run_accounts {width : Nat} (h : c.Reachable width) (pass : Pass)
    {report : Report} (hok : (pass.run c).2.2 = .ok report) :
    let d := (pass.run c).2.1
    let survivors := c.ids.filter fun id => (d.op? id).isSome
    let added := d.ids.filter fun id => c.slots.size ≤ id
    report.visited = c.size ∧ c.size = c.ids.length ∧
      report.visited = report.kept + report.removed + report.substituted ∧
      survivors.length = report.kept ∧ (∀ id ∈ survivors, d.op? id = c.op? id) ∧
      (∀ id op, c.op? id = some op → (∀ g pol, op.gate ≠ .controlled g pol) →
        op.gate ≠ .base .swap → id ∈ survivors) ∧
      (∀ id ∈ d.ids, id ∉ survivors → c.slots.size ≤ id) ∧
      report.substituted ≤ added.length ∧ added.length ≤ 4 * report.substituted ∧
      d.size = d.ids.length ∧ d.size = report.kept + added.length := by
  have hl := h.linked_of h.order_isTopological
  obtain ⟨last, new, es, hswept, hrun⟩ := Pass.run_swept hl hok
  rw [hrun] at hok ⊢
  obtain rfl : last.report = report := Except.ok.inj hok
  have haccounts : last.Accounts c ([] ++ c.order) :=
    (Progress.start_accounts c).walk hl.nodup (fun x hx => hl.lt_size hx) hswept.walk_eq
  rw [List.nil_append] at haccounts
  have hsize : c.size = c.ids.length := hl.size_eq.trans hl.perm_ids.length_eq
  have hsize' : last.circuit.size = last.circuit.ids.length :=
    hswept.result.1.size_eq.trans hswept.result.1.perm_ids.length_eq
  have hkept := haccounts.survivors_length hl.perm_ids
  have hadded := haccounts.added_length
  have hroom := haccounts.le_room
  have hroom' := haccounts.room_le
  intro d survivors added
  refine ⟨?_, hsize, haccounts.sum_eq, hkept, ?_, ?_, ?_, ?_, ?_, hsize', ?_⟩
  · rw [haccounts.visited_eq, hl.size_eq]
  · intro id hid
    obtain ⟨hc, hlive⟩ := List.mem_filter.mp hid
    rcases haccounts.old id (lt_of_mem_ids hc) with he | ⟨_, hnone⟩
    · exact he
    · rw [show d.op? id = none from hnone] at hlive
      cases hlive
  · intro id op hop hcontrolled hswap
    have hlive := haccounts.plain id op hop hcontrolled hswap
    apply List.mem_filter.mpr
    exact ⟨mem_ids_iff_op?.mpr (by rw [hop]; rfl), by rw [show d.op? id = some op from hlive]; rfl⟩
  · intro id hid hnot
    by_contra hlt
    have hlive : (d.op? id).isSome := mem_ids_iff_op?.mp hid
    rcases haccounts.old id (Nat.lt_of_not_le hlt) with he | ⟨_, hnone⟩
    · apply hnot
      apply List.mem_filter.mpr
      exact ⟨mem_ids_iff_op?.mpr (he ▸ hlive), hlive⟩
    · rw [show d.op? id = none from hnone] at hlive
      cases hlive
  · rw [show added.length = _ from hadded]
    omega
  · rw [show added.length = _ from hadded]
    omega
  · rw [show d.size = _ from hsize', haccounts.ids_length, hkept]

/-- A swap of two known states makes four new gates, a control that is always met makes one and
one that never is makes none. -/
theorem mixed_run_accounts :
    let c := [Request.append ⟨.base .x, [0]⟩, .append ⟨.base .h, [1]⟩, .append ⟨.base .t, [2]⟩,
      .remove 2, .append ⟨.base .swap, [0, 1]⟩, .append ⟨.cx, [1, 2]⟩,
      .append ⟨.cx, [3, 2]⟩].foldl Circuit.after (.empty 4)
    let d := ((Pass.new .all).run c).2.1
    c.Reachable 4 ∧ c.size = 5 ∧ c.slots.size = 6 ∧
      ((Pass.new .all).run c).2.2 = .ok ⟨5, 1, 2, 2⟩ ∧
      (c.ids.filter fun id => (d.op? id).isSome).length = 2 ∧
      (d.ids.filter fun id => c.slots.size ≤ id).length ≤ 8 ∧
      d.size = 2 + (d.ids.filter fun id => c.slots.size ≤ id).length ∧
      d.ids = [0, 1, 6, 7, 8, 9, 10] := by
  intro c d
  have hc : c.Reachable 4 := ⟨_, rfl⟩
  have hok : ((Pass.new .all).run c).2.2 = .ok ⟨5, 1, 2, 2⟩ := by decide +kernel
  obtain ⟨hvisited, _, _, hkept, _, _, _, _, hadded, _, hsize⟩ :=
    hc.run_accounts (Pass.new .all) hok
  exact ⟨hc, hvisited.symm, by decide +kernel, hok, hkept, hadded, hsize, by decide +kernel⟩

end Run

end BasisFlow
