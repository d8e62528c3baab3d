import BasisFlow.Proofs.Accounting
import BasisFlow.Proofs.Failure

namespace BasisFlow

/-- How many operations have at least `k` operands. -/
def wideCount (k : Nat) (ops : List Operation) : Nat :=
  ops.countP fun op => k ≤ op.wires.length

/-- How many nodes of a circuit have at least `k` operands. -/
def Circuit.countWide (c : Circuit) (k : Nat) : Nat :=
  c.nodes.countP fun (_, n) => k ≤ n.wires.length

section Count

variable {k : Nat} {op : Operation} {ops : List Operation}

theorem wideCount_append (k : Nat) (l m : List Operation) :
    wideCount k (l ++ m) = wideCount k l + wideCount k m :=
  List.countP_append

theorem wideCount_le_length (k : Nat) (ops : List Operation) : wideCount k ops ≤ ops.length :=
  List.countP_le_length

/-- Operations on wires of another one are no more and no wider than it if at most one of them has
several operands. -/
theorem wideCount_le_of_narrow (hk : 2 ≤ k)
    (hnarrow : ∀ a ∈ ops, a.wires.length ≤ op.wires.length) (hone : wideCount 2 ops ≤ 1) :
    wideCount k ops ≤ wideCount k [op] := by
  by_cases hop : k ≤ op.wires.length
  · have hself : wideCount k [op] = 1 := by simp [wideCount, hop]
    have hle : wideCount k ops ≤ wideCount 2 ops := by
      apply List.countP_mono_left
      intro a _ ha
      simp only [decide_eq_true_eq] at ha ⊢
      omega
    omega
  · have hnone : wideCount k ops = 0 := by
      apply List.countP_eq_zero.mpr
      intro a ha
      have := hnarrow a ha
      simp only [decide_eq_true_eq]
      omega
    omega

end Count

theorem Circuit.Linked.countWide_eq {c : Circuit} {L : List NodeId} (h : c.Linked L) (k : Nat) :
    c.countWide k = wideCount k (c.opsAlong L) := by
  rw [countWide, nodes, wideCount, opsAlong, List.countP_filterMap, List.countP_filterMap,
    h.perm_ids.countP_eq]
  apply List.countP_congr
  intro id _
  cases hn : c.node? id <;> simp [op?, hn, Node.op]

section Decisions

variable {node : NodeId} {t : Tracking} {d : Decision} {wires : List Wire}

theorem Controls.reduce_result_length {g : BaseGate} {p : Polarity} {op : Operation}
    (h : reduce node g p wires t = .ok d) : (d.reduction.result op).length ≤ 1 := by
  cases hr : d.reduction with
  | keep => exact Nat.le_refl 1
  | remove => exact Nat.zero_le 1
  | substitute f ws =>
    have hadded := reduce_added h (by rw [hr]; rfl)
    rw [hr] at hadded
    rw [Reduction.result, List.length_map]
    exact Nat.le_of_eq hadded

theorem Swaps.lookup_wide {s r : BasisState} {steps : List Step} {o : Orientation}
    (h : lookup? s r = some (steps, o)) : wideCount 2 (steps.map (·.op o)) ≤ 1 := by
  cases s <;> cases r <;> cases h <;> decide

theorem wideCount_onto (k : Nat) (ws : List Wire) (ops : List Operation) :
    wideCount k (ops.map (·.onto ws)) = wideCount k ops := by
  simp [wideCount, List.countP_map, Function.comp_def, Operation.onto]

theorem Swaps.reduce_wide {op : Operation} (h : reduce node wires t = .ok d) :
    wideCount 2 (d.reduction.result op) ≤ 1 := by
  obtain ⟨_, _, _, _, _, _, _, ⟨_, _, hd⟩ | ⟨_, _, hd⟩ | ⟨_, steps, o, hl, hd⟩⟩ := reduce_cases h
  · rw [hd]
    exact wideCount_le_length 2 [op]
  · rw [hd]
    exact Nat.zero_le 1
  · rw [hd, Reduction.result, wideCount_onto]
    exact lookup_wide hl

end Decisions

namespace Options

variable {o : Options} {t u : Tracking} {op : Operation} {r : Reduction} {acts ops : List Operation}
  {e : Treatment} {es : List Treatment} {k : Nat}

theorem plan_wide (h : o.plan t op = some (r, acts)) : wideCount 2 (r.result op) ≤ 1 := by
  rcases plan_cases h with ⟨_, rfl, _⟩ | ⟨g, p, d, _, _, hd, rfl, _⟩ | ⟨d, _, _, hd, rfl, _⟩
  · exact wideCount_le_length 2 [op]
  · exact Nat.le_trans (wideCount_le_length 2 _) (Controls.reduce_result_length hd)
  · exact Swaps.reduce_wide hd

theorem treat_wide (hk : 2 ≤ k) (h : o.treat t op = some (e, u)) (hfits : op.Fits t.size) :
    wideCount k e.ops ≤ wideCount k [op] := by
  have hops := treat_ops h hfits
  obtain ⟨r, acts, hplan, rfl, _⟩ := treat_eq_some h
  apply wideCount_le_of_narrow hk _ (plan_wide hplan)
  intro a ha
  obtain ⟨hafits, hin⟩ := hops a ha
  exact hafits.nodup.length_le_of_subset hin

theorem sweep_wide (hk : 2 ≤ k) (h : o.sweep t ops = some (es, u))
    (hfits : ∀ op ∈ ops, op.Fits t.size) :
    wideCount k (es.flatMap (·.ops)) ≤ wideCount k ops := by
  induction ops generalizing t es with
  | nil =>
    cases h
    exact Nat.le_refl _
  | cons op ops ih =>
    obtain ⟨e, v, fs, htreat, hsweep, rfl⟩ := sweep_cons_eq_some.mp h
    have hsize := treat_size htreat
    have hfirst := treat_wide hk htreat (hfits op (by simp))
    have hrest := ih hsweep fun a ha => hsize ▸ hfits a (by simp [ha])
    rw [List.flatMap_cons, wideCount_append, ← List.singleton_append, wideCount_append]
    omega

end Options

open Progress Circuit

variable {c : Circuit}

theorem Pass.run_swept_upto (h : c.Linked c.order) (pass : Pass) :
    ∃ visited rest last new es, c.order = visited ++ rest ∧
      (start c).Swept pass.options last [] visited new rest es ∧
      (pass.run c).2.1 = last.circuit := by
  cases hw : (start c).walk pass.options c.order with
  | mk last err =>
    cases err with
    | none =>
      have horder : c.order = c.order ++ [] := (List.append_nil _).symm
      obtain ⟨new, es, hs⟩ := swept_of_walk (horder ▸ h) hw
      exact ⟨c.order, [], last, new, es, horder, hs, by simp only [run, hw]⟩
    | some e =>
      obtain ⟨visited, id, rest, horder, hwalk, _⟩ := walk_error hw
      obtain ⟨new, es, hs⟩ := swept_of_walk (horder ▸ h) hwalk
      exact ⟨visited, id :: rest, last, new, es, horder, hs, by simp only [run, hw]⟩

/-- However a run ends, the circuit has no more nodes with at least `k` operands than before, for
every `k` from two on. -/
theorem Circuit.Reachable.run_countWide_le {width : Nat} (h : c.Reachable width) (pass : Pass)
    {k : Nat} (hk : 2 ≤ k) : (pass.run c).2.1.countWide k ≤ c.countWide k := by
  have hl := h.linked_of h.order_isTopological
  obtain ⟨visited, rest, last, new, es, horder, hs, hrun⟩ := pass.run_swept_upto hl
  have hlast : last.circuit.Linked (new ++ rest) := hs.linked
  have hnew : last.circuit.opsAlong new = es.flatMap (·.ops) := opsAlong_eq_of_map hs.new_ops
  have hrest : last.circuit.opsAlong rest = c.opsAlong rest :=
    List.filterMap_congr fun x hx => hs.old_same x (by simp [hx])
  have hfits : ∀ op ∈ c.opsAlong visited, op.Fits (start c).states.size := by
    rw [start_size]
    exact hl.fits_of_mem_opsAlong
  have hswept := Options.sweep_wide hk hs.sweep_eq hfits
  calc (pass.run c).2.1.countWide k
      = wideCount k (last.circuit.opsAlong (new ++ rest)) := by rw [hrun, hlast.countWide_eq]
    _ = wideCount k (es.flatMap (·.ops)) + wideCount k (c.opsAlong rest) := by
        rw [opsAlong_append, wideCount_append, hnew, hrest]
    _ ≤ wideCount k (c.opsAlong visited) + wideCount k (c.opsAlong rest) :=
        Nat.add_le_add_right hswept _
    _ = c.countWide k := by
        rw [hl.countWide_eq, horder, opsAlong_append, wideCount_append]

/-- A swap of two known states becomes four gates on one wire each and one of a known with an
unknown state two gates, then the run fails: the circuit has grown by four nodes, with one fewer on
several wires. -/
theorem grown_run_countWide_le :
    let c := [Request.append ⟨.base .x, [3]⟩, .append ⟨.base .h, [4]⟩,
      .append ⟨.base .swap, [3, 4]⟩, .append ⟨.base .h, [0]⟩, .append ⟨.base .t, [0]⟩,
      .append ⟨.base .swap, [4, 0]⟩, .append ⟨.base .h, [1]⟩, .append ⟨.base .t, [1]⟩,
      .append ⟨.base .x, [2]⟩, .append ⟨.base .h, [2]⟩,
      .append ⟨.controlled .x ⟨[false, false]⟩, [4, 1, 2]⟩,
      .append ⟨.base .swap, [0, 2]⟩].foldl Circuit.after (.empty 5)
    let d := ((Pass.new .all).run c).2.1
    c.Reachable 5 ∧ ((Pass.new .all).run c).2.2 = .error (.openControlsOnMinus [4, 1]) ∧
      c.size = 12 ∧ d.size = 16 ∧ c.countWide 2 = 4 ∧ d.countWide 2 = 3 ∧
      d.countWide 2 ≤ c.countWide 2 ∧ d.countWide 3 ≤ c.countWide 3 := by
  intro c d
  have hc : c.Reachable 5 := ⟨_, rfl⟩
  have htwo := hc.run_countWide_le (Pass.new .all) (Nat.le_refl 2)
  have hthree := hc.run_countWide_le (Pass.new .all) (Nat.le_succ 2)
  exact ⟨hc, by decide +kernel, by decide +kernel, by decide +kernel, by decide +kernel,
    by decide +kernel, htwo, hthree⟩

end BasisFlow
