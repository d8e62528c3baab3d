import BasisFlow.Proofs.Tensor

namespace BasisFlow

section Sums

variable {ws : List Wire} {n : Nat}

/-- No bits on some wires add up to more than all of them. -/
theorem scatter_le_sum (ws : List Wire) (l : Nat) : scatter ws l ≤ (ws.map (2 ^ ·)).sum := by
  induction ws generalizing l with
  | nil => exact Nat.le_refl 0
  | cons w ws ih =>
    have hbit : (l % 2) <<< w ≤ 2 ^ w := by
      rcases Nat.mod_two_eq_zero_or_one l with hl | hl <;> simp [hl, Nat.one_shiftLeft]
    have hrest := ih (l / 2)
    rw [scatter, List.map_cons, List.sum_cons]
    omega

theorem scatter_all (ws : List Wire) :
    scatter ws (2 ^ ws.length - 1) = (ws.map (2 ^ ·)).sum := by
  induction ws with
  | nil => rfl
  | cons w ws ih =>
    have hpos := Nat.two_pow_pos ws.length
    have hdouble : 2 ^ (w :: ws).length = 2 * 2 ^ ws.length := Nat.pow_succ'
    have hodd : (2 ^ (w :: ws).length - 1) % 2 = 1 := by omega
    have hhalf : (2 ^ (w :: ws).length - 1) / 2 = 2 ^ ws.length - 1 := by omega
    rw [scatter, hodd, hhalf, ih, Nat.one_shiftLeft, List.map_cons, List.sum_cons]

theorem forall_scatter_lt_iff :
    (∀ l < 2 ^ ws.length, scatter ws l < n) ↔ (ws.map (2 ^ ·)).sum < n := by
  constructor
  · intro h
    rw [← scatter_all]
    exact h _ (Nat.sub_one_lt (Nat.two_pow_pos ws.length).ne')
  · intro h l _
    exact Nat.lt_of_le_of_lt (scatter_le_sum ws l) h

/-- Different wires never add up to an index outside the register. -/
theorem sum_lt_of_nodup (h : ws.Nodup) (hlt : ∀ w ∈ ws, w < n) : (ws.map (2 ^ ·)).sum < 2 ^ n :=
  forall_scatter_lt_iff.mp fun l _ => scatter_lt h hlt l

theorem put_lt_of_scatter_lt {l k : Nat} (hl : scatter ws l < 2 ^ n) (hk : k < 2 ^ n) :
    put ws l k < 2 ^ n := by
  apply Nat.or_lt_two_pow _ hl
  apply lt_two_pow_iff.mpr
  intro j hj
  rw [testBit_clearBits, lt_two_pow_iff.mp hk j hj, Bool.false_and]

end Sums

namespace Register

variable {K : Type}

/-- Every entry and every amplitude that a matrix looks up on some wires exists. -/
def Covers (r : Register K) (m : Operator K) (ws : List Wire) : Prop :=
  ∀ k < r.amplitudes.size, ∀ l < 2 ^ ws.length,
    gather ws k < m.dim ∧ l < m.dim ∧ put ws l k < r.amplitudes.size

/-- The first row already looks up every sum of bits on its own. -/
theorem covers_iff {r : Register K} (hsize : r.amplitudes.size = 2 ^ r.qubits) {m : Operator K}
    {ws : List Wire} (hdim : m.dim = 2 ^ ws.length) :
    r.Covers m ws ↔ (ws.map (2 ^ ·)).sum < 2 ^ r.qubits := by
  rw [← forall_scatter_lt_iff, Covers, hsize, hdim]
  constructor
  · intro h l hl
    rw [← put_zero]
    exact (h 0 (Nat.two_pow_pos _) l hl).2.2
  · intro h k hk l hl
    exact ⟨gather_lt ws k, hl, put_lt_of_scatter_lt (h l hl) hk⟩

variable [Zero K] [One K] [Add K] [Neg K] [Mul K] [Amplitude K] {r : Register K} {g : Gate}
  {m : Operator K} {ws : List Wire}

section Inside

variable (hsize : r.amplitudes.size = 2 ^ r.qubits) (hm : g.allocateOperator = .ok (some m))
  (harity : ws.length = g.arity) (hlt : ∀ w ∈ ws, w < r.qubits)

include hsize hm harity hlt

theorem apply_of_sum_lt (hsum : (ws.map (2 ^ ·)).sum < 2 ^ r.qubits) :
    r.apply ⟨g, ws⟩ = .ok (r.act m ws) := by
  have hnone : ((List.range (2 ^ ws.length)).find? fun l => 2 ^ r.qubits ≤ scatter ws l) =
      none := by
    apply List.find?_eq_none.mpr
    intro l hl
    simpa using forall_scatter_lt_iff.mpr hsum l (List.mem_range.mp hl)
  rw [apply_of_inside hm harity hlt, hsize, hnone]

theorem apply_of_le_sum (hsum : 2 ^ r.qubits ≤ (ws.map (2 ^ ·)).sum) :
    ∃ l < 2 ^ ws.length,
      r.apply ⟨g, ws⟩ = .error (.indexOutOfRange (scatter ws l) (2 ^ r.qubits)) ∧
      2 ^ r.qubits ≤ scatter ws l ∧ ∀ j < l, scatter ws j < 2 ^ r.qubits := by
  have happly := apply_of_inside hm harity hlt
  rw [hsize] at happly
  cases hfind : (List.range (2 ^ ws.length)).find? fun l => 2 ^ r.qubits ≤ scatter ws l with
  | none =>
    have hall : ∀ l < 2 ^ ws.length, scatter ws l < 2 ^ r.qubits := by
      intro l hl
      simpa using List.find?_eq_none.mp hfind l (List.mem_range.mpr hl)
    exact absurd (forall_scatter_lt_iff.mp hall) (Nat.not_lt.mpr hsum)
  | some l =>
    obtain ⟨hl, hmem, hfirst⟩ := List.find?_range_eq_some.mp hfind
    refine ⟨l, List.mem_range.mp hmem, ?_, by simpa using hl, ?_⟩
    · rw [happly, hfind]
    · intro j hj
      simpa using hfirst j hj

end Inside

/-- What becomes of a gate that has a matrix, on any list of wires. The wrong number of wires and a
wire outside the register are refused. Repeated wires are not: whether the gate acts is decided by
the sum of the bits at all wires. If that is an index of the register, as it always is for different
wires, then the matrix acts and finds all that it looks up. Otherwise the first sum of bits outside
the register is looked up. -/
theorem apply_decided_by_sum (hsize : r.amplitudes.size = 2 ^ r.qubits)
    (hm : g.allocateOperator = .ok (some m)) (ws : List Wire) :
    (ws.length ≠ g.arity →
      r.apply ⟨g, ws⟩ = .error (.operandCount g.name g.arity ws.length)) ∧
    (ws.length = g.arity → ∀ w, ws.find? (r.qubits ≤ ·) = some w →
      r.apply ⟨g, ws⟩ = .error (.wireOutOfRange w r.qubits)) ∧
    (ws.length = g.arity → (∀ w ∈ ws, w < r.qubits) →
      (ws.Nodup → (ws.map (2 ^ ·)).sum < 2 ^ r.qubits) ∧
      ((ws.map (2 ^ ·)).sum < 2 ^ r.qubits →
        r.apply ⟨g, ws⟩ = .ok (r.act m ws) ∧ r.Covers m ws) ∧
      (2 ^ r.qubits ≤ (ws.map (2 ^ ·)).sum → ¬ r.Covers m ws ∧ ∃ l < 2 ^ ws.length,
        r.apply ⟨g, ws⟩ = .error (.indexOutOfRange (scatter ws l) (2 ^ r.qubits)) ∧
        2 ^ r.qubits ≤ scatter ws l ∧ ∀ j < l, scatter ws j < 2 ^ r.qubits)) := by
  have hcounted := Gate.counted_of_allocateOperator hm
  refine ⟨?_, ?_, ?_⟩
  · intro hne
    simp only [apply, hcounted, Except.mapError, bind, Except.bind, if_pos hne.symm]
  · intro harity w hw
    simp only [apply, hcounted, Except.mapError, bind, Except.bind, harity, ne_eq,
      not_true_eq_false, ↓reduceIte, hw]
  · intro harity hlt
    have hdim : m.dim = 2 ^ ws.length := by
      rw [Gate.dim_eq (Gate.of_allocateOperator hm).1, harity]
    have hcovers := covers_iff hsize hdim
    refine ⟨fun hn => sum_lt_of_nodup hn hlt, ?_, ?_⟩
    · intro hsum
      exact ⟨apply_of_sum_lt hsize hm harity hlt hsum, hcovers.mpr hsum⟩
    · intro hsum
      exact ⟨mt hcovers.mp (Nat.not_lt.mpr hsum), apply_of_le_sum hsize hm harity hlt hsum⟩

/-- On two wires, a swap of wire 1 with itself looks up an amplitude that the register does not
have. Wire 0 that controls itself is let through, and leaves no unit vector. -/
theorem doubled_wire_apply_decided_by_sum :
    let r : Register ℂ := ground 2
    r.apply ⟨.base .swap, [1, 1]⟩ = .error (.indexOutOfRange 4 4) ∧
      ∃ s, r.apply ⟨.cx, [0, 0]⟩ = .ok s ∧ s.amplitude 0 = 1 ∧ s.amplitude 2 = 1 := by
  intro r
  have hfull : r.Full := ground_full 2
  constructor
  · obtain ⟨_, _, hrefused⟩ :=
      (apply_decided_by_sum (g := .base .swap) hfull rfl [1, 1]).2.2 rfl (by decide)
    obtain ⟨_, l, hl, happly, hle, _⟩ := hrefused (by decide)
    have htable : ∀ l < 4, 4 ≤ scatter [1, 1] l → scatter [1, 1] l = 4 := by decide
    rw [happly, htable l hl hle]
    rfl
  · let m := (Operator.ofRows 1 [[0, 1], [1, 0]] : Operator ℂ).controlled (.closed 1)
    obtain ⟨_, haccepted, _⟩ :=
      (apply_decided_by_sum (g := .cx) (m := m) hfull rfl [0, 0]).2.2 rfl (by decide)
    have hlength : (Polarity.closed 1).length = 1 := by decide
    have hvalue : (Polarity.closed 1).toNat = 1 := by decide
    have hput : ∀ k < 4, k = 0 ∨ k = 2 → gather [0, 0] k = 0 ∧ put [0, 0] 0 k = 0 ∧
        put [0, 0] 1 k = 1 ∧ put [0, 0] 2 k = 1 ∧ put [0, 0] 3 k = 2 := by decide
    have hone : ∀ k < 4, k = 0 ∨ k = 2 → (r.act m [0, 0]).amplitude k = 1 := by
      intro k hk hrow
      rw [amplitude_act_of_lt hfull _ _ hk, Operator.on]
      simp [Finset.sum_range_succ, hput k hk hrow, r, m, amplitude_ground, Operator.controlled,
        hlength, hvalue]
    exact ⟨_, (haccepted (by decide)).1, hone 0 (by decide) (.inl rfl),
      hone 2 (by decide) (.inr rfl)⟩

end Register

end BasisFlow
