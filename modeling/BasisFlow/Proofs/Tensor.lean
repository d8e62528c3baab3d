import BasisFlow.Proofs.Bookkeeping
import BasisFlow.Proofs.Inverse
import BasisFlow.Proofs.Simulation

namespace BasisFlow

section Bits

variable (ws : List Wire)

/-- Bit `j` of `l` is the value of the `j`-th wire in the basis state `x`. -/
structure Reads (x l : Nat) : Prop where
  lt : l < 2 ^ ws.length
  testBit_eq : ∀ (j : Nat) (h : j < ws.length), l.testBit j = x.testBit ws[j]

/-- The basis state `y` is `x` with the `j`-th wire set to bit `j` of `l`. -/
structure Writes (l x y : Nat) : Prop where
  testBit_on : ∀ (j : Nat) (h : j < ws.length), y.testBit ws[j] = l.testBit j
  testBit_off : ∀ w, w ∉ ws → y.testBit w = x.testBit w

theorem gather_reads (x : Nat) : Reads ws x (gather ws x) := by
  refine ⟨gather_lt ws x, ?_⟩
  intro j hj
  rw [testBit_gather, List.getElem?_eq_getElem hj]
  rfl

variable {ws}

theorem put_writes (hn : ws.Nodup) (l x : Nat) : Writes ws l x (put ws l x) := by
  refine ⟨?_, fun w hw => testBit_put_of_notMem hn hw l x⟩
  intro j hj
  rw [testBit_put hn, if_pos (List.getElem_mem hj), hn.idxOf_getElem j hj]

end Bits

/-- The vector of a basis state. -/
def ket (x : Nat) : Nat → ℂ :=
  Pi.single x 1

namespace Operator

variable {m m' : Operator ℂ} {ws : List Wire} {n : Nat}

/-- What a matrix on the wires `ws` makes of a basis state: its operands take every value, and the
other wires stay as they are. -/
noncomputable def column (m : Operator ℂ) (ws : List Wire) (x : Nat) : Nat → ℂ :=
  ∑ l ∈ Finset.range (2 ^ ws.length), m.entry l (gather ws x) • ket (put ws l x)

theorem column_apply (hn : ws.Nodup) (x y : Nat) :
    m.column ws x y =
      if put ws (gather ws y) x = y then m.entry (gather ws y) (gather ws x) else 0 := by
  rw [column, Finset.sum_apply, Finset.sum_eq_single (gather ws y)]
  · by_cases h : put ws (gather ws y) x = y
    · simp [ket, h]
    · simp [ket, Ne.symm h, h]
  · intro l hl hne
    have hput : y ≠ put ws l x := by
      rintro rfl
      exact hne (gather_put hn (Finset.mem_range.mp hl) x).symm
    simp [ket, hput]
  · intro hnot
    exact absurd (Finset.mem_range.mpr (gather_lt ws y)) hnot

theorem put_gather_eq_iff (hn : ws.Nodup) {x y : Nat} :
    put ws (gather ws y) x = y ↔ put ws (gather ws x) y = x := by
  have hback : ∀ {x y : Nat}, put ws (gather ws y) x = y → put ws (gather ws x) y = x := by
    intro x y h
    rw [← h, put_put hn, put_gather hn]
  exact ⟨hback, hback⟩

/-- The action of a matrix, summed up from what it makes of every basis state. -/
theorem on_eq_sum_column (hn : ws.Nodup) (hlt : ∀ w ∈ ws, w < n) (ψ : Nat → ℂ) {y : Nat}
    (hy : y < 2 ^ n) :
    m.on ws ψ y = ∑ x ∈ Finset.range (2 ^ n), ψ x * m.column ws x y := by
  have hterm : ∀ x, ψ x * m.column ws x y = if put ws (gather ws x) y = x then
      m.entry (gather ws y) (gather ws x) * ψ (put ws (gather ws x) y) else 0 := by
    intro x
    rw [column_apply hn]
    simp only [put_gather_eq_iff hn (x := x)]
    split
    next h => rw [h, mul_comm]
    next => rw [mul_zero]
  rw [on]
  simp only [hterm, ← Finset.sum_filter]
  symm
  apply Finset.sum_nbij' (gather ws) (fun l => put ws l y)
  · intro x _
    exact Finset.mem_range.mpr (gather_lt ws x)
  · intro l hl
    have hl' := Finset.mem_range.mp hl
    rw [Finset.mem_filter, Finset.mem_range, put_lt_iff hn hlt, gather_put hn hl']
    exact ⟨hy, rfl⟩
  · intro x hx
    exact (Finset.mem_filter.mp hx).2
  · intro l hl
    exact gather_put hn (Finset.mem_range.mp hl) y
  · intro x _
    rfl

theorem on_on (hn : ws.Nodup) (hdim : m'.dim = 2 ^ ws.length) (ψ : Nat → ℂ) :
    m'.on ws (m.on ws ψ) = (m'.times m).on ws ψ := by
  funext k
  calc m'.on ws (m.on ws ψ) k
      = ∑ l ∈ Finset.range (2 ^ ws.length), ∑ j ∈ Finset.range (2 ^ ws.length),
          m'.entry (gather ws k) l * (m.entry l j * ψ (put ws j k)) := by
        apply Finset.sum_congr rfl
        intro l hl
        rw [on, Finset.mul_sum]
        apply Finset.sum_congr rfl
        intro j _
        rw [gather_put hn (Finset.mem_range.mp hl), put_put hn]
    _ = ∑ j ∈ Finset.range (2 ^ ws.length), (m'.times m).entry (gather ws k) j *
          ψ (put ws j k) := by
        rw [Finset.sum_comm]
        apply Finset.sum_congr rfl
        intro j _
        rw [times, hdim, Finset.sum_mul]
        apply Finset.sum_congr rfl
        intro l _
        ring
    _ = (m'.times m).on ws ψ k := rfl

/-- The entry of a matrix, if it has the row and the column. -/
def entry? (m : Operator ℂ) (row col : Nat) : Option ℂ :=
  if row < m.dim ∧ col < m.dim then some (m.entry row col) else none

theorem entry?_eq {row col : Nat} (hrow : row < m.dim) (hcol : col < m.dim) :
    m.entry? row col = some (m.entry row col) :=
  if_pos ⟨hrow, hcol⟩

end Operator

theorem Gate.dim_eq {K : Type} [Zero K] [One K] [Neg K] [Mul K] [Amplitude K] {g : Gate}
    {m : Operator K} (h : g.operator = .ok (some m)) : m.dim = 2 ^ g.arity := by
  have hbase : ∀ {g : BaseGate} {m : Operator K}, g.operator = .ok (some m) →
      m.operands = g.arity := by
    intro g m h
    cases g with
    | u θ φ lam =>
      obtain ⟨_, _, h⟩ := except_bind_eq_ok.mp h
      cases h
      rfl
    | blackBox name n => cases h
    | _ => cases h; rfl
  rw [Operator.dim, Nat.one_shiftLeft]
  congr 1
  cases g with
  | base g => exact hbase h
  | halfSwap => cases h; rfl
  | reset => cases h
  | controlled g p =>
    obtain ⟨matrix, hmatrix, h⟩ := except_bind_eq_ok.mp h
    cases matrix with
    | none => cases h
    | some m =>
      cases h
      exact congrArg (p.length + ·) (hbase hmatrix)

namespace Register

section Act

variable {r : Register ℂ} (hr : r.Full) {ws : List Wire} (hn : ws.Nodup)
  (hlt : ∀ w ∈ ws, w < r.qubits)

include hr hn hlt

theorem amplitude_act_eq_sum (m : Operator ℂ) :
    (r.act m ws).amplitude =
      ∑ x ∈ Finset.range (2 ^ r.qubits), r.amplitude x • m.column ws x := by
  funext y
  rw [Finset.sum_apply]
  by_cases hy : y < 2 ^ r.qubits
  · rw [amplitude_act hr hn hlt]
    exact Operator.on_eq_sum_column hn hlt r.amplitude hy
  · rw [amplitude_of_le (act_full hr m ws) (Nat.le_of_not_lt hy)]
    symm
    apply Finset.sum_eq_zero
    intro x hx
    have hput : put ws (gather ws y) x ≠ y := by
      intro h
      have := (put_lt_iff hn hlt (gather ws y) x).mpr (Finset.mem_range.mp hx)
      omega
    rw [Pi.smul_apply, Operator.column_apply hn, if_neg hput, smul_zero]

theorem act_act {m m' : Operator ℂ} (hdim : m'.dim = 2 ^ ws.length) :
    (r.act m ws).act m' ws = r.act (m'.times m) ws := by
  have hfull := act_full hr m ws
  apply ext_amplitude (act_full hfull m' ws) (act_full hr _ ws) rfl
  rw [amplitude_act hfull hn hlt, amplitude_act hr hn hlt, amplitude_act hr hn hlt,
    Operator.on_on hn hdim]

theorem act_comm {vs : List Wire} (hv : vs.Nodup) (hvlt : ∀ w ∈ vs, w < r.qubits)
    (hd : ws.Disjoint vs) (m m' : Operator ℂ) :
    (r.act m ws).act m' vs = (r.act m' vs).act m ws := by
  have hfirst := act_full hr m ws
  have hsecond := act_full hr m' vs
  apply ext_amplitude (act_full hfirst m' vs) (act_full hsecond m ws) rfl
  rw [amplitude_act hfirst hv hvlt, amplitude_act hr hn hlt, amplitude_act hsecond hn hlt,
    amplitude_act hr hv hvlt, Operator.on_comm hn hv hd]

end Act

theorem amplitude_act_basis {n x : Nat} (hx : x < 2 ^ n) {ws : List Wire} (hn : ws.Nodup)
    (hlt : ∀ w ∈ ws, w < n) (m : Operator ℂ) :
    ((basis n x).act m ws).amplitude = m.column ws x := by
  rw [amplitude_act_eq_sum (basis_full n x) hn hlt, Finset.sum_eq_single x]
  · rw [amplitude_basis hx, if_pos rfl, one_smul]
  · intro y _ hne
    rw [amplitude_basis hx, if_neg hne, zero_smul]
  · intro hnot
    exact absurd (Finset.mem_range.mpr hx) hnot

section Checked

/-- The same as `rowProduct`, but nothing at all where a row, a column or an index is out of
range. -/
noncomputable def rowProduct? (r : Register ℂ) (m : Operator ℂ) (columns : List (Nat × Nat))
    (row rest : Nat) : Option ℂ :=
  columns.foldlM (fun total (col, bits) => do
    let e ← m.entry? row col
    let a ← r.amplitudes[rest ||| bits]?
    return total + e * a) 0

@[inherit_doc rowProduct?]
noncomputable def act? (r : Register ℂ) (m : Operator ℂ) (ws : List Wire) :
    Option (Register ℂ) := do
  let columns := (List.range (1 <<< ws.length)).map fun col => (col, scatter ws col)
  let amplitudes ← (List.range r.amplitudes.size).mapM fun k =>
    r.rowProduct? m columns (gather ws k) (clearBits (wireMask ws) k)
  return { r with amplitudes := amplitudes.toArray }

theorem rowProduct?_eq {r : Register ℂ} {m : Operator ℂ} {columns : List (Nat × Nat)}
    {row rest : Nat} (hrow : row < m.dim)
    (h : ∀ c ∈ columns, c.1 < m.dim ∧ rest ||| c.2 < r.amplitudes.size) :
    r.rowProduct? m columns row rest = some (r.rowProduct m columns row rest) := by
  unfold rowProduct? rowProduct
  generalize (0 : ℂ) = total
  induction columns generalizing total with
  | nil => rfl
  | cons c columns ih =>
    obtain ⟨hcol, hindex⟩ := h c (by simp)
    have hread : r.amplitudes[rest ||| c.2]? = some (r.amplitude (rest ||| c.2)) := by
      simp [amplitude, hindex]
    rw [List.foldlM_cons, List.foldl_cons]
    simp only [Operator.entry?_eq hrow hcol, hread]
    exact ih (fun d hd => h d (by simp [hd])) _

theorem act?_eq {r : Register ℂ} (hr : r.Full) {m : Operator ℂ} {ws : List Wire} (hn : ws.Nodup)
    (hlt : ∀ w ∈ ws, w < r.qubits) (hdim : m.dim = 2 ^ ws.length) :
    r.act? m ws = some (r.act m ws) := by
  have hrows : ∀ k ∈ List.range r.amplitudes.size, r.rowProduct? m
      ((List.range (1 <<< ws.length)).map fun col => (col, scatter ws col)) (gather ws k)
      (clearBits (wireMask ws) k) = some ((r.act m ws).amplitude k) := by
    intro k hk
    have hk' := List.mem_range.mp hk
    rw [rowProduct?_eq (hdim ▸ gather_lt ws k)]
    · simp [amplitude, act, hk']
    · intro c hc
      obtain ⟨col, hcol, rfl⟩ := List.mem_map.mp hc
      rw [List.mem_range, Nat.one_shiftLeft] at hcol
      refine ⟨hdim ▸ hcol, ?_⟩
      rw [hr] at hk' ⊢
      exact (put_lt_iff hn hlt col k).mpr hk'
  have hamplitudes : ((List.range r.amplitudes.size).map (r.act m ws).amplitude).toArray =
      (r.act m ws).amplitudes := by
    apply Array.ext
    · simp [act]
    · intro k _ hk
      simp [amplitude, hk]
  simp only [act?, Circuit.mapM_eq_some hrows]
  exact congrArg (fun amplitudes => some (⟨r.qubits, amplitudes⟩ : Register ℂ)) hamplitudes

end Checked

/-- A gate on different wires of a register is its matrix on these wires and the identity on the
others. Every entry and every amplitude that is looked up exists, gates on the same wires multiply,
and gates on separate wires commute. -/
theorem apply_is_tensor {n : Nat} {op : Operation} (hfits : op.Fits n) {m : Operator ℂ}
    (hm : op.gate.allocateOperator = .ok (some m)) :
    (∀ x, Reads op.wires x (gather op.wires x)) ∧
    (∀ l x, Writes op.wires l x (put op.wires l x)) ∧
    (∀ x < 2 ^ n, ∃ s, (basis n x).apply op = .ok s ∧
      s.amplitude = ∑ l ∈ Finset.range (2 ^ op.wires.length),
        m.entry l (gather op.wires x) • ket (put op.wires l x)) ∧
    ∀ r : Register ℂ, r.Full → r.qubits = n → ∃ s, r.apply op = .ok s ∧ s.Full ∧ s.qubits = n ∧
      s.amplitude = ∑ x ∈ Finset.range (2 ^ n), r.amplitude x • m.column op.wires x ∧
      r.act? m op.wires = some s ∧
      (∀ (g : Gate) (m' : Operator ℂ), g.arity = op.gate.arity →
        g.allocateOperator = .ok (some m') →
        s.apply ⟨g, op.wires⟩ = .ok (r.act (m'.times m) op.wires)) ∧
      ∀ (op' : Operation) (m' : Operator ℂ), op'.Fits n → op.wires.Disjoint op'.wires →
        op'.gate.allocateOperator = .ok (some m') →
        ∃ s' t, r.apply op' = .ok s' ∧ s.apply op' = .ok t ∧ s'.apply op = .ok t := by
  have hn := hfits.nodup
  have hdim : ∀ {g : Gate} {m : Operator ℂ}, g.arity = op.gate.arity →
      g.allocateOperator = .ok (some m) → m.dim = 2 ^ op.wires.length := by
    intro g m harity hm
    rw [Gate.dim_eq (Gate.of_allocateOperator hm).1, harity, hfits.arity_eq]
  refine ⟨gather_reads op.wires, put_writes hn, ?_, ?_⟩
  · intro x hx
    exact ⟨_, apply_eq_act_of_allocated (basis_full n x) hfits hm,
      amplitude_act_basis hx hn hfits.lt_width m⟩
  · rintro r hr rfl
    have hs := act_full hr m op.wires
    refine ⟨_, apply_eq_act_of_allocated hr hfits hm, hs, rfl,
      amplitude_act_eq_sum hr hn hfits.lt_width m, act?_eq hr hn hfits.lt_width (hdim rfl hm),
      ?_, ?_⟩
    · intro g m' harity hm'
      have hfits' : Operation.Fits ⟨g, op.wires⟩ r.qubits :=
        ⟨hfits.arity_eq.trans harity.symm, hn, hfits.lt_width⟩
      rw [apply_eq_act_of_allocated hs hfits' hm',
        act_act hr hn hfits.lt_width (hdim harity hm')]
    · intro op' m' hfits' hd hm'
      have hs' := act_full hr m' op'.wires
      refine ⟨_, _, apply_eq_act_of_allocated hr hfits' hm',
        apply_eq_act_of_allocated hs hfits' hm', ?_⟩
      rw [apply_eq_act_of_allocated hs' hfits hm,
        act_comm hr hn hfits.lt_width hfits'.nodup hfits'.lt_width hd]

theorem crossed_control_apply_is_tensor :
    ∃ s, (basis 3 4).apply ⟨.cx, [2, 0]⟩ = .ok s ∧ s.amplitude = ket 5 := by
  have hfits : Operation.Fits ⟨.cx, [2, 0]⟩ 3 := by
    refine ⟨?_, ?_, ?_⟩ <;> decide
  have hm : Gate.cx.allocateOperator =
      .ok (some ((Operator.ofRows 1 [[0, 1], [1, 0]] : Operator ℂ).controlled (.closed 1))) := rfl
  obtain ⟨s, hs, hsum⟩ := (apply_is_tensor hfits hm).2.2.1 4 (by decide)
  refine ⟨s, hs, ?_⟩
  have hgather : gather [2, 0] 4 = 1 := by decide
  have hput : put [2, 0] 3 4 = 5 := by decide
  have hlength : (Polarity.closed 1).length = 1 := by decide
  have hvalue : (Polarity.closed 1).toNat = 1 := by decide
  -- the first operand is set and the second one is not: of this column only row 3 counts
  rw [hsum, hgather]
  simp [Finset.sum_range_succ, Operator.controlled, Operator.ofRows, hput, hlength, hvalue]

end Register

end BasisFlow
