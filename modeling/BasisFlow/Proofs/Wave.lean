import BasisFlow.Proofs.Indices
import Mathlib.Algebra.BigOperators.Intervals
import Mathlib.Algebra.BigOperators.Ring.Finset

namespace BasisFlow

variable {K : Type} [CommRing K]

/-- The amplitudes after a matrix has acted on the wires `ws`. -/
def Operator.on (m : Operator K) (ws : List Wire) (ψ : Nat → K) (k : Nat) : K :=
  ∑ l ∈ Finset.range (2 ^ ws.length), m.entry (gather ws k) l * ψ (put ws l k)

/-- The controls have the values that they are required to have. -/
def Fires (controls : List (Wire × Bool)) (k : Nat) : Prop :=
  ∀ c ∈ controls, k.testBit c.1 = c.2

instance (controls : List (Wire × Bool)) (k : Nat) : Decidable (Fires controls k) :=
  inferInstanceAs (Decidable (∀ c ∈ controls, k.testBit c.1 = c.2))

theorem foldl_range_eq_sum (f : Nat → K) (n : Nat) :
    (List.range n).foldl (fun total k => total + f k) 0 = ∑ k ∈ Finset.range n, f k := by
  induction n with
  | zero => rfl
  | succ n ih => rw [List.range_succ, List.foldl_append, ih, Finset.sum_range_succ]; rfl

theorem sumBelow_eq_sum (n : Nat) (f : Nat → K) : sumBelow n f = ∑ k ∈ Finset.range n, f k :=
  foldl_range_eq_sum f n

namespace Register

/-- There is one amplitude for every basis state. -/
def Full (r : Register K) : Prop :=
  r.amplitudes.size = 2 ^ r.qubits

theorem amplitude_of_le {r : Register K} (h : r.Full) {k : Nat} (hk : 2 ^ r.qubits ≤ k) :
    r.amplitude k = 0 := by
  have hsize : r.amplitudes.size ≤ k := by rw [h]; exact hk
  simp [amplitude, hsize]

/-- The register in one basis state. -/
def basis (n x : Nat) : Register K :=
  ⟨n, Array.ofFn fun k : Fin (1 <<< n) => if k.val = x then 1 else 0⟩

theorem basis_full (n x : Nat) : (basis n x : Register K).Full := by
  simp [Full, basis, Nat.one_shiftLeft]

theorem amplitude_basis {n x : Nat} (hx : x < 2 ^ n) (k : Nat) :
    (basis n x : Register K).amplitude k = if k = x then 1 else 0 := by
  by_cases hk : k = x
  · simp [amplitude, basis, hk, Nat.one_shiftLeft, hx]
  · by_cases hlt : k < 2 ^ n <;> simp [amplitude, basis, hk, Nat.one_shiftLeft, hlt]

theorem ground_full (n : Nat) : (ground n : Register K).Full :=
  basis_full n 0

theorem amplitude_ground (n k : Nat) :
    (ground n : Register K).amplitude k = if k = 0 then 1 else 0 :=
  amplitude_basis (Nat.two_pow_pos n) k

theorem act_full {r : Register K} (h : r.Full) (m : Operator K) (ws : List Wire) :
    (r.act m ws).Full := by
  simpa [Full, act] using h

theorem rowProduct_eq_sum (r : Register K) (m : Operator K) (ws : List Wire) (row rest : Nat) :
    r.rowProduct m ((List.range (1 <<< ws.length)).map fun col => (col, scatter ws col)) row rest =
      ∑ l ∈ Finset.range (2 ^ ws.length), m.entry row l * r.amplitude (rest ||| scatter ws l) := by
  rw [rowProduct, List.foldl_map, foldl_range_eq_sum
    (fun l => m.entry row l * r.amplitude (rest ||| scatter ws l)), Nat.one_shiftLeft]

theorem amplitude_act_of_lt {r : Register K} (h : r.Full) (m : Operator K) (ws : List Wire)
    {k : Nat} (hk : k < 2 ^ r.qubits) :
    (r.act m ws).amplitude k = m.on ws r.amplitude k := by
  have hsize : k < r.amplitudes.size := by rw [h]; exact hk
  have hrow : (r.act m ws).amplitude k =
      r.rowProduct m ((List.range (1 <<< ws.length)).map fun col => (col, scatter ws col))
        (gather ws k) (clearBits (wireMask ws) k) := by
    simp [amplitude, act, hsize]
  rw [hrow, rowProduct_eq_sum]
  rfl

/-- The matrix acts on the amplitudes of a register, and those outside it stay zero. -/
theorem amplitude_act {r : Register K} (h : r.Full) {ws : List Wire} (hn : ws.Nodup)
    (hw : ∀ w ∈ ws, w < r.qubits) (m : Operator K) :
    (r.act m ws).amplitude = m.on ws r.amplitude := by
  funext k
  by_cases hk : k < 2 ^ r.qubits
  · exact amplitude_act_of_lt h m ws hk
  · have hle : 2 ^ r.qubits ≤ k := by omega
    have hzero : ∀ l, r.amplitude (put ws l k) = 0 := by
      intro l
      have hput := (put_lt_iff hn hw l k).not.mpr hk
      exact amplitude_of_le h (by omega)
    have hact : (r.act m ws).amplitude k = 0 := amplitude_of_le (act_full h m ws) hle
    rw [hact, Operator.on]
    simp [hzero]

end Register

namespace Operator

theorem on_smul (m : Operator K) (ws : List Wire) (σ : K) (ψ : Nat → K) :
    m.on ws (fun k => σ * ψ k) = fun k => σ * m.on ws ψ k := by
  funext k
  rw [on, on, Finset.mul_sum]
  apply Finset.sum_congr rfl
  intro l _
  ring

/-- Matrices on different wires may act in either order. -/
theorem on_comm {ws vs : List Wire} (hw : ws.Nodup) (hv : vs.Nodup) (hd : ws.Disjoint vs)
    (m m' : Operator K) (ψ : Nat → K) : m.on ws (m'.on vs ψ) = m'.on vs (m.on ws ψ) := by
  funext k
  simp only [on, Finset.mul_sum]
  rw [Finset.sum_comm]
  apply Finset.sum_congr rfl
  intro j _
  apply Finset.sum_congr rfl
  intro l _
  rw [gather_put_of_disjoint hw hd.symm, gather_put_of_disjoint hv hd,
    put_comm hv hw hd.symm]
  ring

theorem on_single (m : Operator K) (w : Wire) (ψ : Nat → K) (k : Nat) :
    m.on [w] ψ k = m.entry (k.testBit w).toNat 0 * ψ (assign k w false) +
      m.entry (k.testBit w).toNat 1 * ψ (assign k w true) := by
  have hrange : Finset.range (2 ^ [w].length) = {0, 1} := rfl
  have hgather : gather [w] k = (k.testBit w).toNat := by simp [gather]
  rw [on, hrange, hgather, Finset.sum_pair Nat.zero_ne_one]
  rfl

theorem on_pair {a b : Wire} (h : a ≠ b) (m : Operator K) (ψ : Nat → K) (k : Nat) :
    m.on [a, b] ψ k =
      m.entry ((k.testBit a).toNat + 2 * (k.testBit b).toNat) 0 *
          ψ (assign (assign k b false) a false) +
        m.entry ((k.testBit a).toNat + 2 * (k.testBit b).toNat) 1 *
          ψ (assign (assign k b false) a true) +
        m.entry ((k.testBit a).toNat + 2 * (k.testBit b).toNat) 2 *
          ψ (assign (assign k b true) a false) +
        m.entry ((k.testBit a).toNat + 2 * (k.testBit b).toNat) 3 *
          ψ (assign (assign k b true) a true) := by
  have hgather : gather [a, b] k = (k.testBit a).toNat + 2 * (k.testBit b).toNat := by
    simp [gather]
  have h0 : put [a, b] 0 k = assign (assign k b false) a false := put_pair h false false k
  have h1 : put [a, b] 1 k = assign (assign k b false) a true := put_pair h true false k
  have h2 : put [a, b] 2 k = assign (assign k b true) a false := put_pair h false true k
  have h3 : put [a, b] 3 k = assign (assign k b true) a true := put_pair h true true k
  have hlen : 2 ^ [a, b].length = 4 := rfl
  rw [on, hlen, hgather]
  simp only [Finset.sum_range_succ, Finset.sum_range_zero, zero_add, h0, h1, h2, h3]

end Operator

theorem fires_cons {c : Wire × Bool} {controls : List (Wire × Bool)} {k : Nat} :
    Fires (c :: controls) k ↔ k.testBit c.1 = c.2 ∧ Fires controls k := by
  simp [Fires]

theorem gather_eq_toNat_iff {controls : List (Wire × Bool)} {k : Nat} :
    gather (controls.map (·.1)) k = (Polarity.mk (controls.map (·.2))).toNat ↔
      Fires controls k := by
  induction controls with
  | nil => simp [gather, Polarity.toNat, Fires]
  | cons c controls ih =>
    have hcons : (Polarity.mk ((c :: controls).map (·.2))).toNat =
        c.2.toNat + 2 * (Polarity.mk (controls.map (·.2))).toNat := rfl
    have hc : c.2.toNat ≤ 1 := Bool.toNat_le _
    have hk : (k.testBit c.1).toNat ≤ 1 := Bool.toNat_le _
    rw [fires_cons, ← ih, hcons, List.map_cons, gather]
    constructor
    · intro h
      have hbit : (k.testBit c.1).toNat = c.2.toNat := by omega
      exact ⟨by cases hb : k.testBit c.1 <;> cases hc' : c.2 <;> simp_all, by omega⟩
    · rintro ⟨hbit, h⟩
      rw [hbit, h]

theorem sum_range_mul (f : Nat → K) (V T : Nat) :
    ∑ l ∈ Finset.range (V * T), f l =
      ∑ j ∈ Finset.range T, ∑ i ∈ Finset.range V, f (i + V * j) := by
  induction T with
  | zero => simp
  | succ T ih =>
    rw [Nat.mul_succ, Finset.sum_range_add, ih, Finset.sum_range_succ]
    simp only [Nat.add_comm]

namespace Operator

theorem controlled_entry {K : Type} [Zero K] [One K] (m : Operator K) (bits : List Bool)
    {i j : Nat} (hi : i < 2 ^ bits.length) (hj : j < 2 ^ bits.length) (r c : Nat) :
    (m.controlled ⟨bits⟩).entry (i + 2 ^ bits.length * r) (j + 2 ^ bits.length * c) =
      if i = (Polarity.mk bits).toNat ∧ j = (Polarity.mk bits).toNat then m.entry r c
      else if i = j ∧ r = c then 1 else 0 := by
  have hmod : ∀ x y, x < 2 ^ bits.length → (x + 2 ^ bits.length * y) % 2 ^ bits.length = x := by
    intro x y hx
    rw [Nat.add_mul_mod_self_left, Nat.mod_eq_of_lt hx]
  have hdiv : ∀ x y, x < 2 ^ bits.length → (x + 2 ^ bits.length * y) / 2 ^ bits.length = y := by
    intro x y hx
    rw [Nat.add_mul_div_left _ _ (by omega), Nat.div_eq_of_lt hx, Nat.zero_add]
  have hsame : i + 2 ^ bits.length * r = j + 2 ^ bits.length * c ↔ i = j ∧ r = c := by
    constructor
    · intro h
      have hm := congrArg (· % 2 ^ bits.length) h
      have hd := congrArg (· / 2 ^ bits.length) h
      simp only [hmod _ _ hi, hmod _ _ hj] at hm
      simp only [hdiv _ _ hi, hdiv _ _ hj] at hd
      exact ⟨hm, hd⟩
    · rintro ⟨rfl, rfl⟩
      rfl
  simp only [controlled, Polarity.length, Nat.one_shiftLeft, hmod _ _ hi, hmod _ _ hj,
    hdiv _ _ hi, hdiv _ _ hj, hsame]

/-- A controlled matrix acts on its targets where all controls are met, and not at all elsewhere. -/
theorem controlled_on {controls : List (Wire × Bool)} {ts : List Wire}
    (h : (controls.map (·.1) ++ ts).Nodup) (m : Operator K) (ψ : Nat → K) (k : Nat) :
    (m.controlled ⟨controls.map (·.2)⟩).on (controls.map (·.1) ++ ts) ψ k =
      if Fires controls k then m.on ts ψ k else ψ k := by
  obtain ⟨hc, ht, hd⟩ := List.nodup_append'.mp h
  let cs := controls.map (·.1)
  let bits := controls.map (·.2)
  have hlen : cs.length = bits.length := by simp [cs, bits]
  have hlow : gather cs k < 2 ^ bits.length := hlen ▸ gather_lt cs k
  have hrow : gather (cs ++ ts) k = gather cs k + 2 ^ bits.length * gather ts k :=
    hlen ▸ gather_append cs ts k
  have hput : ∀ i j, i < 2 ^ bits.length →
      put (cs ++ ts) (i + 2 ^ bits.length * j) k = put cs i (put ts j k) := by
    intro i j hi
    rw [← hlen] at hi ⊢
    exact put_append h hi j k
  have hself : ∀ j, put cs (gather cs k) (put ts j k) = put ts j k := by
    intro j
    rw [← gather_put_of_disjoint ht hd j k]
    exact put_gather hc _
  have hsum : (m.controlled ⟨bits⟩).on (cs ++ ts) ψ k =
      ∑ j ∈ Finset.range (2 ^ ts.length), ∑ i ∈ Finset.range (2 ^ bits.length),
        (if gather cs k = (Polarity.mk bits).toNat ∧ i = (Polarity.mk bits).toNat then
          m.entry (gather ts k) j
        else if gather cs k = i ∧ gather ts k = j then 1 else 0) * ψ (put cs i (put ts j k)) := by
    have htotal : 2 ^ (cs ++ ts).length = 2 ^ bits.length * 2 ^ ts.length := by
      rw [List.length_append, hlen, Nat.pow_add]
    rw [on, htotal, sum_range_mul]
    apply Finset.sum_congr rfl
    intro j _
    apply Finset.sum_congr rfl
    intro i hi
    have hi' := Finset.mem_range.mp hi
    rw [hrow, controlled_entry m bits hlow hi', hput i j hi']
  change (m.controlled ⟨bits⟩).on (cs ++ ts) ψ k = _
  rw [hsum]
  -- of the columns, only those with the values of `k` on the controls count
  by_cases hf : Fires controls k
  · have heq : gather cs k = (Polarity.mk bits).toNat := gather_eq_toNat_iff.mpr hf
    rw [if_pos hf, on]
    apply Finset.sum_congr rfl
    intro j _
    rw [Finset.sum_eq_single (gather cs k)]
    · rw [if_pos ⟨heq, heq⟩, hself]
    · intro i _ hi
      simp [← heq, hi, Ne.symm hi]
    · intro hnot
      exact absurd (Finset.mem_range.mpr hlow) hnot
  · have hne : gather cs k ≠ (Polarity.mk bits).toNat := fun he => hf (gather_eq_toNat_iff.mp he)
    rw [if_neg hf, Finset.sum_eq_single (gather ts k)]
    · rw [Finset.sum_eq_single (gather cs k)]
      · rw [if_neg (fun he => hne he.1), if_pos ⟨rfl, rfl⟩, one_mul, hself, put_gather ht]
      · intro i _ hi
        simp [hne, Ne.symm hi]
      · intro hnot
        exact absurd (Finset.mem_range.mpr hlow) hnot
    · intro j _ hj
      simp [hne, Ne.symm hj]
    · intro hnot
      exact absurd (Finset.mem_range.mpr (gather_lt ts k)) hnot

end Operator

end BasisFlow
