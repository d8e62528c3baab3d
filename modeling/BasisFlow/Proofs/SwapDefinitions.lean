import BasisFlow.Proofs.Knowledge
import BasisFlow.Proofs.Simulation

namespace BasisFlow

open Amplitude

/-- The index with the value of the control added to that of the target. -/
def flipped (c t : Wire) (k : Nat) : Nat :=
  assign k t (k.testBit c ^^ k.testBit t)

/-- The index with the value of `b` on `a`, and the sum of both values on `b`. -/
def halfExchanged (a b : Wire) (k : Nat) : Nat :=
  assign (assign k b (k.testBit a ^^ k.testBit b)) a (k.testBit b)

theorem testBit_flipped (c t : Wire) (k j : Nat) :
    (flipped c t k).testBit j =
      if j = t then k.testBit c ^^ k.testBit t else k.testBit j := by
  rw [flipped, testBit_assign]

theorem flipped_of_set {c t : Wire} {k : Nat} (h : k.testBit c = true) :
    flipped c t k = assign k t (!k.testBit t) := by
  rw [flipped, h, Bool.true_xor]

theorem flipped_of_clear {c t : Wire} {k : Nat} (h : k.testBit c = false) :
    flipped c t k = k := by
  rw [flipped, h, Bool.false_xor, assign_testBit]

section Exchanges

variable {a b : Wire} (h : a ≠ b) (k : Nat)

include h

theorem flipped_flipped : flipped b a (flipped a b k) = halfExchanged a b k := by
  apply Nat.eq_of_testBit_eq
  intro j
  simp only [testBit_flipped, halfExchanged, testBit_assign, if_neg h, if_true]
  cases k.testBit a <;> cases k.testBit b <;> rfl

theorem flipped_flipped_flipped :
    flipped a b (flipped b a (flipped a b k)) = exchanged a b k := by
  apply Nat.eq_of_testBit_eq
  intro j
  rw [testBit_exchanged]
  simp only [testBit_flipped, if_neg h, if_neg (Ne.symm h), if_true]
  by_cases hb : j = b
  · subst j
    rw [if_pos rfl, if_neg (Ne.symm h), if_pos rfl]
    cases k.testBit a <;> cases k.testBit b <;> rfl
  · simp only [if_neg hb]
    cases k.testBit a <;> cases k.testBit b <;> rfl

/-- Half of an exchange differs from the whole in the value of the second wire only. -/
theorem halfExchanged_eq_assign :
    halfExchanged a b k = assign (exchanged a b k) b (k.testBit a ^^ k.testBit b) := by
  rw [halfExchanged, exchanged, assign_comm h, assign_assign, assign_comm (Ne.symm h)]

theorem exchanged_exchanged : exchanged a b (exchanged a b k) = k := by
  apply Nat.eq_of_testBit_eq
  intro j
  simp only [testBit_exchanged, if_neg (Ne.symm h), if_true]
  by_cases ha : j = a
  · simp [ha]
  · by_cases hb : j = b <;> simp [ha, hb, Ne.symm h]

end Exchanges

theorem exchanged_lt_iff {a b n : Nat} (ha : a < n) (hb : b < n) (k : Nat) :
    exchanged a b k < 2 ^ n ↔ k < 2 ^ n := by
  have hsame : ∀ j, n ≤ j → (exchanged a b k).testBit j = k.testBit j := by
    intro j hj
    rw [testBit_exchanged, if_neg (by omega), if_neg (by omega)]
  simp only [lt_two_pow_iff]
  constructor
  · intro hk j hj
    rw [← hsame j hj, hk j hj]
  · intro hk j hj
    rw [hsame j hj, hk j hj]

theorem Operator.controlledFlip_on {K : Type} [CommRing K] {c t : Wire} (h : c ≠ t) (ψ : Nat → K)
    (k : Nat) :
    ((Operator.ofRows 1 [[0, 1], [1, 0]]).controlled (.closed 1)).on [c, t] ψ k =
      ψ (flipped c t k) := by
  have hnodup : ([(c, true)].map (·.1) ++ [t]).Nodup := by simpa using h
  have hon := controlled_on hnodup (Operator.ofRows 1 [[0, 1], [1, 0]]) ψ k
  refine hon.trans ?_
  have hfires : Fires [(c, true)] k ↔ k.testBit c = true := by simp [Fires]
  split
  next hc => rw [flipRows_on, flipped_of_set (hfires.mp hc)]
  next hc => rw [flipped_of_clear (Bool.eq_false_iff.mpr (hfires.not.mp hc))]

section Halves

variable {K : Type} [CommRing K] [Amplitude K] {ψ : Nat → K} {a b : Wire}

theorem Factors.half_of_zero (hψ : Factors ψ a .zero) (b : Wire) (k : Nat) :
    ψ (halfExchanged a b k) = ψ (exchanged a b k) := by
  -- where `b` has a one, both take it from an amplitude that is zero
  cases hb : k.testBit b with
  | false => rw [halfExchanged, exchanged, hb, Bool.xor_false]
  | true =>
    have hzero := zero_iff.mp hψ
    have hhalf : (halfExchanged a b k).testBit a = true := by
      rw [halfExchanged, testBit_assign_self, hb]
    have hwhole : (exchanged a b k).testBit a = true := by
      rw [testBit_exchanged, if_pos rfl, hb]
    rw [hzero _ hhalf, hzero _ hwhole]

theorem Factors.half_of_plus (hψ : Factors ψ b .plus) (h : a ≠ b) (k : Nat) :
    ψ (halfExchanged a b k) = ψ (exchanged a b k) := by
  rw [halfExchanged_eq_assign h, hψ.plus_assign]

end Halves

namespace Register

variable {K : Type} [CommRing K] [Amplitude K]

/-- On a register of `n` wires, none of the operations is refused, and together they bring to every
index `k` the amplitude that was at `f k`. -/
def Moves (K : Type) [CommRing K] [Amplitude K] (n : Nat) (ops : List Operation)
    (f : Nat → Nat) : Prop :=
  ∀ r : Register K, r.Full → r.qubits = n →
    ∃ s, ops.foldlM apply r = .ok s ∧ s.Full ∧ s.qubits = n ∧
      ∀ k, s.amplitude k = r.amplitude (f k)

theorem foldlM_single (r : Register K) (op : Operation) : [op].foldlM apply r = r.apply op := by
  rw [List.foldlM_cons]
  cases r.apply op <;> rfl

theorem Moves.append {n : Nat} {l m : List Operation} {f g : Nat → Nat} (hl : Moves K n l f)
    (hm : Moves K n m g) : Moves K n (l ++ m) fun k => f (g k) := by
  intro r hr hq
  obtain ⟨s, hs, hfull, hwidth, hamp⟩ := hl r hr hq
  obtain ⟨u, hu, hfull', hwidth', hamp'⟩ := hm s hfull hwidth
  refine ⟨u, ?_, hfull', hwidth', ?_⟩
  · rw [List.foldlM_append, hs]
    exact hu
  · intro k
    rw [hamp', hamp]

/-- Operations that move the amplitudes in one way give one register. -/
theorem Moves.foldlM_eq {n : Nat} {l m : List Operation} {f g : Nat → Nat} (hl : Moves K n l f)
    (hm : Moves K n m g) {r : Register K} (hr : r.Full) (hq : r.qubits = n)
    (h : ∀ k, r.amplitude (f k) = r.amplitude (g k)) : l.foldlM apply r = m.foldlM apply r := by
  obtain ⟨s, hs, hfull, hwidth, hamp⟩ := hl r hr hq
  obtain ⟨u, hu, hfull', hwidth', hamp'⟩ := hm r hr hq
  have hsame : s.amplitude = u.amplitude := by
    funext k
    rw [hamp, hamp', h]
  rw [hs, hu, ext_amplitude hfull hfull' (hwidth.trans hwidth'.symm) hsame]

theorem moves_of_on {n : Nat} {g : Gate} {a b : Wire} {m : Operator K} {f : Nat → Nat}
    (hg : g.arity = 2) (hm : g.allocateOperator = .ok (some m)) (h : a ≠ b) (ha : a < n)
    (hb : b < n) (hon : ∀ (ψ : Nat → K) k, m.on [a, b] ψ k = ψ (f k)) :
    Moves K n [⟨g, [a, b]⟩] f := by
  rintro r hr rfl
  have hfits : Operation.Fits ⟨g, [a, b]⟩ r.qubits :=
    ⟨hg.symm, by simpa using h, by simpa using ⟨ha, hb⟩⟩
  refine ⟨r.act m [a, b], ?_, act_full hr m _, rfl, ?_⟩
  · rw [foldlM_single, apply_eq_act_of_allocated hr hfits hm]
  · intro k
    rw [amplitude_act hr hfits.nodup hfits.lt_width, hon]

section Gates

variable {n : Nat} {a b : Wire} (h : a ≠ b) (ha : a < n) (hb : b < n)

include h ha hb

theorem moves_cx : Moves K n [⟨.cx, [a, b]⟩] (flipped a b) :=
  moves_of_on rfl rfl h ha hb (Operator.controlledFlip_on h)

theorem moves_swap : Moves K n [⟨.base .swap, [a, b]⟩] (exchanged a b) :=
  moves_of_on rfl rfl h ha hb (Operator.swapRows_on h)

theorem moves_halfSwap : Moves K n [⟨.halfSwap, [a, b]⟩] (halfExchanged a b) :=
  moves_of_on rfl rfl h ha hb (Operator.halfSwapRows_on h)

theorem moves_two_cx :
    Moves K n [⟨.cx, [b, a]⟩, ⟨.cx, [a, b]⟩] (halfExchanged a b) := by
  have hmoves := (moves_cx (K := K) (Ne.symm h) hb ha).append (moves_cx h ha hb)
  simp only [flipped_flipped h] at hmoves
  exact hmoves

theorem moves_three_cx :
    Moves K n [⟨.cx, [a, b]⟩, ⟨.cx, [b, a]⟩, ⟨.cx, [a, b]⟩] (exchanged a b) := by
  have hmoves := (moves_cx (K := K) h ha hb).append
    ((moves_cx (Ne.symm h) hb ha).append (moves_cx h ha hb))
  simp only [flipped_flipped_flipped h] at hmoves
  exact hmoves

end Gates

theorem apply_swap_basis {n x : Nat} {a b : Wire} (h : a ≠ b) (ha : a < n) (hb : b < n)
    (hx : x < 2 ^ n) :
    (basis n x : Register K).apply ⟨.base .swap, [a, b]⟩ = .ok (basis n (exchanged a b x)) := by
  have hswap : Moves K n _ _ := moves_swap h ha hb
  obtain ⟨s, hs, hfull, hwidth, hamp⟩ := hswap (basis n x) (basis_full n x) rfl
  have hy := (exchanged_lt_iff ha hb x).mpr hx
  have hsame : s.amplitude = (basis n (exchanged a b x) : Register K).amplitude := by
    funext k
    have hiff : exchanged a b k = x ↔ k = exchanged a b x := by
      constructor
      · rintro rfl
        exact (exchanged_exchanged h k).symm
      · rintro rfl
        exact exchanged_exchanged h x
    rw [hamp, amplitude_basis hx, amplitude_basis hy]
    simp only [hiff]
  rw [← foldlM_single, hs, ext_amplitude hfull (basis_full n _) hwidth hsame]

/-- On two different wires of any register, the swap and its half do what the gates of their
definitions do one after the other. The swap exchanges the two bits of every index. Half of it does
the same where the first wire is at zero, or the second is zero and one in equal parts. -/
theorem swaps_apply_as_defined {r : Register K} (hr : r.Full) {a b : Wire} (h : a ≠ b)
    (ha : a < r.qubits) (hb : b < r.qubits) :
    ∃ swapped half,
      r.apply ⟨.base .swap, [a, b]⟩ = .ok swapped ∧ r.apply ⟨.halfSwap, [a, b]⟩ = .ok half ∧
      (∃ ops, (Gate.base .swap).definition = some ops ∧
        (ops.map (Operation.onto [a, b])).foldlM apply r = .ok swapped) ∧
      (∃ ops, Gate.halfSwap.definition = some ops ∧
        (ops.map (Operation.onto [a, b])).foldlM apply r = .ok half) ∧
      (∀ k, swapped.amplitude k = r.amplitude (exchanged a b k)) ∧
      (∀ x < 2 ^ r.qubits, ∃ y < 2 ^ r.qubits,
        (∀ j, y.testBit j =
          if j = a then x.testBit b else if j = b then x.testBit a else x.testBit j) ∧
        (basis r.qubits x : Register K).apply ⟨.base .swap, [a, b]⟩ = .ok (basis r.qubits y)) ∧
      (Factors r.amplitude a .zero ∨ Factors r.amplitude b .plus → half = swapped) := by
  have hswap : Moves K r.qubits _ _ := moves_swap h ha hb
  have hhalf : Moves K r.qubits _ _ := moves_halfSwap h ha hb
  obtain ⟨swapped, hswapped, -, -, hamp⟩ := hswap r hr rfl
  obtain ⟨half, hhalved, -⟩ := hhalf r hr rfl
  refine ⟨swapped, half, (foldlM_single r _).symm.trans hswapped,
    (foldlM_single r _).symm.trans hhalved, ⟨_, rfl, ?_⟩, ⟨_, rfl, ?_⟩, hamp, ?_, ?_⟩
  · exact ((moves_three_cx h ha hb).foldlM_eq hswap hr rfl fun _ => rfl).trans hswapped
  · exact ((moves_two_cx h ha hb).foldlM_eq hhalf hr rfl fun _ => rfl).trans hhalved
  · intro x hx
    exact ⟨exchanged a b x, (exchanged_lt_iff ha hb x).mpr hx, testBit_exchanged a b x,
      apply_swap_basis h ha hb hx⟩
  · intro hknown
    have hsame : ∀ k, r.amplitude (halfExchanged a b k) = r.amplitude (exchanged a b k) := by
      intro k
      obtain hzero | hplus := hknown
      · exact hzero.half_of_zero b k
      · exact hplus.half_of_plus h k
    have heq := hhalf.foldlM_eq hswap hr rfl hsame
    rw [hhalved, hswapped] at heq
    exact Except.ok.inj heq

/-- Two wires that are always equal, next to one at zero. -/
noncomputable def pairBesideZero : Register ℂ :=
  ⟨3, #[1, 0, 0, 1, 0, 0, 0, 0]⟩

theorem pairBesideZero_full : pairBesideZero.Full :=
  rfl

theorem pairBesideZero_factors : Factors pairBesideZero.amplitude 2 .zero := by
  apply Factors.zero_iff.mpr
  intro k hk
  have hbelow : ∀ k < 8, k.testBit 2 = true → k = 4 ∨ k = 5 ∨ k = 6 ∨ k = 7 := by decide
  by_cases hlt : k < 8
  · obtain rfl | rfl | rfl | rfl := hbelow k hlt hk <;> rfl
  · exact amplitude_of_le pairBesideZero_full (Nat.le_of_not_lt hlt)

theorem pair_beside_zero_swaps_as_defined :
    pairBesideZero.Full ∧ Factors pairBesideZero.amplitude 2 .zero ∧
      ∃ s, pairBesideZero.apply ⟨.halfSwap, [2, 0]⟩ = .ok s ∧
        pairBesideZero.apply ⟨.base .swap, [2, 0]⟩ = .ok s ∧ s.amplitude 6 = 1 := by
  obtain ⟨swapped, half, hswap, hhalf, -, -, hamp, -, hsame⟩ :=
    swaps_apply_as_defined pairBesideZero_full (a := 2) (b := 0) (by decide) (by decide) (by decide)
  obtain rfl := hsame (.inl pairBesideZero_factors)
  refine ⟨pairBesideZero_full, pairBesideZero_factors, half, hhalf, hswap, ?_⟩
  have hindex : exchanged 2 0 6 = 3 := by decide
  rw [hamp, hindex]
  rfl

end Register

end BasisFlow
