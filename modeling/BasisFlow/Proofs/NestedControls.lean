import BasisFlow.Proofs.Exact
import BasisFlow.Proofs.Wave

namespace BasisFlow

theorem shiftLeft_or_eq {n c : Nat} (hc : c < 2 ^ n) (r : Nat) : r <<< n ||| c = c + 2 ^ n * r := by
  rw [← Nat.shiftLeft_add_eq_or_of_lt hc, Nat.shiftLeft_eq, Nat.mul_comm, Nat.add_comm]

namespace Polarity

/-- A row or column at which every control has the required value, the first at the lowest bit. -/
def MetAt (p : Polarity) (r : Nat) : Prop :=
  ∀ k b, p.get? k = some b → r.testBit k = b

theorem metAt_cons {b : Bool} {bits : List Bool} {r : Nat} :
    (Polarity.mk (b :: bits)).MetAt r ↔ r % 2 = b.toNat ∧ (Polarity.mk bits).MetAt (r / 2) := by
  have hlow : r % 2 = b.toNat ↔ r.testBit 0 = b := by
    cases b <;> simp [Nat.testBit_zero]
  rw [hlow]
  constructor
  · intro h
    refine ⟨h 0 b rfl, ?_⟩
    intro k d hd
    rw [← Nat.testBit_succ]
    exact h (k + 1) d hd
  · rintro ⟨hb, hrest⟩ k d hd
    cases k with
    | zero => exact hb.trans (Option.some.inj hd)
    | succ k =>
      rw [Nat.testBit_succ]
      exact hrest k d hd

theorem mod_eq_toNat_iff {p : Polarity} {r : Nat} :
    r % 2 ^ p.length = p.toNat ↔ p.MetAt r := by
  obtain ⟨bits⟩ := p
  induction bits generalizing r with
  | nil => simp [MetAt, get?, toNat, length, Nat.mod_one]
  | cons b bits ih =>
    have hcons : (Polarity.mk (b :: bits)).toNat = b.toNat + 2 * (Polarity.mk bits).toNat := rfl
    have hpow : 2 ^ (Polarity.mk (b :: bits)).length = 2 * 2 ^ (Polarity.mk bits).length :=
      Nat.pow_succ'
    have hb : b.toNat ≤ 1 := Bool.toNat_le b
    rw [metAt_cons, ← ih, hcons, hpow, Nat.mod_mul]
    omega

instance (p : Polarity) (r : Nat) : Decidable (p.MetAt r) :=
  decidable_of_iff _ mod_eq_toNat_iff

theorem toNat_lt (p : Polarity) : p.toNat < 2 ^ p.length := by
  obtain ⟨bits⟩ := p
  induction bits with
  | nil => decide
  | cons b bits ih =>
    have hcons : (Polarity.mk (b :: bits)).toNat = b.toNat + 2 * (Polarity.mk bits).toNat := rfl
    have hpow : 2 ^ (Polarity.mk (b :: bits)).length = 2 * 2 ^ (Polarity.mk bits).length :=
      Nat.pow_succ'
    have hb : b.toNat ≤ 1 := Bool.toNat_le b
    omega

theorem metAt_add_mul {p : Polarity} {i : Nat} (hi : i < 2 ^ p.length) (j : Nat) :
    p.MetAt (i + 2 ^ p.length * j) ↔ i = p.toNat := by
  rw [← mod_eq_toNat_iff, Nat.add_mul_mod_self_left, Nat.mod_eq_of_lt hi]

theorem testBit_toNat (p : Polarity) (k : Nat) : p.toNat.testBit k = (p.get? k).getD false := by
  have hmet : p.MetAt p.toNat := mod_eq_toNat_iff.mp (Nat.mod_eq_of_lt p.toNat_lt)
  cases hk : p.get? k with
  | some b => exact hmet k b hk
  | none =>
    have hle : p.length ≤ k := List.getElem?_eq_none_iff.mp hk
    have hlt := Nat.lt_of_lt_of_le p.toNat_lt (Nat.pow_le_pow_right Nat.two_pos hle)
    exact Nat.testBit_eq_false_of_lt hlt

theorem MetAt.div_eq_iff {p : Polarity} {r c : Nat} (hr : p.MetAt r) (hc : p.MetAt c) :
    r / 2 ^ p.length = c / 2 ^ p.length ↔ r = c := by
  refine ⟨fun hdiv => ?_, fun e => by rw [e]⟩
  rw [← Nat.mod_add_div r (2 ^ p.length), mod_eq_toNat_iff.mpr hr, hdiv,
    ← mod_eq_toNat_iff.mpr hc, Nat.mod_add_div]

theorem append_assoc (p q r : Polarity) : p ++ q ++ r = p ++ (q ++ r) :=
  congrArg Polarity.mk (List.append_assoc p.bits q.bits r.bits)

theorem length_append (p q : Polarity) : (p ++ q).length = p.length + q.length :=
  List.length_append

/-- Of two lists of controls, the second is looked for behind the first. -/
theorem metAt_append {p q : Polarity} {r : Nat} :
    (p ++ q).MetAt r ↔ p.MetAt r ∧ q.MetAt (r / 2 ^ p.length) := by
  have hget : ∀ k, (p ++ q).get? k = (p.bits ++ q.bits)[k]? := fun _ => rfl
  constructor
  · intro h
    refine ⟨?_, ?_⟩
    · intro k b hk
      have hlt : k < p.bits.length := (List.getElem?_eq_some_iff.mp hk).1
      apply h k b
      rw [hget, List.getElem?_append_left hlt]
      exact hk
    · intro k b hk
      rw [Nat.testBit_div_two_pow]
      apply h _ b
      rw [hget, List.getElem?_append_right (by exact Nat.le_add_left _ _)]
      simpa [get?, length] using hk
  · rintro ⟨hp, hq⟩ k b hk
    rw [hget] at hk
    by_cases hlt : k < p.bits.length
    · rw [List.getElem?_append_left hlt] at hk
      exact hp k b hk
    · rw [List.getElem?_append_right (Nat.le_of_not_lt hlt)] at hk
      have hbit := hq _ b hk
      rw [Nat.testBit_div_two_pow] at hbit
      have hback : k - p.bits.length + p.length = k := Nat.sub_add_cancel (Nat.le_of_not_lt hlt)
      rwa [hback] at hbit

/-- The `j`-th of the rows or columns at which the controls are met. -/
def site (p : Polarity) (j : Nat) : Nat :=
  j <<< p.length ||| p.toNat

theorem eq_site_iff {p : Polarity} {j r : Nat} :
    r = p.site j ↔ p.MetAt r ∧ r / 2 ^ p.length = j := by
  rw [site, shiftLeft_or_eq p.toNat_lt, ← mod_eq_toNat_iff]
  constructor
  · rintro rfl
    rw [Nat.add_mul_mod_self_left, Nat.mod_eq_of_lt p.toNat_lt,
      Nat.add_mul_div_left _ _ (Nat.two_pow_pos _), Nat.div_eq_of_lt p.toNat_lt, Nat.zero_add]
    exact ⟨rfl, rfl⟩
  · rintro ⟨hmod, rfl⟩
    rw [← hmod, Nat.mod_add_div]

end Polarity

/-- A loop of which one round sets a value and no other round touches it. -/
theorem foldl_range_eq_ite {σ α : Type} (view : σ → α) {f : σ → Nat → σ} {x : Nat} {P : Prop}
    [Decidable P] {a : α} (h : ∀ s j, view (f s j) = if j = x ∧ P then a else view s) (s : σ)
    (n : Nat) : view ((List.range n).foldl f s) = if x < n ∧ P then a else view s := by
  induction n with
  | zero => simp
  | succ n ih =>
    rw [List.range_succ, List.foldl_append, List.foldl_cons, List.foldl_nil, h, ih]
    by_cases hlast : n = x ∧ P
    · rw [if_pos hlast, if_pos ⟨by omega, hlast.2⟩]
    · have hsucc : x < n + 1 ∧ P ↔ x < n ∧ P := by
        refine ⟨fun hlt => ⟨?_, hlt.2⟩, fun hlt => ⟨by omega, hlt.2⟩⟩
        have hne : n ≠ x := fun e => hlast ⟨e, hlt.2⟩
        omega
      rw [if_neg hlast]
      simp only [hsucc]

namespace Operator

variable {K : Type} [Zero K] [One K]

theorem dim_controlled (m : Operator K) (p : Polarity) :
    (m.controlled p).dim = 2 ^ p.length * m.dim := by
  simp only [dim, controlled, Nat.one_shiftLeft, Nat.pow_add]

/-- A controlled matrix has the entries of the matrix itself where the controls are met, and those
of the identity elsewhere. -/
theorem entry_controlled (m : Operator K) (p : Polarity) (r c : Nat) :
    (m.controlled p).entry r c =
      if p.MetAt r ∧ p.MetAt c then m.entry (r / 2 ^ p.length) (c / 2 ^ p.length)
      else if r = c then 1 else 0 := by
  simp only [controlled, Nat.one_shiftLeft, Polarity.mod_eq_toNat_iff]

theorem controlled_entry_of_not_met (m : Operator K) {p : Polarity} {r : Nat} (h : ¬p.MetAt r)
    (c : Nat) : (m.controlled p).entry r c = if r = c then 1 else 0 := by
  rw [entry_controlled, if_neg fun hmet => h hmet.1]

theorem controlled_entry_of_met (m : Operator K) {p : Polarity} {r : Nat} (h : p.MetAt r)
    (c : Nat) : (m.controlled p).entry r c =
      if p.MetAt c then m.entry (r / 2 ^ p.length) (c / 2 ^ p.length) else 0 := by
  rw [entry_controlled]
  simp only [h, true_and]
  split
  next => rfl
  next hc =>
    rw [if_neg]
    rintro rfl
    exact hc h

theorem sum_metAt {K : Type} [CommRing K] (p : Polarity) (f : Nat → K) (n : Nat) :
    ∑ l ∈ Finset.range (2 ^ p.length * n), (if p.MetAt l then f (l / 2 ^ p.length) else 0) =
      ∑ j ∈ Finset.range n, f j := by
  rw [sum_range_mul]
  apply Finset.sum_congr rfl
  intro j _
  rw [Finset.sum_eq_single p.toNat]
  · have hlt := p.toNat_lt
    rw [if_pos ((Polarity.metAt_add_mul hlt j).mpr rfl), Nat.add_mul_div_left _ _ (by omega),
      Nat.div_eq_of_lt hlt, Nat.zero_add]
  · intro i hi hne
    rw [if_neg (mt (Polarity.metAt_add_mul (Finset.mem_range.mp hi) j).mp hne)]
  · intro hnot
    exact absurd (Finset.mem_range.mpr p.toNat_lt) hnot

/-- A matrix under one list of controls and then under another is under both of them at once. -/
theorem controlled_controlled (m : Operator K) (p q : Polarity) :
    (m.controlled q).controlled p = m.controlled (p ++ q) := by
  have hoperands : p.length + (q.length + m.operands) = (p ++ q).length + m.operands := by
    rw [Polarity.length_append, Nat.add_assoc]
  have hentry : ((m.controlled q).controlled p).entry = (m.controlled (p ++ q)).entry := by
    funext r c
    rw [entry_controlled _ p, entry_controlled _ q, entry_controlled]
    simp only [Polarity.metAt_append, Polarity.length_append, Nat.pow_add,
      ← Nat.div_div_eq_div_mul]
    by_cases hmet : p.MetAt r ∧ p.MetAt c
    · rw [if_pos hmet]
      simp only [hmet.1, hmet.2, true_and, hmet.1.div_eq_iff hmet.2]
    · have hboth : ¬((p.MetAt r ∧ q.MetAt (r / 2 ^ p.length)) ∧
          p.MetAt c ∧ q.MetAt (c / 2 ^ p.length)) := fun h => hmet ⟨h.1.1, h.2.1⟩
      rw [if_neg hmet, if_neg hboth]
  exact (Operator.mk.injEq ..).mpr ⟨hoperands, hentry⟩

section Patched

def identity (operands : Nat) : Operator K :=
  ⟨operands, fun r c => if r = c then 1 else 0⟩

/-- The matrix with one entry replaced. -/
def write (m : Operator K) (row col : Nat) (a : K) : Operator K :=
  { m with entry := fun r c => if r = row ∧ c = col then a else m.entry r c }

/-- Replaces the column of `d` that stands for column `t` of `m`: its diagonal entry is cleared and
the entries of `m` are filled in. -/
def fillColumn (m : Operator K) (p : Polarity) (d : Operator K) (t : Nat) : Operator K :=
  (List.range m.dim).foldl (fun d r => d.write (p.site r) (p.site t) (m.entry r t))
    (d.write (p.site t) (p.site t) 0)

/-- The identity with the columns of `m` filled in, one after the other. -/
def patched (m : Operator K) (p : Polarity) : Operator K :=
  (List.range m.dim).foldl (m.fillColumn p) (identity (p.length + m.operands))

variable (m d : Operator K) (p : Polarity)

omit [One K] in
theorem entry_fillColumn {r : Nat} (hr : r / 2 ^ p.length < m.dim) (c t : Nat) :
    (m.fillColumn p d t).entry r c =
      if p.MetAt r ∧ c = p.site t then m.entry (r / 2 ^ p.length) t else d.entry r c := by
  have hround : ∀ (d : Operator K) (j : Nat),
      (d.write (p.site j) (p.site t) (m.entry j t)).entry r c =
        if j = r / 2 ^ p.length ∧ p.MetAt r ∧ c = p.site t then m.entry (r / 2 ^ p.length) t
        else d.entry r c := by
    intro d j
    simp only [write, Polarity.eq_site_iff (r := r)]
    by_cases hj : j = r / 2 ^ p.length
    · simp [hj]
    · simp [hj, Ne.symm hj]
  rw [fillColumn, foldl_range_eq_ite (fun d : Operator K => d.entry r c) hround]
  simp only [hr, true_and]
  split
  next => rfl
  next hnot =>
    -- the cleared entry is one of those that are filled in
    have hclear : ¬(r = p.site t ∧ c = p.site t) :=
      fun hboth => hnot ⟨(Polarity.eq_site_iff.mp hboth.1).1, hboth.2⟩
    exact if_neg hclear

/-- To fill in the columns makes the controlled matrix. -/
theorem entry_patched {r c : Nat} (hr : r < (m.controlled p).dim)
    (hc : c < (m.controlled p).dim) : (m.patched p).entry r c = (m.controlled p).entry r c := by
  rw [dim_controlled] at hr hc
  have hround : ∀ (d : Operator K) (t : Nat), (m.fillColumn p d t).entry r c =
      if t = c / 2 ^ p.length ∧ p.MetAt r ∧ p.MetAt c then
        m.entry (r / 2 ^ p.length) (c / 2 ^ p.length)
      else d.entry r c := by
    intro d t
    rw [entry_fillColumn m d p (Nat.div_lt_of_lt_mul hr)]
    simp only [Polarity.eq_site_iff (r := c)]
    by_cases ht : t = c / 2 ^ p.length
    · simp [ht]
    · simp [ht, Ne.symm ht]
  rw [patched, foldl_range_eq_ite (fun d : Operator K => d.entry r c) hround,
    entry_controlled]
  simp only [Nat.div_lt_of_lt_mul hc, true_and]
  rfl

end Patched

end Operator

namespace Gate

variable {K : Type} [Zero K] [One K] [Neg K] [Mul K] [Amplitude K] {g g' : Gate} {p : Polarity}

theorem control_eq_ok (hswap : g ≠ .halfSwap) (hreset : g ≠ .reset) (p : Polarity) :
    ∃ g', g.control p = .ok g' ∧ g'.arity = g.arity + p.length := by
  cases g with
  | base a => exact ⟨_, rfl, Nat.add_comm _ _⟩
  | halfSwap => exact absurd rfl hswap
  | reset => exact absurd rfl hreset
  | controlled a q =>
    refine ⟨_, rfl, ?_⟩
    simp only [arity, Polarity.length_append]
    omega

theorem control_control (h : g.control p = .ok g') (q : Polarity) :
    g'.control q = g.control (q ++ p) := by
  cases g with
  | base a =>
    cases h
    rfl
  | halfSwap => cases h
  | reset => cases h
  | controlled a r =>
    cases h
    rw [control, control, Polarity.append_assoc]

/-- A gate has a matrix under further controls just when it has one, and it is the same matrix under
these controls. -/
theorem operator_control (h : g.control p = .ok g') :
    (g'.operator : Except Fault (Option (Operator K))) = do
      let matrix ← g.operator
      return matrix.map (·.controlled p) := by
  cases g with
  | base a =>
    cases h
    rfl
  | halfSwap => cases h
  | reset => cases h
  | controlled a q =>
    cases h
    simp only [operator]
    cases (a.operator : Except Fault (Option (Operator K))) with
    | error e => rfl
    | ok matrix =>
      cases matrix with
      | none => rfl
      | some m => exact congrArg (fun m' => Except.ok (some m')) (m.controlled_controlled p q).symm

/-- Controls that are added to a gate come before those that it has, whether they are added one list
after the other or all at once. The matrix of the gate then acts where the new controls, at the
lowest bits, are met, and the identity elsewhere: it is what comes out when the columns of the
matrix are filled into an identity. -/
theorem control_flattens (hswap : g ≠ .halfSwap) (hreset : g ≠ .reset) (p q : Polarity) :
    (∀ k, p.toNat.testBit k = (p.get? k).getD false) ∧
    ∃ g₁ g₂, g.control p = .ok g₁ ∧ g₁.control q = .ok g₂ ∧ g.control (q ++ p) = .ok g₂ ∧
      g₁.arity = g.arity + p.length ∧ g₂.arity = g.arity + (p.length + q.length) ∧
      g₂.countedArity = Word.fitCount (g.arity + (p.length + q.length)) ∧
      ∀ m : Operator K, g.operator = .ok (some m) →
        ∃ m₁ : Operator K, g₁.operator = .ok (some m₁) ∧
          (g₁.reserveOperator = .ok () → g₁.allocateOperator = .ok (some m₁)) ∧
          m₁.dim = m.dim <<< p.length ∧
          (∀ r < m.dim, ∀ t < m.dim, ∀ c₁ < 2 ^ p.length, ∀ c₂ < 2 ^ p.length,
            m₁.entry (r <<< p.length ||| c₁) (t <<< p.length ||| c₂) =
              if c₁ = p.toNat ∧ c₂ = p.toNat then m.entry r t
              else if c₁ = c₂ ∧ r = t then 1
              else 0) ∧
          ∀ r < m₁.dim, ∀ c < m₁.dim, (m.patched p).entry r c = m₁.entry r c := by
  obtain ⟨g₁, h₁, harity₁⟩ := control_eq_ok hswap hreset p
  obtain ⟨g₂, h₂, harity₂⟩ := control_eq_ok hswap hreset (q ++ p)
  have harity : g₂.arity = g.arity + (p.length + q.length) := by
    rw [harity₂, Polarity.length_append, Nat.add_comm q.length]
  refine ⟨p.testBit_toNat, g₁, g₂, h₁, (control_control h₁ q).trans h₂, h₂, harity₁, harity, ?_, ?_⟩
  · rw [countedArity, harity]
  · intro m hm
    have hoperator : g₁.operator = .ok (some (m.controlled p)) := by
      rw [operator_control h₁, hm]
      rfl
    refine ⟨m.controlled p, hoperator, ?_, ?_, ?_, fun r hr c hc => m.entry_patched p hr hc⟩
    · intro hroom
      rw [allocateOperator, hoperator]
      change (g₁.reserveOperator >>= fun _ => pure (some (m.controlled p))) = _
      rw [hroom]
      rfl
    · rw [Operator.dim_controlled, Nat.shiftLeft_eq, Nat.mul_comm]
    · intro r _ t _ c₁ hc₁ c₂ hc₂
      rw [shiftLeft_or_eq hc₁, shiftLeft_or_eq hc₂]
      exact m.controlled_entry p.bits hc₁ hc₂ r t

theorem open_control_flattens :
    let p : Polarity := ⟨[false, true]⟩
    let g : Gate := .controlled .x ⟨[false, true, true]⟩
    cx.control p = .ok g ∧ g.control ⟨[false]⟩ = cx.control ⟨[false, false, true]⟩ ∧
      ∃ m m₁ : Operator ℂ, cx.operator = .ok (some m) ∧ m.entry 1 3 = 1 ∧
        g.allocateOperator = .ok (some m₁) ∧ m₁.entry (1 <<< 2 ||| 2) (3 <<< 2 ||| 2) = 1 ∧
        m₁.entry (1 <<< 2 ||| 3) (3 <<< 2 ||| 3) = 0 ∧
        m₁.entry (3 <<< 2 ||| 3) (3 <<< 2 ||| 3) = 1 := by
  intro p g
  have hm : cx.operator = .ok (some ((Operator.ofRows 1 [[0, 1], [1, 0]] : Operator ℂ).controlled
    (.closed 1))) := rfl
  obtain ⟨_, g₁, _, h₁, h₂, h₃, _, _, _, hmatrix⟩ :=
    control_flattens (K := ℂ) (g := cx) (by decide) (by decide) p ⟨[false]⟩
  obtain rfl : g = g₁ := Except.ok.inj h₁
  obtain ⟨m₁, _, hroom, _, hentry, _⟩ := hmatrix _ hm
  refine ⟨h₁, h₂.trans h₃.symm, _, m₁, hm, ?_, hroom (by decide), ?_, ?_, ?_⟩
  · simp [Operator.controlled, Operator.ofRows, Polarity.closed, Polarity.length, Polarity.toNat]
  · refine (hentry 1 (by decide) 3 (by decide) 2 (by decide) 2 (by decide)).trans ?_
    simp [p, Operator.controlled, Operator.ofRows, Polarity.closed, Polarity.length,
      Polarity.toNat]
  · refine (hentry 1 (by decide) 3 (by decide) 3 (by decide) 3 (by decide)).trans ?_
    simp [p, Polarity.toNat]
  · refine (hentry 3 (by decide) 3 (by decide) 3 (by decide) 3 (by decide)).trans ?_
    simp [p, Polarity.toNat]

end Gate

end BasisFlow
