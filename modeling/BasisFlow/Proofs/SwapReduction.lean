import BasisFlow.Proofs.Replacement
import BasisFlow.Reduction.Swaps

namespace BasisFlow

open Amplitude

variable {boxes : String → Nat → Operator ℂ} {a b : Wire}

/-- The index with given values on two wires. -/
def corner (a b : Wire) (k : Nat) (x y : Bool) : Nat :=
  assign (assign k a x) b y

/-- The amplitudes as a function of the values of two wires, when all others are as in `k`. -/
def block (a b : Wire) (ψ : Nat → ℂ) (k : Nat) (x y : Bool) : ℂ :=
  ψ (corner a b k x y)

section Corner

variable (k : Nat) (x y z : Bool)

theorem testBit_corner_first (h : a ≠ b) : (corner a b k x y).testBit a = x := by
  rw [corner, testBit_assign_of_ne h, testBit_assign_self]

theorem testBit_corner_second : (corner a b k x y).testBit b = y := by
  rw [corner, testBit_assign_self]

theorem assign_corner_first (h : a ≠ b) :
    assign (corner a b k x y) a z = corner a b k z y := by
  rw [corner, corner, assign_comm h, assign_assign, assign_comm h]

theorem assign_corner_second : assign (corner a b k x y) b z = corner a b k x z := by
  rw [corner, corner, assign_assign]

end Corner

theorem block_self (ψ : Nat → ℂ) (k : Nat) :
    block a b ψ k (k.testBit a) (k.testBit b) = ψ k := by
  rw [block, corner, assign_testBit, assign_testBit]

theorem swap_on_eq_block (h : a ≠ b) (ψ : Nat → ℂ) (k : Nat) :
    (BaseGate.swap.exact boxes).on [a, b] ψ k = block a b ψ k (k.testBit b) (k.testBit a) := by
  rw [swap_on h, exchanged, block, corner, assign_comm h]

/-- A known state of the first wire splits off. -/
theorem Factors.block_first {ψ : Nat → ℂ} {s : BasisState} (h : a ≠ b) (hs : Factors ψ a s)
    (k : Nat) : ∃ f : Bool → ℂ, ∀ x y, block a b ψ k x y = s.amp x * f y := by
  obtain ⟨rest, hrest, hψ⟩ := hs
  refine ⟨fun y => rest (corner a b k false y), ?_⟩
  intro x y
  rw [block, hψ, testBit_corner_first k x y h, ← hrest (corner a b k x y) false,
    assign_corner_first k x y false h]

theorem Factors.block_second {ψ : Nat → ℂ} {r : BasisState} (hr : Factors ψ b r) (k : Nat) :
    ∃ f : Bool → ℂ, ∀ x y, block a b ψ k x y = r.amp y * f x := by
  obtain ⟨rest, hrest, hψ⟩ := hr
  refine ⟨fun x => rest (corner a b k x false), ?_⟩
  intro x y
  rw [block, hψ, testBit_corner_second k x y, ← hrest (corner a b k x y) false,
    assign_corner_second k x y false]

theorem BasisState.amp_norm {s : BasisState} (h : s ≠ .unknown) :
    (s.amp false * s.amp false + s.amp true * s.amp true : ℂ) = 1 := by
  have hhalf := rootHalf_mul_self
  cases s with
  | unknown => exact absurd rfl h
  | plus =>
    simp only [amp, hhalf]
    norm_num
  | minus =>
    simp only [amp, neg_mul_neg, hhalf]
    norm_num
  | _ => simp [amp]

theorem BasisState.amp_flipBit {s : BasisState} (h : s.isClassical) (x : Bool) :
    (s.amp (!x) : ℂ) = (Transfer.flipBit s).amp x := by
  cases s <;> cases x <;> simp_all [isClassical, bit?, Transfer.flipBit, amp]

theorem BasisState.amp_flipPhase {s : BasisState} (h : ¬ s.isClassical) (x : Bool) :
    ((bif x then -1 else 1) * s.amp x : ℂ) = (Transfer.flipPhase s).amp x := by
  cases s <;> cases x <;> simp_all [isClassical, bit?, Transfer.flipPhase, amp]

theorem BasisState.amp_changeBasis (s : BasisState) (x : Bool) :
    (rootHalf * (s.amp false + (bif x then -1 else 1) * s.amp true) : ℂ) =
      (Transfer.changeBasis s).amp x := by
  have hhalf := rootHalf_mul_self
  have hsum : (rootHalf : ℂ) * (rootHalf + rootHalf) = 1 := by linear_combination 2 * hhalf
  cases s <;> cases x <;> simp [Transfer.changeBasis, amp, hsum]

/-- Two known states together leave one number open. -/
theorem product_of_split {F : Bool → Bool → ℂ} {s r : BasisState} (hs : s ≠ .unknown)
    {f g : Bool → ℂ} (hf : ∀ x y, F x y = s.amp x * f y) (hg : ∀ x y, F x y = r.amp y * g x) :
    ∃ γ, ∀ x y, F x y = s.amp x * r.amp y * γ := by
  have hnorm := BasisState.amp_norm hs
  refine ⟨s.amp false * g false + s.amp true * g true, ?_⟩
  intro x y
  have hfy : f y = r.amp y * (s.amp false * g false + s.amp true * g true) := by
    have h₀ := (hf false y).symm.trans (hg false y)
    have h₁ := (hf true y).symm.trans (hg true y)
    linear_combination -f y * hnorm + s.amp false * h₀ + s.amp true * h₁
  rw [hf, hfy]
  ring

namespace Swaps

/-- The wire that has a role. -/
def Role.wire (a b : Wire) : Role → Wire
  | .top => a
  | .bottom => b

namespace Step

def wires (a b : Wire) : Step → List Wire
  | .x r => [r.wire a b]
  | .z r => [r.wire a b]
  | .h r => [r.wire a b]
  | .halfSwap r q => [r.wire a b, q.wire a b]

/-- The wires of the step are different. -/
def isProper : Step → Bool
  | .halfSwap r q => r ≠ q
  | _ => true

/-- What a step does to the amplitudes of the two wires. -/
noncomputable def effect (F : Bool → Bool → ℂ) (x y : Bool) : Step → ℂ
  | .x .top => F (!x) y
  | .x .bottom => F x (!y)
  | .z .top => (bif x then -1 else 1) * F x y
  | .z .bottom => (bif y then -1 else 1) * F x y
  | .h .top => rootHalf * (F false y + (bif x then -1 else 1) * F true y)
  | .h .bottom => rootHalf * (F x false + (bif y then -1 else 1) * F x true)
  | .halfSwap .top .bottom => F y (x ^^ y)
  | .halfSwap .bottom .top => F (x ^^ y) x
  | .halfSwap _ _ => F x y

/-- What a step makes of two known states, as far as this is exact. -/
def send : Step → BasisState × BasisState → Option (BasisState × BasisState)
  | .x .top, (s, r) => if s.isClassical then some (Transfer.flipBit s, r) else none
  | .x .bottom, (s, r) => if r.isClassical then some (s, Transfer.flipBit r) else none
  | .z .top, (s, r) => if s.isClassical then none else some (Transfer.flipPhase s, r)
  | .z .bottom, (s, r) => if r.isClassical then none else some (s, Transfer.flipPhase r)
  | .h .top, (s, r) => some (Transfer.changeBasis s, r)
  | .h .bottom, (s, r) => some (s, Transfer.changeBasis r)
  | .halfSwap _ _, _ => none

theorem block_effect (h : a ≠ b) {st : Step} (hp : st.isProper) (ψ : Nat → ℂ) (k : Nat)
    (x y : Bool) :
    block a b ((st.gate.exact boxes false).on (st.wires a b) ψ) k x y =
      st.effect (block a b ψ k) x y := by
  have hfirst := testBit_corner_first k x y h
  have hsecond : (corner a b k x y).testBit b = y := testBit_corner_second k x y
  have hputa := fun x y z => assign_corner_first k x y z h
  have hputb : ∀ x y z, assign (corner a b k x y) b z = corner a b k x z :=
    fun x y z => assign_corner_second k x y z
  cases st with
  | x r =>
    cases r with
    | top =>
      change (BaseGate.x.exact boxes).on [a] ψ (corner a b k x y) = ψ (corner a b k (!x) y)
      rw [x_on, hfirst, hputa]
    | bottom =>
      change (BaseGate.x.exact boxes).on [b] ψ (corner a b k x y) = ψ (corner a b k x (!y))
      rw [x_on, hsecond, hputb]
  | z r =>
    cases r with
    | top =>
      change (BaseGate.z.exact boxes).on [a] ψ (corner a b k x y) = _
      rw [z_on, hfirst]
      cases x <;> simp [effect, block]
    | bottom =>
      change (BaseGate.z.exact boxes).on [b] ψ (corner a b k x y) = _
      rw [z_on, hsecond]
      cases y <;> simp [effect, block]
  | h r =>
    cases r with
    | top =>
      change (BaseGate.h.exact boxes).on [a] ψ (corner a b k x y) = _
      rw [h_on, hfirst, hputa, hputa]
      rfl
    | bottom =>
      change (BaseGate.h.exact boxes).on [b] ψ (corner a b k x y) = _
      rw [h_on, hsecond, hputb, hputb]
      rfl
  | halfSwap r q =>
    cases r with
    | top =>
      cases q with
      | top => cases hp
      | bottom =>
        change (Gate.halfSwap.exact boxes false).on [a, b] ψ (corner a b k x y) =
          ψ (corner a b k y (x ^^ y))
        rw [halfSwap_on h, hfirst, hsecond, hputb, hputa]
    | bottom =>
      cases q with
      | bottom => cases hp
      | top =>
        change (Gate.halfSwap.exact boxes false).on [b, a] ψ (corner a b k x y) =
          ψ (corner a b k (x ^^ y) x)
        rw [halfSwap_on (Ne.symm h), hfirst, hsecond, hputa, hputb, Bool.xor_comm]

/-- The effect of a step on two known states is that of the states it makes of them. -/
theorem effect_send {st : Step} {s r s' r' : BasisState} (h : st.send (s, r) = some (s', r'))
    (γ : ℂ) (x y : Bool) :
    st.effect (fun x y => s.amp x * r.amp y * γ) x y = s'.amp x * r'.amp y * γ := by
  cases st with
  | x q =>
    cases q with
    | top =>
      simp only [send, Option.ite_none_right_eq_some, Option.some.injEq, Prod.mk.injEq] at h
      obtain ⟨hc, rfl, rfl⟩ := h
      simp only [effect, BasisState.amp_flipBit hc]
    | bottom =>
      simp only [send, Option.ite_none_right_eq_some, Option.some.injEq, Prod.mk.injEq] at h
      obtain ⟨hc, rfl, rfl⟩ := h
      simp only [effect, BasisState.amp_flipBit hc]
  | z q =>
    cases q with
    | top =>
      simp only [send, Option.ite_none_left_eq_some, Option.some.injEq, Prod.mk.injEq] at h
      obtain ⟨hc, rfl, rfl⟩ := h
      rw [effect, ← BasisState.amp_flipPhase hc]
      ring
    | bottom =>
      simp only [send, Option.ite_none_left_eq_some, Option.some.injEq, Prod.mk.injEq] at h
      obtain ⟨hc, rfl, rfl⟩ := h
      rw [effect, ← BasisState.amp_flipPhase hc]
      ring
  | h q =>
    cases q with
    | top =>
      obtain ⟨rfl, rfl⟩ := Prod.mk.inj (Option.some.inj h)
      rw [effect, ← BasisState.amp_changeBasis]
      ring
    | bottom =>
      obtain ⟨rfl, rfl⟩ := Prod.mk.inj (Option.some.inj h)
      rw [effect, ← BasisState.amp_changeBasis]
      ring
  | halfSwap q q' => cases h

end Step

/-- What steps, one after the other, do to the amplitudes of the two wires. -/
noncomputable def runSteps (steps : List Step) (F : Bool → Bool → ℂ) : Bool → Bool → ℂ :=
  steps.foldl (fun F st x y => st.effect F x y) F

theorem block_playOps (h : a ≠ b) {steps : List Step} (hp : ∀ st ∈ steps, st.isProper)
    (ψ : Nat → ℂ) (k : Nat) :
    block a b (playOps boxes (steps.map fun st => ⟨st.gate, st.wires a b⟩) ψ) k =
      runSteps steps (block a b ψ k) := by
  induction steps generalizing ψ with
  | nil => rfl
  | cons st steps ih =>
    have hstep : block a b ((st.gate.exact boxes false).on (st.wires a b) ψ) k =
        fun x y => st.effect (block a b ψ k) x y := by
      funext x y
      exact st.block_effect h (hp st (by simp)) ψ k x y
    rw [List.map_cons, playOps_cons, ih fun q hq => hp q (by simp [hq]), hstep]
    rfl

theorem runSteps_send {steps : List Step} {p q : BasisState × BasisState}
    (h : steps.foldlM (fun p st => st.send p) p = some q) (γ : ℂ) (x y : Bool) :
    runSteps steps (fun x y => p.1.amp x * p.2.amp y * γ) x y = q.1.amp x * q.2.amp y * γ := by
  induction steps generalizing p with
  | nil =>
    obtain rfl := Option.some.inj h
    rfl
  | cons st steps ih =>
    rw [List.foldlM_cons] at h
    obtain ⟨⟨s, r⟩, hst, h⟩ := Option.bind_eq_some_iff.mp h
    have hstep : (fun x y => st.effect (fun x y => p.1.amp x * p.2.amp y * γ) x y) =
        fun x y => s.amp x * r.amp y * γ := by
      funext x y
      exact Step.effect_send hst γ x y
    have hrun := ih h
    rw [← hstep] at hrun
    exact hrun

/-- The pair as the roles see it. -/
def arranged {α : Type} : Orientation → α × α → α × α
  | .same, p => p
  | .exchanged, p => (p.2, p.1)

/-- The replacement for two known states takes each of them to the other. -/
theorem lookup_send {s r : BasisState} (hs : s ≠ .unknown) (hr : r ≠ .unknown) (hne : s ≠ r)
    {steps : List Step} {o : Orientation} (h : lookup? s r = some (steps, o)) :
    steps.foldlM (fun p st => st.send p) (arranged o (s, r)) = some (arranged o (r, s)) := by
  cases s <;> cases r <;> first | contradiction | (cases h; rfl)

/-- The replacement for a known state on the second wire moves it to the first, and whatever is on
the first to the second. -/
theorem lookup_unknown {r : BasisState} {steps : List Step} {o : Orientation}
    (h : lookup? .unknown r = some (steps, o)) {F : Bool → Bool → ℂ} {f : Bool → ℂ}
    (hF : ∀ x y, F x y = r.amp y * f x) (x y : Bool) : runSteps steps F x y = F y x := by
  cases r with
  | zero =>
    cases h
    change F (x ^^ y) x = F y x
    rw [hF, hF]
    cases x <;> simp [BasisState.amp]
  | one =>
    cases h
    change F (!(x ^^ y)) x = F y x
    rw [hF, hF]
    cases x <;> simp [BasisState.amp]
  | plus =>
    cases h
    change F y (x ^^ y) = F y x
    rw [hF, hF]
    rfl
  | minus =>
    cases h
    change (bif y then -1 else 1) * F y (x ^^ y) = F y x
    rw [hF, hF]
    cases x <;> cases y <;> simp [BasisState.amp]
  | unknown => cases h

/-- Every replacement exchanges what is on the two wires. -/
theorem lookup_exchanges {s r : BasisState} (hne : s ≠ r) {steps : List Step} {o : Orientation}
    (h : lookup? s r = some (steps, o)) {F : Bool → Bool → ℂ}
    (hfirst : (arranged o (s, r)).1 ≠ .unknown →
      ∃ f : Bool → ℂ, ∀ x y, F x y = (arranged o (s, r)).1.amp x * f y)
    (hsecond : (arranged o (s, r)).2 ≠ .unknown →
      ∃ f : Bool → ℂ, ∀ x y, F x y = (arranged o (s, r)).2.amp y * f x)
    (x y : Bool) : runSteps steps F x y = F y x := by
  by_cases hs : s = .unknown
  · subst hs
    have ho : o = .same := by cases r <;> cases h <;> rfl
    subst ho
    obtain ⟨f, hf⟩ := hsecond (Ne.symm hne)
    exact lookup_unknown h hf x y
  · by_cases hr : r = .unknown
    · subst hr
      have ho : o = .exchanged ∧ lookup? .unknown s = some (steps, .same) := by
        cases s <;> cases h <;> exact ⟨rfl, rfl⟩
      obtain ⟨rfl, hlookup⟩ := ho
      obtain ⟨f, hf⟩ := hsecond hs
      exact lookup_unknown hlookup hf x y
    · have hknown : (arranged o (s, r)).1 ≠ .unknown ∧ (arranged o (s, r)).2 ≠ .unknown := by
        cases o
        · exact ⟨hs, hr⟩
        · exact ⟨hr, hs⟩
      have hflip : arranged o (r, s) = ((arranged o (s, r)).2, (arranged o (s, r)).1) := by
        cases o <;> rfl
      obtain ⟨f, hf⟩ := hfirst hknown.1
      obtain ⟨g, hg⟩ := hsecond hknown.2
      obtain ⟨γ, hγ⟩ := product_of_split hknown.1 hf hg
      have hrun := runSteps_send (lookup_send hs hr hne h) γ x y
      have hF : F = fun x y => (arranged o (s, r)).1.amp x * (arranged o (s, r)).2.amp y * γ := by
        funext x y
        exact hγ x y
      rw [hγ y x, hF, hrun, hflip]
      ring

theorem isProper_of_lookup {s r : BasisState} {steps : List Step} {o : Orientation}
    (h : lookup? s r = some (steps, o)) : ∀ st ∈ steps, st.isProper := by
  cases s <;> cases r <;> cases h <;> decide

theorem lookup_isSome {s r : BasisState} (hne : s ≠ r) : (lookup? s r).isSome := by
  cases s <;> cases r <;> first | contradiction | rfl

/-- All that a decision on a swap can be. -/
theorem reduce_cases {node : NodeId} {wires : List Wire} {t : Tracking} {d : Decision}
    (h : reduce node wires t = .ok d) :
    ∃ top bottom s r, wires = [top, bottom] ∧ t.get? top = some s ∧ t.get? bottom = some r ∧
      ((s = r ∧ s = .unknown ∧ d.reduction = .keep) ∨
      (s = r ∧ s ≠ .unknown ∧ d.reduction = .remove) ∨
      (s ≠ r ∧ ∃ steps o, lookup? s r = some (steps, o) ∧
        d.reduction = .substitute ⟨2, steps.map (·.op o)⟩ [top, bottom])) := by
  unfold reduce at h
  split at h
  next top bottom =>
    obtain ⟨s, hs, h⟩ := except_bind_eq_ok.mp h
    obtain ⟨r, hr, h⟩ := except_bind_eq_ok.mp h
    cases h
    refine ⟨top, bottom, s, r, rfl, Tracking.look_eq_ok hs, Tracking.look_eq_ok hr, ?_⟩
    unfold Swaps.decide
    split
    next he =>
      split
      next hu => exact Or.inl ⟨he, hu, rfl⟩
      next hu => exact Or.inr (Or.inl ⟨he, hu, rfl⟩)
    next hne =>
      split
      next steps o hl => exact Or.inr (Or.inr ⟨hne, steps, o, hl, rfl⟩)
      next hl =>
        have hsome := lookup_isSome hne
        rw [hl] at hsome
        cases hsome
  next => cases h

theorem op_onto {st : Step} (o : Orientation) (top bottom : Wire) :
    (st.op o).onto [top, bottom] =
      ⟨st.gate, st.wires (arranged o (top, bottom)).1 (arranged o (top, bottom)).2⟩ := by
  have hrole : ∀ r : Role, [top, bottom].getD (r.operand o) 0 =
      r.wire (arranged o (top, bottom)).1 (arranged o (top, bottom)).2 := by
    intro r
    cases r <;> cases o <;> rfl
  cases st <;> simp [Step.op, Step.operands, Operation.onto, Step.wires, ← hrole]

theorem op_fits {st : Step} (hp : st.isProper) (o : Orientation) : (st.op o).Fits 2 := by
  have hlt : ∀ r : Role, r.operand o < 2 := by
    intro r
    cases r <;> cases o <;> decide
  cases st with
  | halfSwap r q =>
    refine ⟨rfl, ?_, ?_⟩
    · cases r <;> cases q <;> cases o <;> first | decide | cases hp
    · intro w hw
      rcases List.mem_cons.mp hw with rfl | hw
      · exact hlt r
      · rw [List.mem_singleton.mp hw]
        exact hlt q
  | _ r =>
    refine ⟨rfl, List.nodup_singleton _, ?_⟩
    intro w hw
    rw [List.mem_singleton.mp hw]
    exact hlt r

theorem gate_ne_reset (st : Step) : st.gate ≠ .reset := by
  cases st <;> simp [Step.gate]

section Node

variable {top bottom : Wire} {s r : BasisState} {ψ : Nat → ℂ}

/-- Two wires in the same known state may be exchanged freely. -/
theorem swap_eq_self (h : top ≠ bottom) (hs : s ≠ .unknown) (htop : Factors ψ top s)
    (hbottom : Factors ψ bottom s) (k : Nat) :
    (BaseGate.swap.exact boxes).on [top, bottom] ψ k = ψ k := by
  obtain ⟨f, hf⟩ := htop.block_first h k
  obtain ⟨g, hg⟩ := hbottom.block_second k
  obtain ⟨γ, hγ⟩ := product_of_split hs hf hg
  have hsym : block top bottom ψ k (k.testBit bottom) (k.testBit top) =
      block top bottom ψ k (k.testBit top) (k.testBit bottom) := by
    rw [hγ, hγ]
    ring
  rw [swap_on_eq_block h, hsym, block_self]

theorem substitute_eq_swap (h : top ≠ bottom) (hne : s ≠ r)
    (htop : s ≠ .unknown → Factors ψ top s) (hbottom : r ≠ .unknown → Factors ψ bottom r)
    {steps : List Step} {o : Orientation} (hl : lookup? s r = some (steps, o)) (k : Nat) :
    playOps boxes ((steps.map (·.op o)).map (·.onto [top, bottom])) ψ k =
      (BaseGate.swap.exact boxes).on [top, bottom] ψ k := by
  have hops : (steps.map (·.op o)).map (·.onto [top, bottom]) = steps.map fun st =>
      ⟨st.gate, st.wires (arranged o (top, bottom)).1 (arranged o (top, bottom)).2⟩ := by
    rw [List.map_map]
    exact List.map_congr_left fun st _ => op_onto o top bottom
  -- the roles see the two wires in one order or in the other
  have hroles : ∀ a b, a ≠ b → arranged o (top, bottom) = (a, b) →
      ((arranged o (s, r)).1 ≠ .unknown → Factors ψ a (arranged o (s, r)).1) →
      ((arranged o (s, r)).2 ≠ .unknown → Factors ψ b (arranged o (s, r)).2) →
      playOps boxes ((steps.map (·.op o)).map (·.onto [top, bottom])) ψ k =
        (BaseGate.swap.exact boxes).on [a, b] ψ k := by
    intro a b hab harr ha hb
    rw [harr] at hops
    have hblock : block a b (playOps boxes (steps.map fun st => ⟨st.gate, st.wires a b⟩) ψ) k =
        runSteps steps (block a b ψ k) := block_playOps hab (isProper_of_lookup hl) ψ k
    have hrun := lookup_exchanges hne hl (fun hk => (ha hk).block_first hab k)
      (fun hk => (hb hk).block_second k) (k.testBit a) (k.testBit b)
    rw [hops, swap_on_eq_block hab, ← hrun, ← hblock, block_self]
  cases o with
  | same => exact hroles top bottom h rfl htop hbottom
  | exchanged =>
    rw [hroles bottom top (Ne.symm h) rfl hbottom htop, swap_on (Ne.symm h), swap_on h,
      exchanged_comm h]

/-- The operations in the place of a swap do exactly what the swap does, without a sign. -/
theorem reduce_exact {node : NodeId} {wires : List Wire} {t : Tracking} {d : Decision}
    (h : reduce node wires t = .ok d) (hn : wires.Nodup)
    (ht : ∀ w ∈ wires, ∀ s, t.get? w = some s → s ≠ .unknown → Factors ψ w s) :
    playOps boxes (d.reduction.result ⟨.base .swap, wires⟩) ψ =
      (BaseGate.swap.exact boxes).on wires ψ := by
  obtain ⟨top, bottom, s, r, rfl, hs, hr, hd⟩ := reduce_cases h
  have hne : top ≠ bottom := by simpa using hn
  have htop := ht top (by simp) s hs
  have hbottom := ht bottom (by simp) r hr
  funext k
  rcases hd with ⟨_, _, hd⟩ | ⟨rfl, hk, hd⟩ | ⟨hsr, steps, o, hl, hd⟩
  · rw [hd]
    rfl
  · rw [hd]
    exact (swap_eq_self hne hk (htop hk) (hbottom hk) k).symm
  · rw [hd]
    exact substitute_eq_swap hne hsr htop hbottom hl k

/-- Every decision on a swap leaves operations that do the same. -/
theorem reduce_faithful {node : NodeId} {wires : List Wire} {t : Tracking} {d : Decision} {n : Nat}
    (h : reduce node wires t = .ok d) (hfits : (Operation.mk (.base .swap) wires).Fits n)
    (ht : t.Describes ψ) : d.reduction.Faithful boxes n ⟨.base .swap, wires⟩ ψ := by
  have hexact : playOps boxes (d.reduction.result ⟨.base .swap, wires⟩) ψ =
      (BaseGate.swap.exact boxes).on wires ψ :=
    reduce_exact h hfits.nodup fun w _ s => ht w s
  have hsame : ∀ k, playOps boxes (d.reduction.result ⟨.base .swap, wires⟩) ψ k =
      1 * (BaseGate.swap.exact boxes).on wires ψ k := by
    intro k
    rw [hexact, one_mul]
  obtain ⟨top, bottom, s, r, rfl, _, _, hd⟩ := reduce_cases h
  rcases hd with ⟨_, _, hd⟩ | ⟨_, _, hd⟩ | ⟨_, steps, o, hl, hd⟩
  · rw [hd]
    exact Reduction.keep_faithful hfits (by simp)
  · rw [hd] at hsame ⊢
    exact Reduction.remove_faithful (Or.inl rfl) hsame
  · have hproper := isProper_of_lookup hl
    have hops : ∀ op ∈ steps.map (·.op o), op.Fits 2 ∧ op.gate ≠ .reset := by
      intro op hop
      obtain ⟨st, hst, rfl⟩ := List.mem_map.mp hop
      exact ⟨op_fits (hproper st hst) o, gate_ne_reset st⟩
    rw [hd] at hsame ⊢
    refine ⟨?_, ?_, ?_, 1, Or.inl rfl, hsame⟩
    · intro f ws hf
      obtain ⟨rfl, rfl⟩ := Reduction.substitute.inj hf
      exact fun op hop => (hops op hop).1
    · intro op hop
      obtain ⟨op', hop', rfl⟩ := List.mem_map.mp hop
      obtain ⟨hlen, hnodup, hin⟩ := (hops op' hop').1.onto hfits.nodup
      exact ⟨hlen, hnodup, fun w hw => hfits.lt_width w (hin w hw)⟩
    · intro op hop
      obtain ⟨op', hop', rfl⟩ := List.mem_map.mp hop
      exact (hops op' hop').2

end Node

end Swaps

namespace Tracking

theorem set_eq_self {t : Tracking} {w : Wire} {s : BasisState} (h : t.get? w = some s) :
    t.set w s = t := by
  have hstates : t.states.set w s = t.states := by
    apply List.ext_getElem?
    intro v
    by_cases hv : w = v
    · subst v
      have hw : w < t.states.length := (get?_isSome_iff t w).mp (by simp [h])
      rw [List.getElem?_set_self hw]
      exact h.symm
    · rw [List.getElem?_set_ne hv]
  simp only [set, hstates]

theorem exchange_eq_self {t : Tracking} {a b : Wire} {s : BasisState} (ha : t.get? a = some s)
    (hb : t.get? b = some s) : t.exchange a b = t := by
  simp only [exchange, ha, hb, set_eq_self]

end Tracking

end BasisFlow
