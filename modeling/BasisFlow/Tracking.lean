import BasisFlow.BasisState
import BasisFlow.Operation

namespace BasisFlow

/-- What is known of every wire of a circuit. -/
structure Tracking where
  states : List BasisState
  deriving DecidableEq

namespace Tracking

/-- All wires start at zero. -/
def initial (width : Nat) : Tracking :=
  ⟨List.replicate width .zero⟩

/-- The states `initial width`, with one byte of storage for every wire. -/
def allocate (width : Nat) : Except Fault Tracking := do
  Word.reserve width 1
  return initial width

def size (t : Tracking) : Nat :=
  t.states.length

def get? (t : Tracking) (w : Wire) : Option BasisState :=
  t.states[w]?

/-- Replaces the state of a wire; there is nothing to replace on a wire that is not tracked. -/
def set (t : Tracking) (w : Wire) (s : BasisState) : Tracking :=
  ⟨t.states.set w s⟩

def forget (t : Tracking) (w : Wire) : Tracking :=
  t.set w .unknown

def forgetAll (t : Tracking) (ws : List Wire) : Tracking :=
  ws.foldl forget t

def transfer (t : Tracking) (w : Wire) (f : Transfer) : Tracking :=
  ⟨t.states.modify w f.apply⟩

/-- Exchanges the states of two wires that are both tracked. -/
def exchange (t : Tracking) (a b : Wire) : Tracking :=
  match t.get? a, t.get? b with
  | some s, some r => (t.set a r).set b s
  | _, _ => t

/-- Forgets a wire unless its state is a bit, which a gate that only adds phases keeps. -/
def dephase (t : Tracking) (w : Wire) : Tracking :=
  match t.get? w with
  | some s => if s.isClassical then t else t.forget w
  | none => t

/-- The effect of a gate without controls. -/
def propagateBase (t : Tracking) (g : BaseGate) (ws : List Wire) : Tracking :=
  match g.kind with
  | .swap =>
    match ws with
    | [a, b] => t.exchange a b
    | _ => t.forgetAll ws
  | .phaseOnly => ws.foldl dephase t
  | _ =>
    match Transfer.ofBase? g, ws with
    | some f, [w] => t.transfer w f
    | _, _ => t.forgetAll ws

/-- The effect of an operation. A gate with controls may entangle all its wires, and one that has
lost its controls acts as its base gate. -/
def propagate (t : Tracking) (op : Operation) : Tracking :=
  match op.gate with
  | .base g => t.propagateBase g op.wires
  | .controlled g p => if p.isEmpty then t.propagateBase g op.wires else t.forgetAll op.wires
  | .reset => op.wires.foldl (fun t w => t.set w .zero) t
  | .halfSwap => t.forgetAll op.wires

def text (t : Tracking) : String :=
  let entry := fun (s, w) => "q" ++ toString w ++ ": " ++ s.symbol
  "\x7b" ++ String.intercalate ", " (t.states.zipIdx.map entry) ++ "\x7d"

/-- A wire whose state was asked for although it is not tracked. -/
structure Untracked where
  wire : Wire
  size : Nat
  deriving DecidableEq

def Untracked.message (e : Untracked) : String :=
  "index out of bounds: the len is " ++ toString e.size ++ " but the index is " ++
    toString e.wire

def read (t : Tracking) (w : Wire) : Except Untracked BasisState :=
  match t.get? w with
  | some s => .ok s
  | none => .error ⟨w, t.size⟩

end Tracking

end BasisFlow
