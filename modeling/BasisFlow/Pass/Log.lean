import BasisFlow.Pass

namespace BasisFlow

/-- What a run tells about itself. -/
inductive Event where
  | visit (node : NodeId) (gate : String) (states : List BasisState)
  | remark (node : NodeId) (r : Remark)
  | reduction (node : NodeId) (outcome : Outcome)
  | finished (report : Report)
  deriving DecidableEq

inductive Level where
  | trace
  | debug
  deriving DecidableEq

/-- A line of a log: a message with named values. -/
structure LogLine where
  level : Level
  message : String
  fields : List (String × String)
  deriving DecidableEq

def Level.name : Level → String
  | .trace => "TRACE"
  | .debug => "DEBUG"

def Orientation.name : Orientation → String
  | .same => "Same"
  | .exchanged => "Mirror"

def Outcome.name : Outcome → String
  | .kept => "Kept"
  | .removed => "Removed"
  | .substituted => "Substituted"

def Remark.message : Remark → String
  | .idleTarget => "bit flip on |+> target"
  | .neverFires _ => "control can never fire"
  | .allSatisfied => "phase kickback with every control satisfied"
  | .swapTable _ _ _ => "swap table"

def Remark.fields : Remark → List (String × String)
  | .idleTarget => []
  | .neverFires wire => [("wire", toString wire)]
  | .allSatisfied => []
  | .swapTable top bottom orientation =>
    [("s_top", top.symbol), ("s_bot", bottom.symbol), ("orientation", orientation.name)]

def Event.line : Event → LogLine
  | .visit node gate states =>
    ⟨.trace, "visit", [("node", toString node), ("gate", gate),
      ("states", Text.bracketed (states.map (·.name)))]⟩
  | .remark node r => ⟨.trace, r.message, ("node", toString node) :: r.fields⟩
  | .reduction node outcome =>
    ⟨.debug, "rewrite", [("node", toString node), ("outcome", outcome.name)]⟩
  | .finished report =>
    ⟨.debug, "constant-state optimization finished",
      [("visited", toString report.visited), ("removed", toString report.removed),
       ("substituted", toString report.substituted), ("kept", toString report.kept)]⟩

/-- Why a run that is logged stops: a visit fails, or the gate to be visited cannot be written. -/
inductive LoggedError where
  | reduction (e : ReductionError)
  | arithmetic (fault : Fault)
  deriving DecidableEq

/-- How a logged run ends, and what it has told until then. -/
structure LoggedWalk where
  last : Progress
  error : Option LoggedError
  events : List Event
  deriving DecidableEq

namespace Progress

/-- The remark of the rule that is switched on for a node that is about to be visited. -/
def remarks (o : Options) (p : Progress) (id : NodeId) (n : Node) : List Event :=
  match o.rule? n.gate.kind with
  | none => []
  | some rule =>
    match rule.find p.circuit id p.states with
    | .ok (some f) => (f.decision.remark.map (Event.remark id)).toList
    | _ => []

/-- The states of the wires of a node that is about to be visited. -/
def statesAt (p : Progress) (n : Node) : List BasisState :=
  n.wires.filterMap p.states.get?

/-- What a visit tells when its node has been dealt with. -/
def outcomeEvents (id : NodeId) (outcome : Outcome) : List Event :=
  if outcome = .kept then [] else [.reduction id outcome]

/-- The same walk as `walk`, told event by event. It also stops before a node whose gate cannot be
written. -/
def loggedWalk (o : Options) (p : Progress) : List NodeId → LoggedWalk
  | [] => ⟨p, none, [.finished p.report]⟩
  | id :: ids =>
    match p.circuit.node? id with
    | none => ⟨p, some (.reduction (.circuit (.missingNode id))), []⟩
    | some n =>
      match n.gate.label with
      | .error fault => ⟨p, some (.arithmetic fault), []⟩
      | .ok label =>
        let told := .visit id label (p.statesAt n) :: p.remarks o id n
        match p.visit o id with
        | .error e => ⟨p, some (.reduction e), told⟩
        | .ok (outcome, next) =>
          let rest := next.loggedWalk o ids
          { rest with events := told ++ outcomeEvents id outcome ++ rest.events }

end Progress

/-- A run together with its log. -/
structure LoggedRun where
  pass : Pass
  circuit : Circuit
  result : Except LoggedError Report
  log : List LogLine

/-- Runs a pass and keeps its log. -/
def Pass.runLogged (p : Pass) (c : Circuit) : LoggedRun :=
  let w := (Progress.start c).loggedWalk p.options c.order
  let log := w.events.map Event.line
  match w.error with
  | none => ⟨⟨p.options, some w.last.states⟩, w.last.circuit, .ok w.last.report, log⟩
  | some e => ⟨⟨p.options, none⟩, w.last.circuit, .error e, log⟩

end BasisFlow
