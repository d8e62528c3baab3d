import BasisFlow.Circuit.Order

namespace BasisFlow

namespace Drawing

/-- A value is written as it is or between quotes. -/
inductive Value where
  | word (text : String)
  | quoted (text : String)
  deriving DecidableEq

structure Attribute where
  key : String
  value : Value
  deriving DecidableEq

structure Vertex where
  id : Nat
  attributes : List Attribute
  deriving DecidableEq

/-- A statement of a graph in the dot language, as far as circuits need it. -/
inductive Statement where
  | defaults (kind : String) (attributes : List Attribute)
  | group (attributes : List Attribute) (vertices : List Vertex)
  | vertex (v : Vertex)
  | edge (tail head : Nat)
  deriving DecidableEq

def Value.render : Value → String
  | .word text => text
  | .quoted text => Text.stringLiteral text

def Attribute.render (a : Attribute) : String :=
  a.key ++ "=" ++ a.value.render ++ ";"

def renderAttributes (attributes : List Attribute) : String :=
  "[" ++ String.join (attributes.map Attribute.render) ++ "]"

def Vertex.render (v : Vertex) : String :=
  toString v.id ++ renderAttributes v.attributes ++ ";"

def renderDefaults (kind : String) (attributes : List Attribute) : String :=
  kind ++ " " ++ renderAttributes attributes ++ ";"

def Statement.render : Statement → String
  | .defaults kind attributes => renderDefaults kind attributes
  | .group attributes vertices =>
    "\x7b" ++ renderDefaults "graph" attributes ++ String.join (vertices.map Vertex.render) ++
      "\x7d;"
  | .vertex v => v.render
  | .edge tail head => toString tail ++ "--" ++ toString head ++ ";"

def render (statements : List Statement) : String :=
  "graph \"\"\x7b" ++ String.join (statements.map Statement.render) ++ "\x7d"

def word (key text : String) : Attribute :=
  ⟨key, .word text⟩

def quoted (key text : String) : Attribute :=
  ⟨key, .quoted text⟩

/-- The fill colours of boxes. -/
def gateColor : String := "#facd73ff"

def controlledColor : String := "#7396faff"

def swapColor : String := "#e6737dff"

def resetColor : String := "#bebebeff"

def colorOf (g : Gate) : String :=
  match g.kind with
  | .controlled => controlledColor
  | .swap => swapColor
  | .reset => resetColor
  | _ => if g = .halfSwap then swapColor else gateColor

/-- Lines run from left to right, in a small font. -/
def style : List Statement :=
  [.defaults "graph" [word "rankdir" "LR"],
   .defaults "node" [quoted "fontname" "DejaVu Sans", word "fontsize" "10", word "margin" "0.05"]]

/-- The label at one end of a wire. -/
def terminal (id : Nat) (w : Wire) : Vertex :=
  ⟨id, [quoted "label" ("q" ++ toString w), word "shape" "plaintext"]⟩

def box (id : Nat) (g : Gate) (label : String) : Vertex :=
  ⟨id, [quoted "label" label, word "shape" "rectangle", word "height" "0.25",
    word "style" "filled", quoted "fillcolor" (colorOf g)]⟩

/-- The edges along a path of vertices. -/
def path : List Nat → List Statement
  | a :: b :: rest => .edge a b :: path (b :: rest)
  | _ => []

end Drawing

namespace Circuit

open Drawing

/-- The vertex of a node: inputs and outputs take the first numbers, two for each wire. -/
def vertexOf (c : Circuit) (id : NodeId) : Nat :=
  2 * c.width + id

def inputs (c : Circuit) : Statement :=
  .group [word "rank" "source"] ((List.range c.width).map fun w => terminal w w)

def outputs (c : Circuit) : Statement :=
  .group [word "rank" "sink"] ((List.range c.width).map fun w => terminal (c.width + w) w)

def boxOf (c : Circuit) (id : NodeId) (n : Node) : Except Fault Statement := do
  let label ← n.gate.label
  return .vertex (box (c.vertexOf id) n.gate label)

/-- The line of a wire through its nodes from input to output. -/
def wirePath (c : Circuit) (w : Wire) : List Statement :=
  path (w :: (c.lane w).map c.vertexOf ++ [c.width + w])

/-- The drawing of a circuit: style, ends of wires, nodes in the order of creation, and then the
lines wire by wire. -/
def drawing (c : Circuit) : Except Fault (List Statement) := do
  let boxes ← c.nodes.mapM fun (id, n) => c.boxOf id n
  return style ++ [c.inputs, c.outputs] ++ boxes ++ (List.range c.width).flatMap c.wirePath

def dotText (c : Circuit) : Except CircuitError String := do
  let statements ← c.drawing.mapError .arithmetic
  return render statements

/-- What a file holds after the drawing is stored in it, given what opening the file comes to. The
drawing is made before the file is opened. -/
def stored (c : Circuit) (opening : Except String Unit) : Except CircuitError String := do
  let text ← c.dotText
  opening.mapError .storage
  return text

end Circuit

end BasisFlow
