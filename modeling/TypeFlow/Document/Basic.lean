/-!
# Documents

The data behind a YAML text: scalars, sequences and mappings. `Node π` carries a `π` at every node:
a reader leaves the position there, a writer needs nothing.

A scalar knows whether it was written plainly. Only a plain scalar can stand for something other
than its text (`Document/Scalar.lean`).
-/

namespace TypeFlow.Document

/-- A place in a document, line and column counted from one, the column in characters. -/
structure Position where
  line : Nat
  column : Nat
  deriving DecidableEq, Repr, Inhabited

/-- How a scalar is written. -/
inductive Style where
  /-- Without quotes, so that its text decides what it means. -/
  | plain
  /-- In quotes or as a block, so that it is a text whatever it holds. -/
  | quoted
  deriving DecidableEq, Repr, Inhabited

/-- A node of a document, with a `π` at every node. -/
inductive Node (π : Type) where
  | scalar (mark : π) (style : Style) (text : String)
  | sequence (mark : π) (items : List (Node π))
  | mapping (mark : π) (entries : List (Node π × Node π))
  deriving Inhabited

namespace Node

variable {π : Type}

/-- What a node carries. -/
def mark : Node π → π
  | .scalar m _ _ => m
  | .sequence m _ => m
  | .mapping m _ => m

/-- The text of a scalar; a collection has none. -/
def text : Node π → String
  | .scalar _ _ s => s
  | _ => ""

/-- Whether two nodes are both scalars, both sequences or both mappings. -/
def sameSort : Node π → Node π → Bool
  | .scalar .., .scalar .. => true
  | .sequence .., .sequence .. => true
  | .mapping .., .mapping .. => true
  | _, _ => false

mutual

/-- The number of collections that nest at the deepest point, plus one. -/
def depth : Node π → Nat
  | .scalar _ _ _ => 1
  | .sequence _ items => depthList items + 1
  | .mapping _ entries => depthEntries entries + 1

/-- The greatest depth of a list of nodes. -/
def depthList : List (Node π) → Nat
  | [] => 0
  | n :: rest => max (depth n) (depthList rest)

/-- The greatest depth of the keys and values of a mapping. -/
def depthEntries : List (Node π × Node π) → Nat
  | [] => 0
  | e :: rest => max (depthEntry e) (depthEntries rest)

/-- The greater depth of a key and its value. -/
def depthEntry : Node π × Node π → Nat
  | (k, v) => max (depth k) (depth v)

end

end Node

end TypeFlow.Document
