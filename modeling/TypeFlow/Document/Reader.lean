import TypeFlow.Document.Token.Lexer

/-!
# Reading documents

Builds the nodes of the first document of a text from its tokens. A mapping in block style stands at
its first key, one in flow style at its brace; a missing value is an empty plain scalar.

`read` gives `none` for a text that is no document at all and `some none` for an empty one.
-/

namespace TypeFlow.Document

namespace Reader

open Scan

/-- An entry of a mapping. -/
abbrev Entry := Node Position × Node Position

/-- An empty plain scalar. -/
def empty (m : Mark) : Node Position :=
  .scalar m.position .plain ""

mutual

/-- Reads a node; `block` says whether block collections may start here, `indentless` whether a
sequence may stand at the indentation of its key. -/
def node (block indentless : Bool) : Nat → Scan (Node Position)
  | 0 => failure
  | fuel + 1 => do
    let t ← peek
    let at' := t.start.position
    match t.lexeme with
    | .blockEntry => if indentless then return .sequence at' (← indentlessItems fuel) else failure
    | .scalar style text =>
      drop
      return .scalar at' style text
    | .flowSequenceStart =>
      drop
      return .sequence at' (← flowItems true fuel)
    | .flowMappingStart =>
      drop
      return .mapping at' (← flowEntries true fuel)
    | .blockSequenceStart =>
      if block then do
        drop
        return .sequence at' (← blockItems fuel)
      else failure
    | .blockMappingStart =>
      if block then do
        drop
        return .mapping at' (← blockEntries fuel)
      else failure
    | _ => failure

/-- Reads a node of a block collection, or an empty one at `mark` if one of `stops` follows. -/
def nodeOr (indentless : Bool) (stops : List Lexeme) (mark : Mark) : Nat → Scan (Node Position)
  | 0 => failure
  | fuel + 1 => do
    if stops.contains (← peek).lexeme then return empty mark else node true indentless fuel

/-- The items of a block sequence. -/
def blockItems : Nat → Scan (List (Node Position))
  | 0 => failure
  | fuel + 1 => do
    let t ← peek
    match t.lexeme with
    | .blockEntry =>
      drop
      let item ← nodeOr false [.blockEntry, .blockEnd] t.stop fuel
      return item :: (← blockItems fuel)
    | .blockEnd =>
      drop
      return []
    | _ => failure

/-- The items of a sequence that stands at the indentation of its key. -/
def indentlessItems : Nat → Scan (List (Node Position))
  | 0 => failure
  | fuel + 1 => do
    let t ← peek
    match t.lexeme with
    | .blockEntry =>
      drop
      let item ← nodeOr false [.blockEntry, .key, .value, .blockEnd] t.stop fuel
      return item :: (← indentlessItems fuel)
    | _ => return []

/-- The entries of a block mapping. -/
def blockEntries : Nat → Scan (List Entry)
  | 0 => failure
  | fuel + 1 => do
    let t ← peek
    match t.lexeme with
    | .key =>
      drop
      let k ← nodeOr true [.key, .value, .blockEnd] t.stop fuel
      let v ← blockValue fuel
      return (k, v) :: (← blockEntries fuel)
    | .blockEnd =>
      drop
      return []
    | _ => failure

/-- The value of a key in a block mapping. -/
def blockValue : Nat → Scan (Node Position)
  | 0 => failure
  | fuel + 1 => do
    let t ← peek
    match t.lexeme with
    | .value =>
      drop
      nodeOr true [.key, .value, .blockEnd] t.stop fuel
    | _ => return empty t.start

/-- The items of a flow sequence from the start or the end of an item on. -/
def flowItems (first : Bool) : Nat → Scan (List (Node Position))
  | 0 => failure
  | fuel + 1 => do
    match (← peek).lexeme, first with
    | .flowSequenceEnd, _ => flowItem fuel
    | .flowEntry, false =>
      drop
      flowItem fuel
    | _, true => flowItem fuel
    | _, false => failure

/-- One item of a flow sequence and those after it, or its end; a key makes its item a mapping of one
entry. -/
def flowItem : Nat → Scan (List (Node Position))
  | 0 => failure
  | fuel + 1 => do
    let t ← peek
    match t.lexeme with
    | .flowSequenceEnd =>
      drop
      return []
    | .key =>
      drop
      let k ← pairKey fuel
      let v ← pairValue fuel
      return .mapping t.start.position [(k, v)] :: (← flowItems false fuel)
    | _ =>
      let item ← node false false fuel
      return item :: (← flowItems false fuel)

/-- The key of a mapping of one entry. -/
def pairKey : Nat → Scan (Node Position)
  | 0 => failure
  | fuel + 1 => do
    let t ← peek
    if [Lexeme.value, .flowEntry, .flowSequenceEnd].contains t.lexeme then
      drop
      return empty t.stop
    else node false false fuel

/-- The value of a mapping of one entry; a missing one stands at the colon. -/
def pairValue : Nat → Scan (Node Position)
  | 0 => failure
  | fuel + 1 => do
    let t ← peek
    match t.lexeme with
    | .value =>
      drop
      if [Lexeme.flowEntry, .flowSequenceEnd].contains (← peek).lexeme then return empty t.start
      else node false false fuel
    | _ => return empty t.start

/-- The entries of a flow mapping from the start or the end of an entry on. -/
def flowEntries (first : Bool) : Nat → Scan (List Entry)
  | 0 => failure
  | fuel + 1 => do
    match (← peek).lexeme, first with
    | .flowMappingEnd, _ => flowEntry fuel
    | .flowEntry, false =>
      drop
      flowEntry fuel
    | _, true => flowEntry fuel
    | _, false => failure

/-- One entry of a flow mapping and those after it, or its end. -/
def flowEntry : Nat → Scan (List Entry)
  | 0 => failure
  | fuel + 1 => do
    match (← peek).lexeme with
    | .flowMappingEnd =>
      drop
      return []
    | .key =>
      drop
      let t ← peek
      let k ←
        if [Lexeme.value, .flowEntry, .flowMappingEnd].contains t.lexeme then pure (empty t.start)
        else node false false fuel
      let v ← flowValue fuel
      return (k, v) :: (← flowEntries false fuel)
    | _ =>
      let k ← node false false fuel
      let v := empty (← peek).start
      return (k, v) :: (← flowEntries false fuel)

/-- The value of a key in a flow mapping; a missing one stands at what follows. -/
def flowValue : Nat → Scan (Node Position)
  | 0 => failure
  | fuel + 1 => do
    let t ← peek
    match t.lexeme with
    | .value =>
      drop
      let t ← peek
      if [Lexeme.flowEntry, .flowMappingEnd].contains t.lexeme then return empty t.start
      else node false false fuel
    | _ => return empty t.start

end

/-- Reads directives: the version at most once and no other than 1.1, and no handle twice. -/
def directives : Nat → Bool → List String → Scan Unit
  | 0, _, _ => failure
  | fuel + 1, versioned, handles => do
    match (← peek).lexeme with
    | .version major minor =>
      if versioned || major != 1 || minor != 1 then failure
      else
        drop
        directives fuel true handles
    | .tagShorthand handle =>
      if handles.contains handle then failure
      else
        drop
        directives fuel versioned (handle :: handles)
    | _ => return ()

/-- The root of the first document, if there is one. -/
def document (fuel : Nat) : Scan (Option (Node Position)) := do
  discard peek
  drop
  match (← peek).lexeme with
  | .streamEnd => return none
  | .documentStart => explicit
  | .version .. => explicit
  | .tagShorthand _ => explicit
  | _ =>
    let root ← node true false fuel
    discard peek
    return some root
where
  /-- A document after its directives and its start marker. -/
  explicit : Scan (Option (Node Position)) := do
    directives fuel false []
    if (← peek).lexeme != .documentStart then failure
    else
      drop
      let t ← peek
      let root ←
        match t.lexeme with
        | .version .. | .tagShorthand _ | .documentStart | .documentEnd | .streamEnd =>
          pure (empty t.start)
        | _ => node true false fuel
      discard peek
      return some root

end Reader

/-- Reads the first document of a text. -/
def read (text : String) : Option (Option (Node Position)) :=
  (Reader.document (6 * text.length + 20) (Queue.ofText text)).map (·.1)

end TypeFlow.Document
