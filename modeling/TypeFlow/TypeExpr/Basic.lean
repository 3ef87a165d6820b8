import TypeFlow.Text.Utf8

/-!
# Written types

A type as it is written in a tree: a possibly qualified and possibly generic name, a union of
alternatives, or `self`. `TypeTerm ν` is the shape over names of any kind; trees use `TypeExpr`,
whose names are texts.

`TypeTerm.pieces` is the written form as a sequence of names and punctuation, so that the same
printer serves texts (`TypeExpr.render`) and byte sequences (`TypeTerm.renderBytes`).
-/

namespace TypeFlow

/-- A written type over names of kind `ν`. -/
inductive TypeTerm (ν : Type) where
  /-- A name, segment by segment, with its type arguments. -/
  | named (segments : List ν) (args : List (TypeTerm ν))
  /-- Alternatives `A | B`. -/
  | union (alternatives : List (TypeTerm ν))
  /-- The type of the receiver. -/
  | self
  deriving Inhabited

/-- A written type whose names are texts. -/
abbrev TypeExpr := TypeTerm String

namespace TypeTerm

variable {ν μ : Type}

mutual

/-- Renames every segment. -/
def map (f : ν → μ) : TypeTerm ν → TypeTerm μ
  | .named segments args => .named (segments.map f) (mapList f args)
  | .union alternatives => .union (mapList f alternatives)
  | .self => .self

/-- Renames every segment of every term. -/
def mapList (f : ν → μ) : List (TypeTerm ν) → List (TypeTerm μ)
  | [] => []
  | t :: rest => map f t :: mapList f rest

end

/-- A part of a written type: a name, or punctuation. -/
inductive Piece (ν : Type) where
  | name (n : ν)
  | mark (s : String)

mutual

/-- The written form, part by part. -/
def pieces : TypeTerm ν → List (Piece ν)
  | .self => [.mark "self"]
  | .union alternatives => piecesSep " | " alternatives
  | .named segments args =>
    let head := (segments.map fun n => [Piece.name n]).intersperse [.mark "::"]
    match args with
    | [] => head.flatten
    | arg :: rest =>
      head.flatten ++ Piece.mark "(" :: (piecesSep ", " (arg :: rest) ++ [Piece.mark ")"])

/-- The written forms of several terms with a separator between them. -/
def piecesSep (sep : String) : List (TypeTerm ν) → List (Piece ν)
  | [] => []
  | [t] => pieces t
  | t :: u :: rest => pieces t ++ Piece.mark sep :: piecesSep sep (u :: rest)

end

/-- The written form as bytes. -/
def renderBytes (t : TypeTerm (List UInt8)) : List UInt8 :=
  t.pieces.flatMap fun
    | .name n => n
    | .mark s => Text.bytes s

end TypeTerm

namespace TypeExpr

/-- The written form of a type, the normal form of its spellings. -/
def render (t : TypeExpr) : String :=
  String.join <| (TypeTerm.pieces t).map fun
    | .name n => n
    | .mark s => s

/-- The name of a type that is a single segment without arguments. -/
def single? : TypeExpr → Option String
  | .named [name] [] => some name
  | _ => none

/-- A plain type name. -/
def ofName (name : String) : TypeExpr :=
  .named [name] []

end TypeExpr

end TypeFlow
