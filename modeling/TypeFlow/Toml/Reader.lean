import TypeFlow.Toml.Draft
import TypeFlow.Toml.Lexeme

/-!
# Reading settings files

A text is a sequence of statements: a header in single brackets goes to a table, one in double brackets
adds a table to a list, and every other statement gives a key of the current table a value. `Toml.parse?`
is the table of a text, and `none` for a text that is not of this form or that says something twice.
-/

namespace TypeFlow.Toml

/-- The value of a word. -/
def word? (cs : List Char) : Option Value :=
  if cs == ['t', 'r', 'u', 'e'] then some (.boolean true)
  else if cs == ['f', 'a', 'l', 's', 'e'] then some (.boolean false)
  else match integer? cs with
    | some n => some (.integer n)
    | none => if isFiniteFloat cs then some .float else none

/-- Reads a value that is no list and no table. -/
def simple? (cs : List Char) : Option (Value × List Char) :=
  let text (r : Option (List Char × List Char)) : Option (Value × List Char) :=
    r.map fun (s, cs) => (.string (String.ofList s), cs)
  match cs with
  | '"' :: '"' :: '"' :: cs => text (basicLines? (cs.length + 1) (dropFirstLineEnd cs))
  | '\'' :: '\'' :: '\'' :: cs => text (literalLines? (cs.length + 1) (dropFirstLineEnd cs))
  | '"' :: cs => text (basicString? cs)
  | '\'' :: cs => text (literalString? cs)
  | cs =>
    if startsMoment cs then
      let w := cs.takeWhile isMomentChar
      if isMoment (w.reverse.dropWhile (· == ' ')).reverse then some (.moment, cs.drop w.length)
      else none
    else do
      let w := cs.takeWhile (!endsWord ·)
      return (← word? w, cs.drop w.length)

mutual

/-- Reads the value of a key of the table at `context`; `inList` says that it is one of a list. The first
number bounds the steps taken. -/
def value (context : List String) (key : String) (inList : Bool) :
    Nat → List Char → Drafting (Value × List Char)
  | 0, _ => failure
  | fuel + 1, cs => do
    match skipBlanks cs with
    | '[' :: cs =>
      Draft.note context key true
      let (vs, cs) ← items context key fuel cs
      return (.array vs, cs)
    | '{' :: cs =>
      let path := context ++ [key]
      Draft.imply path
      Draft.enter path inList
      let (es, cs) ← pairs path fuel [] cs
      return (.table es, cs)
    | cs => liftM (simple? cs)

/-- Reads the rest of an array. -/
def items (context : List String) (key : String) :
    Nat → List Char → Drafting (List Value × List Char)
  | 0, _ => failure
  | fuel + 1, cs =>
    match skipLines false cs with
    | ']' :: cs => return ([], cs)
    | cs => do
      let (v, cs) ← value context key true fuel cs
      match skipLines false cs with
      | ']' :: cs => return ([v], cs)
      | ',' :: cs =>
        let (vs, cs) ← items context key fuel cs
        return (v :: vs, cs)
      | _ => failure

/-- Reads the rest of a table in braces; `es` are its entries so far. -/
def pairs (context : List String) : Nat → Entries → List Char → Drafting (Entries × List Char)
  | 0, _, _ => failure
  | fuel + 1, es, cs =>
    match skipLines false cs with
    | '}' :: cs => return (es, cs)
    | cs => do
      let (key, v, cs) ← pair context fuel cs
      let es ← liftM (putAt? v key es)
      match skipLines false cs with
      | '}' :: cs => return (es, cs)
      | ',' :: cs => pairs context fuel es cs
      | _ => failure

/-- Reads a key and its value and enters them into the table at `context`. -/
def pair (context : List String) : Nat → List Char → Drafting (List String × Value × List Char)
  | 0, _ => failure
  | fuel + 1, cs => do
    match key? cs.length cs with
    | some (key, '=' :: cs) =>
      let context ← Draft.descend context key.dropLast
      let last := key.getLastD ""
      let (v, cs) ← value context last false fuel cs
      Draft.assign context last v
      Draft.note context last v.isArray
      return (key, v, cs)
    | _ => failure

end

/-- Reads the rest of a header that `close` ends, and goes to the table it names. -/
def header (close : List Char) (inList : Bool) (cs : List Char) :
    Drafting (List String × List Char) := do
  let (path, cs) ← liftM (key? cs.length cs)
  Draft.enter path inList
  Draft.note path "" false
  if close.isPrefixOf cs then return (path, cs.drop close.length) else failure

/-- Reads one statement: the path of the table that is current after it, and the rest. -/
def statement (path : List String) : List Char → Drafting (List String × List Char)
  | '[' :: '[' :: cs => header [']', ']'] true cs
  | '[' :: cs => header [']'] false cs
  | cs => do
    let (_, _, cs) ← pair path (cs.length + 1) cs
    return (path, cs)

/-- Reads statements to the end of the text. The first argument bounds their number. -/
def statements : Nat → List String → List Char → Drafting Unit
  | 0, _, _ => failure
  | fuel + 1, path, cs =>
    match skipLines false cs with
    | [] => return ()
    | cs => do
      let (path, cs) ← statement path cs
      statements fuel path (← liftM (lineEnd? cs))

/-- The table of a text. -/
def parse? (text : String) : Option Entries := do
  let cs ← normalize? text.toList
  let cs := if cs.head? == some '\uFEFF' then cs.drop 1 else cs
  let (_, d) ← (statements (cs.length + 1) [] cs).run {}
  return d.entries

end TypeFlow.Toml
