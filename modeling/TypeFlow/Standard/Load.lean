import TypeFlow.Files
import TypeFlow.Standard.Numeric

/-!
# Standard definitions

What user code may rely on: the numeric tower, the containers, the base text, and then the further
files that the settings name. The base text holds the definitions that do not depend on the numeric tower,
in the form in which programs are written; failures inside them are reported with lines of this text.
-/

namespace TypeFlow.Standard

/-! ### The base text -/

/-- The name under which the base text is reported. -/
def baseName : String :=
  "<prelude>"

/-- The lines of the base text. -/
def baseLines : List String :=
  ["# Definitions that do not depend on the numeric tower. Numeric kinds and",
   "# the Pointer and Array primitives are declared before this file is read.",
   "",
   "- kind: class_def",
   "  name: Object",
   "  body:",
   "    - \x7bkind: def, name: \"==\", params: [other], return: Bool, body: \x7bkind: primitive, name: object_eq\x7d\x7d",
   "    - kind: def",
   "      name: \"!=\"",
   "      params: [other]",
   "      body:",
   "        kind: call",
   "        obj: \x7bkind: call, obj: \x7bkind: self\x7d, name: \"==\", args: [\x7bkind: var, name: other\x7d]\x7d",
   "        name: \"!\"",
   "    - \x7bkind: def, name: \"nil?\", return: Bool, body: \x7bkind: primitive, name: object_nil\x7d\x7d",
   "    - \x7bkind: def, name: to_s, return: String, body: \x7bkind: primitive, name: object_to_s\x7d\x7d",
   "",
   "- kind: class_def",
   "  name: Bool",
   "  body:",
   "    - \x7bkind: def, name: \"!\", return: Bool, body: \x7bkind: primitive, name: bool_not\x7d\x7d",
   "",
   "- kind: class_def",
   "  name: Symbol",
   "  body:",
   "    - \x7bkind: def, name: to_s, return: String, body: \x7bkind: primitive, name: symbol_to_s\x7d\x7d",
   "",
   "- kind: class_def",
   "  name: String",
   "  body:",
   "    - \x7bkind: def, name: cstr, return: \"Pointer(Char)\", body: \x7bkind: primitive, name: string_cstr\x7d\x7d",
   "",
   "- kind: class_def",
   "  name: Array",
   "  body:",
   "    - kind: def",
   "      name: each",
   "      yields: true",
   "      body:",
   "        - \x7bkind: assign, target: \x7bkind: var, name: i\x7d, value: \x7bkind: int_literal, value: \"0\"\x7d\x7d",
   "        - kind: while",
   "          cond:",
   "            kind: call",
   "            obj: \x7bkind: var, name: i\x7d",
   "            name: \"<\"",
   "            args: [\x7bkind: call, obj: \x7bkind: self\x7d, name: size\x7d]",
   "          body:",
   "            - kind: yield",
   "              args: [\x7bkind: call, obj: \x7bkind: self\x7d, name: \"[]\", args: [\x7bkind: var, name: i\x7d]\x7d]",
   "            - kind: assign",
   "              target: \x7bkind: var, name: i\x7d",
   "              value: \x7bkind: call, obj: \x7bkind: var, name: i\x7d, name: \"+\", args: [\x7bkind: int_literal, value: \"1\"\x7d]\x7d",
   "        - \x7bkind: self\x7d",
   "    - kind: def",
   "      name: \"empty?\"",
   "      body:",
   "        kind: call",
   "        obj: \x7bkind: call, obj: \x7bkind: self\x7d, name: size\x7d",
   "        name: \"==\"",
   "        args: [\x7bkind: int_literal, value: \"0\"\x7d]"]

/-- The base text. -/
def baseText : String :=
  String.join (baseLines.map (· ++ "\n"))

/-! ### Loading -/

/-- A file that was read, or why it was not. -/
structure TextFile where
  path : String
  content : Except FileError String

/-- Types a text at top level. -/
def inferText (name text : String) : Infer Unit :=
  match Source.decode name text with
  | .error m => throw (Infer.malformed m)
  | .ok t => Program.infer t

/-- Types a file of definitions. -/
def inferFile (f : TextFile) : Infer Unit :=
  match f.content with
  | .error reason => throw (.plain ("loading prelude " ++ f.path ++ ": " ++ reason.message))
  | .ok text => inferText f.path text

/-- Types files of definitions in order. -/
def inferFiles : List TextFile → Infer Unit
  | [] => return
  | f :: rest => do
    inferFile f
    inferFiles rest

/-- Declares everything that user code may rely on. -/
def load (n : NumericTower) (files : List TextFile) : Infer Unit := do
  defineNumeric n
  defineContainers n.intLiteral
  inferText baseName baseText
  inferFiles files

end TypeFlow.Standard
