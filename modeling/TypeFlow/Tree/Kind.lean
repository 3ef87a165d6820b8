/-!
# Node kinds

Every node of a tree has one of 39 kinds. A kind is known by its position in the list `Kind.all`
(counted from one), by its name, and by its tag, the snake-case spelling that serialized trees use.
-/

namespace TypeFlow

/-- The kinds of tree nodes. -/
inductive Kind where
  | nop | nilLiteral | boolLiteral | intLiteral | floatLiteral | charLiteral | stringLiteral
  | symbolLiteral | arrayLiteral | localVar | instanceVar | classVar | globalVar | selfRef | path
  | assign | expressions | ifElse | unlessElse | caseOf | whileLoop | call | block | yieldTo
  | returnFrom | breakOut | methodDef | classDef | moduleDef | includeModule | isA | respondsTo
  | pointerOf | libDef | funDef | structDef | typeDef | macroDef | primitive
  deriving DecidableEq, Repr, Inhabited

namespace Kind

/-- All kinds in the order of their numbers. -/
def all : List Kind := [
  nop, nilLiteral, boolLiteral, intLiteral, floatLiteral, charLiteral, stringLiteral,
  symbolLiteral, arrayLiteral, localVar, instanceVar, classVar, globalVar, selfRef, path,
  assign, expressions, ifElse, unlessElse, caseOf, whileLoop, call, block, yieldTo,
  returnFrom, breakOut, methodDef, classDef, moduleDef, includeModule, isA, respondsTo,
  pointerOf, libDef, funDef, structDef, typeDef, macroDef, primitive]

/-- The name of a kind in messages. -/
def name : Kind → String
  | nop => "Nop"
  | nilLiteral => "NilLiteral"
  | boolLiteral => "BoolLiteral"
  | intLiteral => "IntLiteral"
  | floatLiteral => "FloatLiteral"
  | charLiteral => "CharLiteral"
  | stringLiteral => "StringLiteral"
  | symbolLiteral => "SymbolLiteral"
  | arrayLiteral => "ArrayLiteral"
  | localVar => "Var"
  | instanceVar => "InstanceVar"
  | classVar => "ClassVar"
  | globalVar => "Global"
  | selfRef => "Self"
  | path => "Path"
  | assign => "Assign"
  | expressions => "Expressions"
  | ifElse => "If"
  | unlessElse => "Unless"
  | caseOf => "Case"
  | whileLoop => "While"
  | call => "Call"
  | block => "Block"
  | yieldTo => "Yield"
  | returnFrom => "Return"
  | breakOut => "Break"
  | methodDef => "Def"
  | classDef => "ClassDef"
  | moduleDef => "ModuleDef"
  | includeModule => "Include"
  | isA => "IsA"
  | respondsTo => "RespondsTo"
  | pointerOf => "PointerOf"
  | libDef => "LibDef"
  | funDef => "FunDef"
  | structDef => "StructDef"
  | typeDef => "TypeDef"
  | macroDef => "MacroDef"
  | primitive => "Primitive"

/-- The name of a kind in serialized trees. -/
def tag : Kind → String
  | nop => "nop"
  | nilLiteral => "nil_literal"
  | boolLiteral => "bool_literal"
  | intLiteral => "int_literal"
  | floatLiteral => "float_literal"
  | charLiteral => "char_literal"
  | stringLiteral => "string_literal"
  | symbolLiteral => "symbol_literal"
  | arrayLiteral => "array_literal"
  | localVar => "var"
  | instanceVar => "instance_var"
  | classVar => "class_var"
  | globalVar => "global"
  | selfRef => "self"
  | path => "path"
  | assign => "assign"
  | expressions => "expressions"
  | ifElse => "if"
  | unlessElse => "unless"
  | caseOf => "case"
  | whileLoop => "while"
  | call => "call"
  | block => "block"
  | yieldTo => "yield"
  | returnFrom => "return"
  | breakOut => "break"
  | methodDef => "def"
  | classDef => "class_def"
  | moduleDef => "module_def"
  | includeModule => "include"
  | isA => "is_a"
  | respondsTo => "responds_to"
  | pointerOf => "pointer_of"
  | libDef => "lib_def"
  | funDef => "fun_def"
  | structDef => "struct_def"
  | typeDef => "type_def"
  | macroDef => "macro_def"
  | primitive => "primitive"

/-- The kind with a given tag. -/
def ofTag? (s : String) : Option Kind :=
  all.find? (·.tag == s)

/-- The kind with a given number, counted from one. -/
def ofNumber? : Nat → Option Kind
  | 0 => none
  | n + 1 => all[n]?

/-- The name of the kind with a given number, also for numbers that no kind has. -/
def nameOfNumber (n : Nat) : String :=
  match ofNumber? n with
  | some k => k.name
  | none => "Kind(" ++ toString n ++ ")"

/-- A tag reads back as its kind. -/
theorem ofTag?_tag (k : Kind) : ofTag? k.tag = some k := by
  cases k <;> rfl

end Kind

end TypeFlow
