import TypeFlow.Inference.Blocks
import TypeFlow.Inference.Branches
import TypeFlow.Inference.Calls
import TypeFlow.Inference.Declarations
import TypeFlow.Inference.Literals
import TypeFlow.Inference.Macros

/-!
# Typing a tree

`Engine.visitForm` types one node, given an engine for its parts; `visit` and `recalculate` close the
recursion. Both take a bound on how deep they nest, and fail when it is reached.
-/

namespace TypeFlow

namespace Engine

variable (e : Engine)

/-- Types a sequence of expressions: its value is the last one. -/
def visitExpressions (s : ScopeId) (n : Placed) (body : List Placed) : Infer Unit := do
  match body.getLast? with
  | none => e.setType n Builtin.nil
  | some last =>
    e.visitAll s body
    e.bind n [← Infer.nodeOf last]

/-- Types a call. -/
def visitCall (s : ScopeId) (n : Placed) (call : CallParts) : Infer Unit := do
  if call.obj.isSome then e.visitPlainCall s call
  else
    match assoc? (← Infer.env).macros call.name with
    | some d => e.visitMacro s n call d
    | none => if call.name == "super" then e.visitSuper s call else e.visitPlainCall s call

/-- Types a test for a type. A test without a type asks for a constant that is never there. -/
def visitIsA (s : ScopeId) (n : Placed) (obj : Option Placed) (type : Option TypeExpr) :
    Infer Unit := do
  e.visitOption s obj
  match type with
  | some t => discard (Infer.resolveType s t)
  | none => Infer.undefined s "uninitialized constant %!s(<nil>)"
  e.setType n Builtin.bool

/-- Types a test for a method. -/
def visitRespondsTo (s : ScopeId) (n : Placed) (obj : Option Placed) : Infer Unit := do
  e.visitOption s obj
  e.setType n Builtin.bool

/-- Whether a node is a variable. -/
def isVariable (n : Placed) : Bool :=
  match n.form with
  | .localVar .. | .instanceVar .. | .classVar _ | .globalVar _ => true
  | _ => false

/-- Types the address of a variable. -/
def visitPointerOf (s : ScopeId) (n : Placed) (target : Option Placed) : Infer Unit := do
  match target.filter isVariable with
  | none => throw (.malformed n.loc "pointerof needs a variable")
  | some target =>
    e.visit s target
    let id ← Infer.nodeOf n
    Flow.changeGraph (·.setMapping id .pointer)
    e.connect id [← Infer.nodeOf target]

/-- Types the value of the scope's own object. -/
def visitSelf (s : ScopeId) (n : Placed) : Infer Unit := do
  e.setType n (← Infer.scope s).self

/-- The text of an optional location. -/
def locText : Option Location → String
  | some l => l.render
  | none => "<unknown>"

/-- Types a declaration. -/
def visitDeclaration (s : ScopeId) (n : Placed) : Infer Unit :=
  match n.form with
  | .methodDef receiver name params result body yields =>
    e.visitMethodDef s n receiver
      { loc := n.loc, name, params := Infer.sourceParams params, result,
        body := body.map Placed.source, yields }
  | .classDef name superclass typeParams body =>
    e.visitClassDef s n name superclass (typeParams.getD []) body
  | .moduleDef name body => e.visitModuleDef s n name body
  | .includeModule p =>
    e.visitInclude s n ((p.bind (·.names)).getD []) ((p.bind (·.typeArgs)).getD [])
  | .libDef name body => e.visitLibDef s n name (body.getD [])
  | .funDef name _ params result varargs =>
    e.visitFunDef s n name (Infer.sourceParams params) result varargs
  | .structDef name isUnion members =>
    e.visitStructDef s n name isUnion (Infer.sourceParams members)
  | .typeDef name type => e.visitTypeDef s n name type
  | .macroDef name params body => e.visitMacroDef n name params body
  | .primitive name =>
    throw (.malformed n.loc ("primitive '" ++ name ++ "' outside of a method"))
  | _ => return

/-- Types a branch or a loop. -/
def visitControl (s : ScopeId) (n : Placed) : Infer Unit :=
  match n.form with
  | .ifElse cond yes no => e.visitIf s n cond yes no
  | .unlessElse cond yes no => e.visitUnless s n cond yes no
  | .caseOf subject whens no => e.visitCase s n subject (whens.getD []) no
  | .whileLoop cond body => e.visitWhile s n cond body
  | .returnFrom value => e.visitReturn s n value
  | .breakOut value => e.visitBreak s n value
  | _ => e.visitDeclaration s n

/-- Types a node. -/
def visitForm (s : ScopeId) (n : Placed) : Infer Unit :=
  match n.form with
  | .nop => e.setType n Builtin.nil
  | .nilLiteral => e.setType n Builtin.nil
  | .boolLiteral _ => e.setType n Builtin.bool
  | .intLiteral _ suffix => e.visitInt s n suffix
  | .floatLiteral _ suffix => e.visitFloat s n suffix
  | .charLiteral _ => e.setType n Builtin.char
  | .stringLiteral _ => e.setType n Builtin.string
  | .symbolLiteral name => e.visitSymbol n name
  | .arrayLiteral elements of => e.visitArray s n (elements.getD []) of
  | .localVar name out => e.visitLocal s n name out
  | .instanceVar name out => e.visitIVar s n name out
  | .classVar name => e.visitClassVar s n name
  | .globalVar name => e.visitGlobal n name
  | .selfRef => e.visitSelf s n
  | .path names typeArgs => e.visitPath s n (names.getD []) (typeArgs.getD [])
  | .assign (some target) value => e.visitAssign s n target value
  | .assign none _ => throw (.malformed n.loc "can't assign to nothing")
  | .expressions body => e.visitExpressions s n (body.getD [])
  | .call obj name args block hasParens =>
    e.visitCall s n { mark := n.mark, obj, name, args := args.getD [], block, hasParens }
  | .block _ _ =>
    throw (.plain ("block at " ++ locText n.loc ++ " visited outside of its call"))
  | .yieldTo args => e.visitYield s n (args.getD [])
  | .isA obj type => e.visitIsA s n obj type
  | .respondsTo obj _ => e.visitRespondsTo s n obj
  | .pointerOf target => e.visitPointerOf s n target
  | _ => e.visitControl s n

/-- Types a node; a failure without location gets that of the node. -/
def visitNode (s : ScopeId) (n : Placed) : Infer Unit := do
  let _ ← Infer.nodeOf n
  Flow.locating n.loc (e.visitForm s n)

end Engine

mutual

/-- Types a tree in a scope, nesting at most `fuel` deep. -/
def visit : Nat → ScopeId → Placed → Infer Unit
  | 0, _, _ => throw .exhausted
  | fuel + 1, s, n => Engine.visitNode ⟨visit fuel, recalculate fuel⟩ s n

/-- Resolves the call at a node again, nesting at most `fuel` deep. -/
def recalculate : Nat → NodeId → Infer Unit
  | 0, _ => throw .exhausted
  | fuel + 1, node => Engine.resolveSite ⟨visit fuel, recalculate fuel⟩ node

end

/-- The engine that nests at most `fuel` deep. -/
def engine (fuel : Nat) : Engine :=
  ⟨visit fuel, recalculate fuel⟩

end TypeFlow
