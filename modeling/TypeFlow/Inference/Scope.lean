import TypeFlow.Inference.Env

/-!
# Scopes

A variable is looked for in the scope of its use and then outwards through the blocks around it; in
every scope its narrowed views come first, the innermost of them before the others. Assigning a
variable ends its narrowed views.
-/

namespace TypeFlow

namespace Scope

/-- The node that a name stands for in this scope: a narrowed view or the variable itself. -/
def view? (s : Scope) (name : String) : Option NodeId :=
  (s.filters.findSome? (assoc? · name)).or (assoc? s.vars name)

/-- The scope of a block inside this one. -/
def child (s : Scope) (id : ScopeId) : Scope :=
  { parent := some id, self := s.self, home := s.home, inst := s.inst, block := s.block,
    method := s.method }

/-- Drops the narrowed views of a variable. -/
def dropViews (s : Scope) (name : String) : Scope :=
  { s with filters := s.filters.map (·.filter fun (n, _) => n != name) }

end Scope

namespace Env

/-- The scope with a number and those around it, the innermost first, at most `fuel` of them. -/
def scopesUpTo (e : Env) : Nat → ScopeId → List (ScopeId × Scope)
  | 0, _ => []
  | fuel + 1, id =>
    match e.scopes[id]? with
    | none => []
    | some s =>
      (id, s) ::
        match s.parent with
        | none => []
        | some p => e.scopesUpTo fuel p

/-- The scope with a number and those around it, the innermost first. -/
def enclosing (e : Env) (id : ScopeId) : List (ScopeId × Scope) :=
  e.scopesUpTo e.scopes.size id

/-- The node that a name stands for. -/
def lookupVar? (e : Env) (id : ScopeId) (name : String) : Option NodeId :=
  (e.enclosing id).findSome? fun (_, s) => s.view? name

/-- The node of a variable that is declared already. -/
def declared? (e : Env) (id : ScopeId) (name : String) : Option NodeId :=
  (e.enclosing id).findSome? fun (_, s) => assoc? s.vars name

end Env

namespace Infer

/-- A scope. -/
def scope (id : ScopeId) : Infer Scope :=
  return ((← env).scopes[id]?).getD { self := 0, home := 0 }

/-- Opens a scope. -/
def newScope (s : Scope) : Infer ScopeId := do
  let id := (← env).scopes.size
  changeEnv fun e => { e with scopes := e.scopes.push s }
  return id

/-- Changes a scope. -/
def changeScope (id : ScopeId) (f : Scope → Scope) : Infer Unit :=
  changeEnv fun e => { e with scopes := e.scopes.modify id f }

/-- The node of a variable, declared in this scope unless a scope around it has it. -/
def declare (s : ScopeId) (name : String) : Infer NodeId := do
  match (← env).declared? s name with
  | some id => return id
  | none =>
    let id ← Flow.newNode name
    changeScope s fun sc => { sc with vars := (name, id) :: sc.vars }
    return id

/-- Drops the narrowed views of a variable in a scope and those around it. -/
def dropViews (s : ScopeId) (name : String) : Infer Unit := do
  for (id, _) in (← env).enclosing s do
    changeScope id (·.dropViews name)

/-- A name that does not resolve in a scope. -/
def undefined {α : Type} (s : ScopeId) (text : String) : Infer α := do
  throw (.undefined none text (← scope s).method)

/-- The types that free type variables are bound to in a scope. -/
def freeIn (s : ScopeId) : Infer Bindings := do
  match (← scope s).inst with
  | none => return []
  | some i =>
    match (← env).instances[i]? with
    | none => return []
    | some inst => return inst.free

end Infer

end TypeFlow
