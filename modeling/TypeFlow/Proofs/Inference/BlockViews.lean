import TypeFlow.Proofs.Inference.Yielding

/-!
# What a block sees of a narrowed variable

A branch that a condition narrows is typed with views of the variables on its scope, and the views are taken off
again at its end. The scope of a block is opened over that of the call when the instance that the block is given
to first yields. So it depends on the time of this what the block reads: the view as long as the branch is being
typed, and what there was before the condition once the branch has been left (`Engine.narrowing_read`). A call
that is resolved again gives a copy of its block to another instance, and then the copy is typed without the view
(`Session.read_after_branch`).

Whichever of the two it is, the block keeps to it until an assignment drops the views.
-/

namespace TypeFlow

/-- No scope around one gets or loses views of a variable. -/
def Env.KeepsViews (e e' : Env) (s : ScopeId) (name : String) : Prop :=
  ∀ t sc sc', (t, sc) ∈ e.enclosing s → e'.scopes[t]? = some sc' → sc'.narrowed? name = sc.narrowed? name

/-- All scopes have the views of a variable that they had. -/
theorem Env.KeepsViews.of_narrowed {e e' : Env} {name : String}
    (h : ∀ t < e.scopes.size, (e'.scopes[t]?).map (·.narrowed? name) = (e.scopes[t]?).map (·.narrowed? name))
    (s : ScopeId) : e.KeepsViews e' s name := by
  intro t sc sc' ht hs'
  have hs := Env.mem_scopesUpTo ht
  have hsame := h t (Array.getElem?_eq_some_iff.mp hs).1
  rw [hs, hs'] at hsame
  exact Option.some.inj hsame

/-- A variable is declared in a scope or one around it, which finds a node for it. -/
structure Env.Sees (e : Env) (s : ScopeId) (name : String) (node : NodeId) : Prop where
  declared : (e.declared? s name).isSome
  found : e.lookupVar? s name = some node

namespace Env.Sees

variable {e e' : Env} {s : ScopeId} {name : String} {node : NodeId}

/-- **A scope keeps to what it sees** until the views of the variable are dropped. -/
theorem later (h : e.Sees s name node) (hd : e.Declares e') (hk : e.KeepsViews e' s name) :
    e'.Sees s name node :=
  ⟨(hd.declared? h.declared).symm ▸ h.declared, (hd.lookupVar? h.declared hk).trans h.found⟩

/-- A scope that is opened inside another one, without views and without the variable, sees what that one sees. -/
theorem inside (h : e.Sees s name node) {sc : Scope} (hpush : e'.scopes = e.scopes.push sc)
    (hparent : sc.parent = some s) (hvars : assoc? sc.vars name = none) (hviews : sc.filters = []) :
    e'.Sees e.scopes.size name node := by
  have hs : e'.scopes[e.scopes.size]? = some sc := hpush ▸ Array.getElem?_push_size
  -- whatever is searched outwards and found from `s`, the new scope does not have
  have hsearch : ∀ {α : Type} {g : Scope → Option α}, ((e.enclosing s).findSome? fun x => g x.2).isSome →
      g sc = none →
      ((e'.enclosing e.scopes.size).findSome? fun x => g x.2) = (e.enclosing s).findSome? fun x => g x.2 := by
    intro α g hfound hnone
    rw [Env.enclosing, hpush, Array.size_push, Env.scopesUpTo_of_some hs, hparent, List.findSome?_cons, hnone]
    refine Env.findSome?_scopesUpTo (f := g) (fun _ h => h) le_rfl hfound fun k _ t old _ ht _ => ?_
    refine ⟨old, ?_, rfl, rfl⟩
    rw [hpush, Array.getElem?_push, if_neg (Nat.ne_of_lt (Array.getElem?_eq_some_iff.mp ht).1), ht]
  have hview : sc.view? name = none := by
    rw [Scope.view?, hviews, hvars]
    rfl
  have hfound : ((e.enclosing s).findSome? fun x => x.2.view? name) = some node := h.found
  constructor
  · rw [Env.declared?, hsearch (g := fun sc => assoc? sc.vars name) h.declared hvars]
    exact h.declared
  · rw [Env.lookupVar?, hsearch (g := fun sc => sc.view? name) (hfound ▸ rfl) hview]
    exact hfound

end Env.Sees

/-- A layer of views that is put on a scope comes before all others. -/
theorem Program.sees_putLayer {p : Program} {s : ScopeId} {name : String} {node : NodeId}
    (hdeclared : (p.env.declared? s name).isSome) {layer : List (String × NodeId)}
    (hview : assoc? layer name = some node) : (p.putLayer s layer).env.Sees s name node := by
  obtain ⟨sc, hs⟩ : ∃ sc, p.env.scopes[s]? = some sc := by
    refine Option.ne_none_iff_exists'.mp fun hnone => ?_
    rw [Env.declared?, Env.enclosing, Env.scopesUpTo_of_none hnone] at hdeclared
    cases hdeclared
  let top : Scope := { sc with filters := layer :: sc.filters }
  have hput : (p.putLayer s layer).env.scopes[s]? = some top := by
    rw [putLayer, Array.getElem?_modify, if_pos rfl, hs]
    rfl
  have htop : top.view? name = some node := by
    rw [Scope.view?, List.findSome?_cons, hview]
    rfl
  have hdeclares : p.env.Declares (p.putLayer s layer).env :=
    .of_modify (f := fun sc => { sc with filters := layer :: sc.filters }) rfl fun _ => ⟨rfl, rfl⟩
  refine ⟨(hdeclares.declared? hdeclared).symm ▸ hdeclared, ?_⟩
  obtain ⟨fuel, hfuel⟩ := Nat.exists_eq_succ_of_ne_zero
    (Nat.ne_zero_of_lt (Array.getElem?_eq_some_iff.mp hput).1)
  rw [Env.lookupVar?, Env.enclosing, hfuel, Env.scopesUpTo_of_some hput, List.findSome?_cons]
  simp only [htop]

/-- The variables of a list of nodes are those whose names are in it. -/
theorem assoc?_eq_none {β : Type} {l : List (String × β)} {name : String} (h : name ∉ l.map Prod.fst) :
    assoc? l name = none := by
  rw [assoc?, List.find?_eq_none.mpr]
  · rfl
  · intro x hx hkey
    exact h (List.mem_map.mpr ⟨x, hx, eq_of_beq hkey⟩)

namespace Engine

open Infer

/-! ### Blocks -/

/-- **A block sees what its call sees** when its scope is opened, but for its parameters. -/
theorem sees_openBlockScope {b : Nat} {bc : BlockContext} {p p' : Program} {t : ScopeId} {params : List NodeId}
    (h : (openBlockScope b bc).run.run p = (.ok (t, params), p')) {name : String} {node : NodeId}
    (hcall : p.env.Sees bc.caller name node)
    (hname : name ∉ (bc.block.params.getD []).map Variable.name) : p'.env.Sees t name node := by
  obtain ⟨vars, g, notes, hrun, -, hnames, -⟩ := run_openBlockScope b bc p
  rw [hrun] at h
  cases h
  have hnone : assoc? (blockScope p.env bc vars).vars name = none := by
    refine assoc?_eq_none ?_
    have hvars : (blockScope p.env bc vars).vars = vars.reverse := rfl
    rwa [hvars, List.map_reverse, List.mem_reverse, hnames]
  exact hcall.inside rfl rfl hnone rfl

/-- Where a variable is seen, reading it makes the node depend on what is seen. -/
theorem run_visitLocal {e : Engine} {p : Program} {s : ScopeId} {name : String} {node : NodeId}
    (h : p.env.Sees s name node) (n : Placed) :
    (e.visitLocal s n name false).run.run p = (e.bind n [node]).run.run p := by
  rw [Engine.visitLocal, if_neg Bool.false_ne_true, Infer.run_env_bind, h.found]

/-- **What a block reads of a narrowed variable** is settled when its scope is opened. Let a condition narrow a
variable on a scope, and a call in this scope, or in a block inside it that has neither views nor a parameter of
the name, have a block without such a parameter. If the block is opened while the branch is being typed, it reads
the view from then on; if it is opened after the branch has been left, it reads what the scope saw before the
condition. Both hold as long as no views of the variable are dropped, as an assignment drops them. -/
theorem narrowing_read {fuel : Nat} {p p₁ q q' w : Program} {s t : ScopeId} {ns : List Narrowing}
    {layer : List (String × NodeId)} {name : String} {var view : NodeId} (hvar : p.env.Sees s name var)
    (hviews : ((engine fuel).views s ns).run.run p = (.ok layer, p₁)) (hview : assoc? layer name = some view)
    {b : Nat} {bc : BlockContext} {params : List NodeId}
    (hcaller : ∀ node, q.env.Sees s name node → q.env.Sees bc.caller name node)
    (hname : name ∉ (bc.block.params.getD []).map Variable.name)
    (hopen : (openBlockScope b bc).run.run q = (.ok (t, params), q')) (hw : Advances q' w)
    (hkept : q'.env.KeepsViews w.env t name) (n : Placed) :
    (Advances (p₁.putLayer s layer) q → (p₁.putLayer s layer).env.KeepsViews q.env s name →
      ((engine fuel).visitLocal t n name false).run.run w = ((engine fuel).bind n [view]).run.run w) ∧
    (∀ branch r p', ((engine fuel).narrowing s ns branch).run.run p = (r, p') → Advances p' q →
      p.env.KeepsViews q.env s name →
      ((engine fuel).visitLocal t n name false).run.run w = ((engine fuel).bind n [var]).run.run w) := by
  have hread : ∀ node, q.env.Sees s name node →
      ((engine fuel).visitLocal t n name false).run.run w = ((engine fuel).bind n [node]).run.run w := by
    intro node hnode
    have hopened := sees_openBlockScope hopen (hcaller node hnode) hname
    exact run_visitLocal (hopened.later hw.retains.declares hkept) n
  refine ⟨fun hq hk => hread view ?_, fun branch r p' hbranch hq hk => hread var ?_⟩
  · have hmade := ((engine_tame fuel).views s ns).advances hviews
    have hdeclared : (p₁.env.declared? s name).isSome :=
      (hmade.retains.declares.declared? hvar.declared).symm ▸ hvar.declared
    exact (Program.sees_putLayer hdeclared hview).later hq.retains.declares hk
  · have hleft := ((engine_tame fuel).narrowing s ns branch).advances hbranch
    exact hvar.later (hleft.trans hq).retains.declares hk

/-- A variable for a guest. -/
def guest : Source :=
  .node none (.localVar "guest" false)

/-- The variable takes on a value. -/
def arrival (value : Form (Option Location) Source) : Source :=
  .node none (.assign (some guest) (some (.node none value)))

/-- A class of guests, whom one can greet. -/
def guests : Source :=
  .node none (.classDef "Guest" none none (some (.node none
    (.methodDef "" "greet" none none (some (.node none (.boolLiteral true))) false))))

/-- There may be a guest, or nobody. -/
def reception : List Source :=
  [each, guests, arrival (.call (some (.node none (.path (some ["Guest"]) none))) "new" none none false),
    arrival .nilLiteral, hold (.boolLiteral true)]

/-- The program when this is typed. -/
def received : Program :=
  ((Program.initial .none).run (Program.infer (.node none (.expressions (some reception))))).2

/-- What the condition says of the guest. -/
def somebody : List Narrowing :=
  [⟨"guest", .notNil⟩]

/-- The program in the branch of a condition that there is a guest. -/
def seated : Program :=
  Program.putLayer (((engine 4).views 0 somebody).run.run received).2 0 [("guest", 23)]

/-- The program when the branch has been left. -/
def parted : Program :=
  (((engine 4).narrowing 0 somebody none).run.run received).2

/-- A block without parameters, given to a call at top level. -/
def toast : BlockContext :=
  { block := { mark := ⟨none, 0⟩, params := none, body := none }, caller := 0, call := 1 }

/-- The variable, as it is read in the block. -/
def reading : Placed :=
  .node ⟨none, 0⟩ (.localVar "guest" false)

/-- The program after the scope of the block is opened. -/
def toasted (p : Program) : Program :=
  ((openBlockScope 0 toast).run.run p).2

/-- In the branch the block reads the view, at the node 23; after it the variable itself, at the node 17. -/
theorem narrowing_read_guest :
    received.env.Sees 0 "guest" 17 ∧
    (((engine 4).views 0 somebody).run.run received).1.toOption = some [("guest", 23)] ∧
    ((engine 4).visitLocal 3 reading "guest" false).run.run (toasted seated) =
      ((engine 4).bind reading [23]).run.run (toasted seated) ∧
    ((engine 4).visitLocal 3 reading "guest" false).run.run (toasted parted) =
      ((engine 4).bind reading [17]).run.run (toasted parted) := by
  have hvar : received.env.Sees 0 "guest" 17 := ⟨by decide +kernel, by decide +kernel⟩
  obtain ⟨hmade, hopened, hopened', hkept⟩ :
      (((engine 4).views 0 somebody).run.run received).1.toOption = some [("guest", 23)] ∧
      ((openBlockScope 0 toast).run.run seated).1.toOption = some (3, []) ∧
      ((openBlockScope 0 toast).run.run parted).1.toOption = some (3, []) ∧
      ∀ t < received.env.scopes.size, (parted.env.scopes[t]?).map (·.narrowed? "guest") =
        (received.env.scopes[t]?).map (·.narrowed? "guest") := by
    decide +kernel
  have hviews := Flow.run_of_toOption hmade
  have hstays : ∀ (e : Env) s, e.KeepsViews e s "guest" := fun e s => .of_narrowed (fun _ _ => rfl) s
  have hinside := narrowing_read hvar hviews rfl (fun _ h => h) List.not_mem_nil
    (Flow.run_of_toOption hopened) .refl (hstays _ _) reading
  have hafter := narrowing_read hvar hviews rfl (fun _ h => h) List.not_mem_nil
    (Flow.run_of_toOption hopened') .refl (hstays _ _) reading
  exact ⟨hvar, hmade, hinside.1 .refl (hstays _ _), hafter.2 none _ parted rfl .refl (.of_narrowed hkept 0)⟩

end Engine

namespace Session

open Engine

/-- The guest is greeted if there is one, in a block that is given what is held. -/
def greeting : Source :=
  .node none (.ifElse (some guest) (some (.node none (.call none "each" (some [held])
    (some ⟨none, some [⟨none, "y", false⟩],
      some (.node none (.call (some guest) "greet" none none false))⟩) true))) none)

/-- What is held becomes something else after the greeting. -/
def greetingFirst : Source :=
  .node none (.expressions (some (reception ++ [greeting, hold (.stringLiteral "hi")])))

/-- What is held becomes something else before the greeting. -/
def greetingLast : Source :=
  .node none (.expressions (some (reception ++ [hold (.stringLiteral "hi"), greeting])))

/-- The program after the former is typed. -/
def greeted : Program :=
  ((Program.initial .none).run (Program.infer greetingFirst)).2

/-- What the receiver of a call that is all of a block depends on. -/
def receiverDeps (p : Program) (bc : BlockContext) : List NodeId :=
  match bc.block.body.map Tree.form with
  | some (.call (some obj) _ _ _ _) => p.graph.depsOf (p.env.note obj.mark.occ).node
  | _ => []

/-- **A block that is typed again after the branch reads the variable itself.** The guest is the node 17, and the
view of it in the branch, which is not nil, the node 25. The block of the first instance reads the view. When what
is held changes, the call is resolved again and the copy of its block reads the node 17, which may be nil, so the
program is refused. It is accepted if what is held changes before the condition. -/
theorem read_after_branch :
    Session .none greeted ∧ greeted.graph.depsOf 25 = [17] ∧
    greeted.env.blocks.toList.map (receiverDeps greeted) = [[25], [17]] ∧
    ((Program.initial .none).run (Program.infer greetingFirst)).1.toOption = none ∧
    ((Program.initial .none).run (Program.infer greetingLast)).1.toOption.isSome :=
  ⟨.tree .initial _, by decide +kernel⟩

end Session

end TypeFlow
