import TypeFlow.Proofs.Inference.Rising
import TypeFlow.Proofs.Inference.Typing

/-!
# Typing keeps a program stratified

The steps of typing against an engine lead from a stratified stage to a later one, if the engine does
(`Engine.Climbing`) and the tree that is typed was placed. It is closed by induction on how deep it may nest
(`engine_climbing`), so that every state of a program is stratified (`Session.stratified`).
-/

namespace TypeFlow

open Stage (Lasting lasting_true)
open Stage.Step (same sameAt)

variable {N : Nat}

/-- An engine that climbs, on trees that were placed. -/
structure Engine.Climbing (e : Engine) : Prop where
  visit : ∀ N s t, t.Numbered N 0 → Climbs N (e.visit s t)
  recalculate : ∀ N x, Climbs N (e.recalculate x)

theorem forall_mem_getD {α : Type} {P : α → Prop} {l : Option (List α)} (h : ∀ x, ∀ xs ∈ l, x ∈ xs → P x) :
    ∀ x ∈ l.getD [], P x := by
  cases l with
  | none => exact nofun
  | some xs => exact fun x hx => h x xs rfl hx

/-- What is in the fields of a tree is numbered like it. -/
theorem parts_of_form {n : Placed} (hn : n.Numbered N 0) {f : Form Mark Placed} (hf : n.form = f) :
    ∀ c ∈ Tree.nodesOf f, c.Numbered N 0 :=
  fun c hc => hn.child (show c ∈ Tree.nodesOf n.form from hf ▸ hc)

/-! ### Propagation -/

namespace Flow

/-- Hooks that climb. -/
def Climbing (h : Hooks Env) : Prop :=
  ∀ N x, Climbs N (h.recalc x)

namespace Climbing

variable {h : Hooks Env} (hh : Climbing h)
include hh

theorem serve (o : Graph.Observer) : Climbs N (serve h o) := by
  grind [Flow.serve, Climbing]

theorem serveAll (fuel : Nat) (queue : List Graph.Observer) : Climbs N (serveAll h fuel queue) := by
  induction fuel generalizing queue with
  | zero => cases queue <;> grind [Flow.serveAll]
  | succ fuel ih =>
    cases queue with
    | nil => exact .pure _
    | cons o queue =>
      refine .bind (.aside (.changeGraph _)) fun _ => (hh.serve o).attempt.bind fun r => ?_
      split
      · grind
      · exact ih queue
      · exact .bind (.aside (.onGraph _)) fun more => ih _

theorem propagate (id : NodeId) : Climbs N (propagate h id) :=
  .bind (.aside (.onGraph _)) fun queue => hh.serveAll _ queue

theorem setType (id : NodeId) (t : TypeId) : Climbs N (setType h id t) := by
  have hpropagate := hh.propagate (N := N) id
  grind [Flow.setType]

theorem dependOn (id : NodeId) (deps : List NodeId) : Climbs N (dependOn h id deps) := by
  have hpropagate := hh.propagate (N := N) id
  grind [Flow.dependOn]

end Climbing

end Flow

namespace Engine

open Infer

namespace Climbing

variable {e : Engine} (h : e.Climbing)
include h

theorem hooks : Flow.Climbing e.hooks :=
  h.recalculate

@[grind ←]
theorem assign (id : NodeId) (t : TypeId) : Climbs N (e.assign id t) :=
  h.hooks.setType id t

@[grind ←]
theorem connect (id : NodeId) (deps : List NodeId) : Climbs N (e.connect id deps) :=
  h.hooks.dependOn id deps

@[grind ←]
theorem setType (n : Placed) (t : TypeId) : Climbs N (e.setType n t) := by
  grind [Engine.setType]

@[grind ←]
theorem bind (n : Placed) (deps : List NodeId) : Climbs N (e.bind n deps) := by
  grind [Engine.bind]

@[grind ←]
theorem visitOption (s : ScopeId) {n : Option Placed} (hn : ∀ t ∈ n, t.Numbered N 0) :
    Climbs N (e.visitOption s n) := by
  cases n with
  | none => exact .pure _
  | some n => exact h.visit N s n (hn n rfl)

@[grind ←]
theorem visitAll (s : ScopeId) {ns : List Placed} (hns : ∀ t ∈ ns, t.Numbered N 0) : Climbs N (e.visitAll s ns) := by
  induction ns with
  | nil => exact .pure _
  | cons n ns ih =>
    exact (h.visit N s n (hns n List.mem_cons_self)).bind fun _ => ih fun t ht => hns t (List.mem_cons_of_mem n ht)

/-! ### Literals -/

@[grind ←]
theorem visitSymbol (n : Placed) (name : String) : Climbs N (e.visitSymbol n name) := by
  grind [Engine.visitSymbol]

@[grind ←]
theorem visitInt (s : ScopeId) (n : Placed) (suffix : String) : Climbs N (e.visitInt s n suffix) := by
  grind [Engine.visitInt]

@[grind ←]
theorem visitFloat (s : ScopeId) (n : Placed) (suffix : String) : Climbs N (e.visitFloat s n suffix) := by
  grind [Engine.visitFloat]

@[grind ←]
theorem checkElements (element : NodeId) (xs : List Placed) : Climbs N (e.checkElements element xs) := by
  induction xs <;> grind [Engine.checkElements]

@[grind ←]
theorem visitArrayOf (s : ScopeId) (n : Placed) (elements : List Placed) (of : TypeExpr) :
    Climbs N (e.visitArrayOf s n elements of) := by
  grind [Engine.visitArrayOf]

@[grind ←]
theorem visitArray (s : ScopeId) (n : Placed) {elements : List Placed} (of : Option TypeExpr)
    (hn : ∀ t ∈ elements, t.Numbered N 0) : Climbs N (e.visitArray s n elements of) := by
  have hall := h.visitAll s hn
  cases of <;> grind [Engine.visitArray]

/-! ### Variables -/

@[grind ←]
theorem initVar (id : NodeId) (read : Bool) : Climbs N (e.initVar id read) := by
  grind [Engine.initVar]

@[grind ←]
theorem ivarNode (owner : TypeId) (name : String) (read : Bool) : Climbs N (e.ivarNode owner name read) := by
  refine .bind (.aside aside_env) fun env => ?_
  split
  · exact .pure _
  · refine .bind (.aside Flow.aside_types) fun t => .bind (.aside (Flow.aside_newNode _)) fun id => ?_
    refine .bind (.aside (.changeGraph _)) fun _ => .bind (.aside (.onTypes _)) fun _ => ?_
    exact .bind (.aside (.changeEnv (fun _ => rfl) fun _ => rfl)) fun _ => h.initVar _ _

@[grind ←]
theorem classVarNode (s : ScopeId) (name : String) (read : Bool) : Climbs N (e.classVarNode s name read) := by
  refine .bind (.aside (aside_scope s)) fun sc => .bind (.aside Flow.aside_types) fun t => ?_
  split
  · exact .aside (aside_undefined _ _)
  · refine .bind (.aside aside_env) fun env => ?_
    split
    · exact .pure _
    · refine .bind (.aside (Flow.aside_newNode _)) fun id => ?_
      exact .bind (.aside (.changeEnv (fun _ => rfl) fun _ => rfl)) fun _ => h.initVar _ _

@[grind ←]
theorem globalNode (name : String) (read : Bool) : Climbs N (e.globalNode name read) := by
  refine .bind (.aside aside_env) fun env => ?_
  split
  · exact .pure _
  · refine .bind (.aside (Flow.aside_newNode _)) fun id => ?_
    exact .bind (.aside (.changeEnv (fun _ => rfl) fun _ => rfl)) fun _ => h.initVar _ _

@[grind ←]
theorem visitLocal (s : ScopeId) (n : Placed) (name : String) (out : Bool) :
    Climbs N (e.visitLocal s n name out) := by
  grind [Engine.visitLocal]

@[grind ←]
theorem visitIVar (s : ScopeId) (n : Placed) (name : String) (out : Bool) :
    Climbs N (e.visitIVar s n name out) := by
  grind [Engine.visitIVar]

@[grind ←]
theorem visitClassVar (s : ScopeId) (n : Placed) (name : String) : Climbs N (e.visitClassVar s n name) := by
  grind [Engine.visitClassVar]

@[grind ←]
theorem visitGlobal (n : Placed) (name : String) : Climbs N (e.visitGlobal n name) := by
  grind [Engine.visitGlobal]

@[grind ←]
theorem visitPath (s : ScopeId) (n : Placed) (names : List String) (typeArgs : List TypeExpr) :
    Climbs N (e.visitPath s n names typeArgs) := by
  grind [Engine.visitPath]

theorem assignTarget (s : ScopeId) (target : Placed) {value : Option Placed} (hvalue : ∀ t ∈ value, t.Numbered N 0) :
    Climbs N (e.assignTarget s target value) := by
  have hvisit := h.visitOption s hvalue
  unfold Engine.assignTarget
  split <;> grind

theorem declareConst (s : ScopeId) (n target : Placed) (names : List String) {value : Option Placed}
    (hvalue : ∀ t ∈ value, t.Numbered N 0) : Climbs N (e.declareConst s n target names value) := by
  have hvisit := fun s => h.visitOption s hvalue
  unfold Engine.declareConst
  split <;> grind

@[grind ←]
theorem visitAssign (s : ScopeId) (n target : Placed) {value : Option Placed} (hvalue : ∀ t ∈ value, t.Numbered N 0) :
    Climbs N (e.visitAssign s n target value) := by
  have hconst := fun names => h.declareConst s n target names hvalue
  have htarget := h.assignTarget s target hvalue
  unfold Engine.visitAssign
  split <;> grind

/-! ### Branches and loops -/

theorem views (s : ScopeId) (ns : List Narrowing) : Climbs N (e.views s ns) := by
  induction ns with
  | nil => exact .pure _
  | cons n ns ih =>
    refine .bind (.aside aside_env) fun env => ?_
    split
    · exact ih
    · grind

@[grind ←]
theorem narrowing (s : ScopeId) (ns : List Narrowing) {branch : Option Placed}
    (hbranch : ∀ t ∈ branch, t.Numbered N 0) : Climbs N (e.narrowing s ns branch) := by
  refine (h.views s ns).bind fun layer => .bind (.aside (aside_changeScope _ _)) fun _ => ?_
  refine (h.visitOption s hbranch).attempt.bind fun outcome => .bind (.aside (aside_changeScope _ _)) fun _ => ?_
  split
  · exact .pure _
  · exact .throw _

theorem branches (s : ScopeId) {cond truthy falsy : Option Placed} (hcond : ∀ t ∈ cond, t.Numbered N 0)
    (htruthy : ∀ t ∈ truthy, t.Numbered N 0) (hfalsy : ∀ t ∈ falsy, t.Numbered N 0) :
    Climbs N (e.branches s cond truthy falsy) := by
  have hfirst := h.visitOption s hcond
  have hlast := h.visitOption s hfalsy
  have hyes := fun ns => h.narrowing s ns htruthy
  grind [Engine.branches]

@[grind ←]
theorem visitIf (s : ScopeId) (n : Placed) {cond yes no : Option Placed} (hcond : ∀ t ∈ cond, t.Numbered N 0)
    (hyes : ∀ t ∈ yes, t.Numbered N 0) (hno : ∀ t ∈ no, t.Numbered N 0) : Climbs N (e.visitIf s n cond yes no) := by
  have hbranches := h.branches s hcond hyes hno
  grind [Engine.visitIf]

@[grind ←]
theorem visitUnless (s : ScopeId) (n : Placed) {cond yes no : Option Placed} (hcond : ∀ t ∈ cond, t.Numbered N 0)
    (hyes : ∀ t ∈ yes, t.Numbered N 0) (hno : ∀ t ∈ no, t.Numbered N 0) :
    Climbs N (e.visitUnless s n cond yes no) := by
  have hbranches := h.branches s hcond hno hyes
  grind [Engine.visitUnless]

theorem clauses (s : ScopeId) (subject : Option Placed) {whens : List (When Placed)}
    (hwhens : ∀ w ∈ whens, (∀ t ∈ w.conds.getD [], t.Numbered N 0) ∧ ∀ t ∈ w.body, t.Numbered N 0) :
    Climbs N (e.clauses s subject whens) := by
  induction whens with
  | nil => exact .pure _
  | cons w whens ih =>
    have hconds := h.visitAll s (hwhens w List.mem_cons_self).1
    have hbody := fun ns => h.narrowing s ns (hwhens w List.mem_cons_self).2
    have hrest := ih fun w' hw' => hwhens w' (List.mem_cons_of_mem w hw')
    grind [Engine.clauses]

@[grind ←]
theorem visitCase (s : ScopeId) (n : Placed) {subject no : Option Placed} {whens : List (When Placed)}
    (hsubject : ∀ t ∈ subject, t.Numbered N 0)
    (hwhens : ∀ w ∈ whens, (∀ t ∈ w.conds.getD [], t.Numbered N 0) ∧ ∀ t ∈ w.body, t.Numbered N 0)
    (hno : ∀ t ∈ no, t.Numbered N 0) : Climbs N (e.visitCase s n subject whens no) := by
  have hfirst := h.visitOption s hsubject
  have hclauses := h.clauses s subject hwhens
  have hlast := h.visitOption s hno
  grind [Engine.visitCase]

theorem loopBody (s : ScopeId) (target : NodeId) {body : Option Placed} (hbody : ∀ t ∈ body, t.Numbered N 0) :
    Climbs N (e.loopBody s target body) := by
  refine .bind (.aside (aside_changeScope _ _)) fun _ => (h.visitOption s hbody).attempt.bind fun outcome => ?_
  refine .bind (.aside (aside_scope s)) fun sc => .bind (.aside (aside_changeScope _ _)) fun _ => ?_
  split
  · exact .pure _
  · exact .throw _

@[grind ←]
theorem visitWhile (s : ScopeId) (n : Placed) {cond body : Option Placed} (hcond : ∀ t ∈ cond, t.Numbered N 0)
    (hbody : ∀ t ∈ body, t.Numbered N 0) : Climbs N (e.visitWhile s n cond body) := by
  have hfirst := h.visitOption s hcond
  have hloop := fun target => h.loopBody s target hbody
  grind [Engine.visitWhile]

@[grind ←]
theorem visitReturn (s : ScopeId) (n : Placed) {value : Option Placed} (hvalue : ∀ t ∈ value, t.Numbered N 0) :
    Climbs N (e.visitReturn s n value) := by
  have hvisit := h.visitOption s hvalue
  refine .bind (.aside (aside_scope s)) fun sc => ?_
  split <;> grind

@[grind ←]
theorem visitBreak (s : ScopeId) (n : Placed) {value : Option Placed} (hvalue : ∀ t ∈ value, t.Numbered N 0) :
    Climbs N (e.visitBreak s n value) := by
  have hvisit := h.visitOption s hvalue
  refine .bind (.aside (aside_scope s)) fun sc => ?_
  split
  · exact .throw _
  · refine hvisit.bind fun _ => .bind (.aside (aside_noteBreak s)) fun _ => ?_
    grind

/-! ### Blocks and macros -/

theorem bindBlockParams (params args : List NodeId) : Climbs N (e.bindBlockParams params args) := by
  induction params generalizing args with
  | nil => exact .pure _
  | cons p params ih => cases args <;> grind [Engine.bindBlockParams]

theorem typeBlock (s : ScopeId) {block : Block Mark Placed} (hblock : (Tree.ofBlock block).Numbered N 0) :
    Climbs N (e.typeBlock s block) := by
  have hvisit : Climbs N (e.visitOption s block.body) := by
    refine h.visitOption s fun t ht => hblock.child ?_
    simpa [Tree.ofBlock, Tree.children, Tree.form, Form.fields] using .inr ht
  grind [Engine.typeBlock]

theorem yieldTo (b : Nat) {bc : BlockContext} (args : List NodeId) (hblock : (Tree.ofBlock bc.block).Numbered N 0) :
    Climbs N (e.yieldTo b bc args) := by
  have hbind := h.bindBlockParams (N := N)
  have htype := fun s => h.typeBlock s hblock
  have hopen := climbs_openBlockScope (N := N) b bc
  grind [Engine.yieldTo]

@[grind ←]
theorem visitYield (s : ScopeId) (n : Placed) {args : List Placed} (hargs : ∀ t ∈ args, t.Numbered N 0) :
    Climbs N (e.visitYield s n args) := by
  refine .bind (.aside (aside_scope s)) fun sc => ?_
  split
  · exact .throw _
  · rename_i b _
    refine (h.visitAll s hargs).bind fun _ => climbs_env fun env origin _ hS => Rising.always ?_
    split
    · exact Climbs.pure _
    · rename_i bc hb
      have hyield := fun nodes => h.yieldTo b nodes (hS.blocks bc (Array.mem_of_getElem? hb))
      exact (climbs_nodesOf _).bind fun nodes => (hyield nodes).bind fun _ => by grind

/-- The expansion of a macro call comes after it. -/
theorem visitMacro (s : ScopeId) (n : Placed) {call : CallParts} (d : MacroDefinition) (hmark : call.mark.occ < N) :
    Climbs N (e.visitMacro s n call d) := by
  refine .bind (.aside aside_env) fun env => .bind (.aside (aside_expansionAt _ _)) fun x => ?_
  refine Rising.place lasting_true fun tree N' hN htree => ?_
  refine Climbs.bind (rising_changeNote (fun S note hS _ hnote => ?_) lasting_true) fun _ => ?_
  · refine ⟨fun t ht => ?_, hnote.added, hnote.conversions, hnote.targets⟩
    obtain rfl := Option.some.inj ht
    exact htree.mono hS (Nat.succ_le_of_lt hmark)
  · have hvisit := h.visit N' s tree (htree.mono (Nat.le_refl _) (Nat.zero_le _))
    refine hvisit.attempt.bind fun outcome => ?_
    split <;> grind

/-! ### Instances -/

theorem typePrimitive (id : InstanceId) : Climbs N (e.typePrimitive id) := by
  refine .bind (.aside (aside_instanceOf id)) fun inst => .bind (.aside (aside_method _)) fun m => ?_
  extract_lets d k
  have hk : ∀ result, Climbs N (k result) := by
    exact fun result => climbs_write_bind id _ fun body N' _ => by grind
  split
  · exact (Climbs.pure _).bind hk
  · exact .bind (.aside (.locating (aside_resolveDeclared _ _) _)) hk

theorem bindParams (s : ScopeId) (params : List (Param Source × TypeId)) : Climbs N (e.bindParams s params) := by
  induction params <;> grind [Engine.bindParams]

theorem typeBody (x : NodeId) (id : InstanceId) : Climbs N (e.typeBody x id) := by
  refine .bind (.aside (aside_instanceOf id)) fun inst => .bind (.aside (aside_method _)) fun m => ?_
  refine climbs_writeBody_bind id _ _ fun body N' hplaced => ?_
  refine (climbs_openBody _ _ _ _).bind fun s => (h.bindParams s _).bind fun _ => ?_
  refine .bind (.aside (aside_freezeResult _ _)) fun _ => (h.visit N' s body hplaced).bind fun _ => ?_
  grind

theorem typeNested (x : NodeId) (loc : Option Location) (id : InstanceId) : Climbs N (e.typeNested x loc id) := by
  have hdepth : ∀ f : Nat → Nat, Climbs N (Infer.changeEnv fun env => { env with depth := f env.depth }) :=
    fun f => .aside (.changeEnv (fun _ => rfl) fun _ => rfl)
  refine (hdepth (· + 1)).bind fun _ => (h.typeBody x id).attempt.bind fun outcome => (hdepth (· - 1)).bind fun _ => ?_
  split <;> grind

theorem typeInstance (site : Site) (id : InstanceId) (kind : MethodKind) :
    Climbs N (e.typeInstance site id kind) := by
  unfold Engine.typeInstance
  split
  · exact h.typePrimitive id
  · exact .aside (aside_typeMember _ _ _)
  · exact .aside (aside_typeMember _ _ _)
  · exact h.typeNested _ _ _
  · exact h.typeNested _ _ _

/-- The instance of a call is there. -/
theorem instantiate (site : Site) (owner : TypeId) (m : Match MethodId) :
    Rising N (fun _ => True) (fun i S => i < S.env.instances.size) (e.instantiate site owner m) := by
  refine (rising_method _).andThen fun method => ?_
  simp only
  split
  · rename_i inst hknown
    refine .pure fun S hm => hm inst (.inl ⟨owner :: m.argTypes, ?_⟩)
    split at hknown
    · exact mem_of_assoc? hknown
    · cases hknown
  · refine Rising.always (.after (.aside aside_env) lasting_true fun env => ?_)
    split
    · exact .after (.aside Flow.aside_types) lasting_true fun t => .throw _
    · refine (rising_newInstance _ _ _ _).andThen fun inst => ?_
      have hlast : Rising N (fun S => inst < S.env.instances.size) (fun i S => i < S.env.instances.size) (do
          e.typeInstance site inst method.kind
          return inst) :=
        .after (h.typeInstance _ _ _) (lasting_instance inst) fun _ => .pure fun _ hi => hi
      split
      · refine (rising_changeMethod fun m' j hj => ?_).andThen fun _ => hlast
        rcases hj with ⟨key, hkey⟩ | hext
        · rcases List.mem_cons.mp hkey with hnew | hold
          · exact .inr (congrArg Prod.snd hnew)
          · exact .inl (.inl ⟨key, hold⟩)
        · exact .inl (.inr hext)
      · exact hlast

/-! ### Dispatching -/

section

variable {α : Type} {P : Stage → Prop} {Q : α → Stage → Prop} {M : Nat} {site : Site}

theorem placeholder {name : String} {loc : Option Location} {t : TypeId} {k : Placed → Infer α} (hP : Lasting P)
    (hk : ∀ v N', N ≤ N' → v.Numbered N' N → Rising N' P Q (k v)) : Rising N P Q (e.placeholder name loc t >>= k) := by
  unfold Engine.placeholder
  simp only [bind_assoc, pure_bind]
  refine .freshMark hP fun m N' hN ⟨hlow, hhigh⟩ => .after (h.setType _ _) hP fun _ => ?_
  exact hk _ N' hN (numbered_localVar _ _ hlow hhigh)

theorem placeholders {loc : Option Location} {i : Nat} {ts : List TypeId} {k : List Placed → Infer α}
    (hP : Lasting P) (hk : ∀ vs N', N ≤ N' → (∀ v ∈ vs, v.Numbered N' N) → Rising N' P Q (k vs)) :
    Rising N P Q (e.placeholders loc i ts >>= k) := by
  induction ts generalizing N i k with
  | nil => exact hk [] N (Nat.le_refl _) nofun
  | cons t ts ih =>
    rw [Engine.placeholders, bind_assoc]
    refine h.placeholder hP fun v N₁ hN₁ hv => ?_
    simp only [bind_assoc, pure_bind]
    refine ih fun vs N₂ hN₂ hvs => hk _ N₂ (hN₁.trans hN₂) fun w hw => ?_
    rcases List.mem_cons.mp hw with rfl | hw
    · exact hv.mono hN₂ (Nat.le_refl _)
    · exact (hvs w hw).mono (Nat.le_refl _) hN₁

theorem receiverPlaceholder {t : TypeId} {k : Option Placed → Infer α} (hP : Lasting P)
    (hk : ∀ v N', N ≤ N' → (∀ t ∈ v, t.Numbered N' N) → Rising N' P Q (k v)) :
    Rising N P Q (e.receiverPlaceholder site t >>= k) := by
  unfold Engine.receiverPlaceholder
  split
  · rw [pure_bind]
    exact hk none N (Nat.le_refl _) nofun
  · rw [bind_assoc]
    refine h.placeholder hP fun v N' hN hv => ?_
    rw [pure_bind]
    exact hk (some v) N' hN fun t ht => Option.some.inj ht ▸ hv

/-- A subcall is numbered as a whole, before the parts that are made for it. -/
theorem subcallFor {shape : List TypeId} {k : CallParts → Infer α} (hP : Lasting P)
    (hk : ∀ (call : CallParts) N', N ≤ N' → call.mark.occ < N' → (∀ b ∈ call.block, (Tree.ofBlock b).Numbered N' 0) →
      call.tree.Numbered N' N → Rising N' P Q (k call)) : Rising N P Q (e.subcallFor site shape >>= k) := by
  unfold Engine.subcallFor
  simp only [bind_assoc, pure_bind]
  refine .freshMark hP fun mark N₁ hN₁ ⟨hlow, hhigh⟩ => ?_
  refine h.receiverPlaceholder hP fun obj N₂ hN₂ hobj => h.placeholders hP fun args N₃ hN₃ hargs => ?_
  refine rising_blockCopy hP fun block N₄ hN₄ hblock => ?_
  have hsmall : mark.occ < N₄ := by omega
  refine hk _ N₄ (by omega) hsmall (fun b hb => (hblock b hb).mono (Nat.le_refl _) (Nat.zero_le _)) ?_
  refine .node hlow hsmall fun c hc => ?_
  have hcases : c ∈ obj ∨ c ∈ args ∨ ∃ b ∈ block, c = Tree.ofBlock b := by
    simpa [CallParts.tree, Tree.children, Tree.form, Form.fields, eq_comm, or_assoc] using hc
  rcases hcases with hc | hc | ⟨b, hb, rfl⟩
  · exact (hobj c hc).mono (hN₃.trans hN₄) hhigh
  · exact (hargs c hc).mono hN₄ (Nat.succ_le_of_lt (Nat.lt_of_lt_of_le hhigh hN₂))
  · exact (hblock b hb).mono (Nat.le_refl _) (Nat.succ_le_of_lt (Nat.lt_of_lt_of_le hhigh (hN₂.trans hN₃)))

/-- Subcalls are added to a dispatch after the call that it was opened for. -/
theorem subcall {d : Nat} (shape : List TypeId) (hM : M ≤ N) :
    Rising N (Stage.Opened d M) (fun _ => Stage.Opened d M) (e.subcall site d shape) := by
  have hlast := Stage.lasting_opened d M
  refine h.subcallFor hlast fun call N' hN hmark hblock htree => ?_
  refine (rising_changeDispatch fun c t ht => ?_).andThen fun _ => ?_
  · rcases List.mem_append.mp ht with hold | hnew
    · exact .inl hold
    · exact .inr (List.mem_singleton.mp hnew ▸ htree.mono (Nat.le_refl _) hM)
  · refine .after (climbs_newSite _ _ hmark hblock) hlast fun node => .after (h.recalculate N' node) hlast fun _ => ?_
    exact .after (.aside (aside_dispatchNode d)) hlast fun _ => Rising.keep (h.connect _ _) hlast

theorem subcalls {d : Nat} (shapes : List (List TypeId)) (hM : M ≤ N) :
    Rising N (Stage.Opened d M) (fun _ => Stage.Opened d M) (e.subcalls site d shapes) := by
  induction shapes with
  | nil => exact .pure fun _ hd => hd
  | cons shape shapes ih =>
    refine (rising_addShape d M shape).andThen fun added => ?_
    simp only
    split
    · exact (h.subcall shape hM).andThen fun _ => ih
    · exact ih

/-- What is noted of a call over several classes is its own dispatch. -/
theorem dispatch {o : Nat} (recvs args : List TypeId) (ho : o < N) :
    Rising N (Stage.Calls site.node o) (fun r S => ∀ t ∈ r.2, S.Allows o t) (e.dispatch site recvs args) := by
  refine (Rising.aside (aside_shapesForAll _ _ _) fun _ _ _ => Stage.calls_of_outline).andThen fun shapes => ?_
  refine (rising_openDispatch site.node o _).andThen fun d => ?_
  have hlast := Stage.lasting_allows o (.dispatch d)
  have hsubcalls : Rising N (fun S => S.Allows o (.dispatch d)) (fun _ S => S.Allows o (.dispatch d))
      (e.subcalls site d shapes) :=
    ((h.subcalls shapes (Nat.le_refl N)).keeping hlast).imp (fun S hd => ⟨⟨hd.1, hd.2.trans_lt ho⟩, hd⟩)
      fun _ _ => And.right
  refine hsubcalls.andThen fun _ => .after (.aside (aside_dispatchNode d)) hlast fun _ => ?_
  exact .pure fun S hd t ht => List.mem_singleton.mp ht ▸ hd

end

/-! ### Foreign functions -/

/-- A conversion comes after the call whose argument it converts. -/
@[grind ←]
theorem convert (x : NodeId) (i : Nat) : Climbs N (e.convert x i) := by
  refine climbs_site? (.pure _) fun site N₁ hN₁ _ hmark _ => Rising.always ?_
  simp only
  split
  · exact Climbs.pure _
  · refine Climbs.bind (climbs_changeSite x fun _ => ⟨rfl, rfl, rfl⟩) fun _ => ?_
    split
    · exact Climbs.pure _
    · rename_i arg _
      refine Rising.freshMark lasting_true fun mark N₂ hN₂ ⟨hlow, hhigh⟩ => ?_
      refine Climbs.bind (rising_changeNote (fun S n hS _ hn => ?_) lasting_true) fun _ => ?_
      · refine ⟨hn.expansion, hn.added, fun c hc => ?_, hn.targets⟩
        rcases List.mem_append.mp hc with hold | hnew
        · exact hn.conversions c hold
        · obtain rfl := List.mem_singleton.mp hnew
          exact ⟨Nat.lt_of_lt_of_le hmark hlow, Nat.lt_of_lt_of_le hhigh hS⟩
      · exact (climbs_newSite _ _ hhigh fun _ hb => by cases hb).bind fun id => h.recalculate N₂ id

theorem checkArgs (site : Site) (lib : TypeId) (i : Nat) (params : List NodeId) (args : List TypeId) :
    Climbs N (e.checkArgs site lib i params args) := by
  induction params generalizing i args with
  | nil => exact .pure _
  | cons p params ih => cases args <;> grind [Engine.checkArgs]

theorem convertRest (site : Site) (i : Nat) (args : List TypeId) : Climbs N (e.convertRest site i args) := by
  induction args generalizing i <;> grind [Engine.convertRest]

theorem callFun (site : Site) (lib : TypeId) (args : List TypeId) (id : MethodId) (o : Nat) :
    Rising N (fun _ => True) (fun r S => ∀ t ∈ r.2, S.Allows o t) (e.callFun site lib args id) := by
  refine .after (.aside (aside_method id)) lasting_true fun m => ?_
  simp only
  split
  · exact .after (.aside Flow.aside_types) lasting_true fun _ => .throw _
  · refine (rising_externalId id).andThen fun i => ?_
    have hlast := lasting_instance i
    have hreturn : ∀ nodes : List NodeId, Rising N (fun S => i < S.env.instances.size)
        (fun r S => ∀ t ∈ r.2, S.Allows o t) (Pure.pure (nodes, [.inst i])) :=
      fun nodes => .pure fun S hi t ht => List.mem_singleton.mp ht ▸ hi
    refine .after (.aside (aside_instanceOf i)) hlast fun inst => ?_
    refine .after (h.checkArgs _ _ _ _ _) hlast fun _ => ?_
    split
    · exact .after (h.convertRest _ _ _) hlast fun _ => hreturn _
    · exact hreturn _

theorem funCall (site : Site) (lib : TypeId) (args : List TypeId) (o : Nat) :
    Rising N (fun _ => True) (fun r S => ∀ t ∈ r.2, S.Allows o t) (e.funCall site lib args) := by
  refine .after (.aside (aside_fun? _ _)) lasting_true fun id => ?_
  split
  · exact .after (.aside Flow.aside_types) lasting_true fun _ => .throw _
  · exact h.callFun _ _ _ _ _

@[grind ←]
theorem outTarget (site : Site) (arg : Placed) : Climbs N (e.outTarget site arg) := by
  unfold Engine.outTarget
  split <;> grind

theorem bindOuts (site : Site) (lib : TypeId) (id : MethodId) (i : Nat) (params : List (Param Source))
    (args : List Placed) : Climbs N (e.bindOuts site lib id i params args) := by
  have hexternal := (rising_external (N := N) id).climbs
  induction params generalizing i args with
  | nil => exact .pure _
  | cons p params ih =>
    cases args with
    | nil => exact .pure _
    | cons arg args =>
      have hrest := ih (i + 1) args
      unfold Engine.bindOuts
      grind

theorem bindOutArgs (site : Site) (lib : TypeId) : Climbs N (e.bindOutArgs site lib) := by
  refine .bind (.aside (aside_fun? _ _)) fun id => ?_
  split
  · exact .pure _
  · refine .bind (climbs_changeSite site.node fun _ => ⟨rfl, rfl, rfl⟩) fun _ => ?_
    exact .bind (.aside (aside_method _)) fun m => h.bindOuts _ _ _ _ _ _

/-! ### Resolving calls -/

theorem resolveSingle {site : Site} {o : Nat} (recv : TypeId) (args : List TypeId) (ho : o < N) :
    Rising N (Stage.Calls site.node o) (fun r S => ∀ t ∈ r.2, S.Allows o t) (e.resolveSingle site recv args) := by
  refine (Rising.aside (aside_matchCall _ _ _) fun _ _ _ => Stage.calls_of_outline).andThen fun found => ?_
  simp only
  split
  · exact h.dispatch _ _ ho
  · split
    · exact .pure fun _ _ => nofun
    · refine Rising.always ((h.instantiate site _ _).andThen fun i => ?_)
      refine .after (.aside (aside_instanceOf i)) (lasting_instance i) fun inst => ?_
      exact .pure fun S hi t ht => List.mem_singleton.mp ht ▸ hi

/-- **What a call resolves to is its own**: an instance that is there, or the dispatch that was opened for it. -/
theorem resolveCall {site : Site} {o : Nat} (recv : TypeId) (args : List TypeId) (ho : o < N) :
    Rising N (Stage.Calls site.node o) (fun r S => ∀ t ∈ r.2, S.Allows o t) (e.resolveCall site recv args) := by
  refine (Rising.aside Flow.aside_types fun _ _ _ => Stage.calls_of_outline).andThen fun t => ?_
  split
  · exact Rising.always (h.funCall _ _ _ _)
  · split
    · exact h.resolveSingle _ _ ho
    · exact h.dispatch _ _ ho

theorem retarget (x : NodeId) (loc : Option Location) (occ : Nat) (nodes : List NodeId) (targets : List Target) :
    Rising N (fun S => ∀ t ∈ targets, S.Allows occ t) (fun _ _ => True) (e.retarget x loc occ nodes targets) := by
  have hlast : Lasting fun S => ∀ t ∈ targets, S.Allows occ t :=
    fun S S' hrises ht t hmem => (ht t hmem).mono hrises
  refine .after (.aside (aside_site? x)) hlast fun site => .after (.aside (.changeGraph _)) hlast fun _ => ?_
  refine .after (climbs_changeSite x fun _ => ⟨rfl, rfl, rfl⟩) hlast fun _ => ?_
  refine (rising_changeNote (fun S n _ ht hn => ?_) hlast).andThen fun _ => ?_
  · exact ⟨hn.expansion, hn.added, hn.conversions, ht⟩
  · exact Rising.always ((h.connect _ _).locating _)

theorem resolveFor (x : NodeId) (recv : TypeId) (args : List TypeId) : Climbs N (e.resolveFor x recv args) := by
  refine climbs_site? (.pure _) fun site N' _ hnode hmark _ => ?_
  subst hnode
  simp only
  split
  · exact .pure fun _ _ => trivial
  · have hkey : Rising N' (fun S => S.env.sites.get? site.node = some site)
        (fun _ => Stage.Calls site.node site.call.mark.occ)
        (Infer.changeSite site.node fun s => { s with key := some (recv :: args) }) := by
      refine .step fun p origin _ _ hs => ⟨origin, .site fun _ => ⟨rfl, rfl, rfl⟩, fun _ _ => ?_⟩
      refine ⟨{ site with key := some (recv :: args) }, ?_, rfl⟩
      change (p.env.sites.modify site.node _).get? site.node = _
      rw [Slots.get?_modify, if_pos rfl, show p.env.sites.get? site.node = some site from hs]
      rfl
    exact hkey.andThen fun _ => ((h.resolveCall recv args hmark).locating _).andThen fun found => h.retarget _ _ _ _ _

theorem resolveSite (x : NodeId) : Climbs N (e.resolveSite x) := by
  refine .bind (.aside (aside_site? x)) fun site => ?_
  split
  · exact .pure _
  · refine .bind (.aside (aside_receiverType _)) fun recv => ?_
    split
    · exact .pure _
    · have hprepare : ∀ site, Climbs N (e.prepare site recv) := by
        have hbind := fun site => h.bindOutArgs (N := N) site recv
        grind [Engine.prepare]
      refine (hprepare _).bind fun _ => .bind (.aside (aside_typesOf? _)) fun args => ?_
      split
      · exact .pure _
      · exact h.resolveFor _ _ _

/-! ### Calls -/

section

variable {call : CallParts} (hmark : call.mark.occ < N) (hobj : ∀ t ∈ call.obj, t.Numbered N 0)
  (hargs : ∀ t ∈ call.args, t.Numbered N 0) (hblock : ∀ b ∈ call.block, (Tree.ofBlock b).Numbered N 0)
include hmark hargs hblock

theorem visitSuper (s : ScopeId) : Climbs N (e.visitSuper s call) := by
  refine .bind (.aside (aside_callingMethod? s)) fun found => ?_
  split
  · exact .throw _
  · refine climbs_superArgs hmark hargs fun args N' hN hplaced => ?_
    refine (h.visitAll s hplaced).bind fun _ => Climbs.bind ?_ fun node => h.recalculate N' node
    exact climbs_newSite _ _ (Nat.lt_of_lt_of_le hmark hN) fun b hb => (hblock b hb).mono hN (Nat.le_refl _)

include hobj

theorem visitPlainCall (s : ScopeId) : Climbs N (e.visitPlainCall s call) := by
  refine (h.visitOption s hobj).bind fun _ => (h.visitAll s hargs).bind fun _ => ?_
  exact (climbs_newSite _ _ hmark hblock).bind fun node => h.recalculate N node

@[grind ←]
theorem visitCall (s : ScopeId) (n : Placed) : Climbs N (e.visitCall s n call) := by
  have hplain := h.visitPlainCall hmark hobj hargs hblock s
  have hsuper := h.visitSuper hmark hargs hblock s
  have hmacro := fun d => h.visitMacro s n d hmark
  grind [Engine.visitCall]

end

/-! ### Declarations -/

@[grind ←]
theorem visitMethodDef (s : ScopeId) (n : Placed) (receiver : String) (d : Definition) :
    Climbs N (e.visitMethodDef s n receiver d) := by
  grind [Engine.visitMethodDef]

theorem visitBody (home : TypeId) {body : Option Placed} (hbody : ∀ t ∈ body, t.Numbered N 0) :
    Climbs N (e.visitBody home body) := by
  have hvisit := fun s => h.visitOption s hbody
  grind [Engine.visitBody]

@[grind ←]
theorem visitClassDef (s : ScopeId) (n : Placed) (name : String) (superclass : Option (PathRef Mark))
    (typeParams : List String) {body : Option Placed} (hbody : ∀ t ∈ body, t.Numbered N 0) :
    Climbs N (e.visitClassDef s n name superclass typeParams body) := by
  have hvisit := fun home => h.visitBody home hbody
  grind [Engine.visitClassDef]

@[grind ←]
theorem visitModuleDef (s : ScopeId) (n : Placed) (name : String) {body : Option Placed}
    (hbody : ∀ t ∈ body, t.Numbered N 0) : Climbs N (e.visitModuleDef s n name body) := by
  have hvisit := fun home => h.visitBody home hbody
  grind [Engine.visitModuleDef]

@[grind ←]
theorem visitInclude (s : ScopeId) (n : Placed) (names : List String) (typeArgs : List TypeExpr) :
    Climbs N (e.visitInclude s n names typeArgs) := by
  grind [Engine.visitInclude]

@[grind ←]
theorem visitMacroDef (n : Placed) (name : String) (params : Option (List String)) (body : Option Placed) :
    Climbs N (e.visitMacroDef n name params body) := by
  unfold Engine.visitMacroDef
  split
  · exact .throw _
  · exact .bind (.aside (.changeEnv (fun _ => rfl) fun _ => rfl)) fun _ => h.setType _ _

@[grind ←]
theorem visitLibDef (s : ScopeId) (n : Placed) (name : String) {body : List Placed}
    (hbody : ∀ t ∈ body, t.Numbered N 0) : Climbs N (e.visitLibDef s n name body) := by
  have hvisit := fun s => h.visitAll s hbody
  grind [Engine.visitLibDef]

@[grind ←]
theorem visitFunDef (s : ScopeId) (n : Placed) (name : String) (params : List (Param Source))
    (result : Option TypeExpr) (varargs : Bool) : Climbs N (e.visitFunDef s n name params result varargs) := by
  refine .bind (.aside (aside_currentLib _ _ _)) fun lib => .bind (.aside (aside_checkFunParams _ _ _ _)) fun _ => ?_
  extract_lets k
  have hk : ∀ u, Climbs N (k u) := by
    refine fun _ => .bind (.aside (aside_newMethod rfl rfl)) fun id => ?_
    exact .bind (.aside (.changeEnv (fun _ => rfl) fun _ => rfl)) fun _ => h.setType _ _
  split
  · exact .bind (.aside (aside_resolveIn _ _)) fun _ => hk ()
  · exact hk ()

@[grind ←]
theorem visitStructDef (s : ScopeId) (n : Placed) (name : String) (isUnion : Bool) (members : List (Param Source)) :
    Climbs N (e.visitStructDef s n name isUnion members) := by
  refine .bind (.aside (aside_currentLib _ _ _)) fun lib => .bind (.aside Flow.aside_types) fun t => ?_
  simp only
  split
  · exact .throw _
  · refine .bind (.aside (.onTypes _)) fun id => .bind (.aside (aside_addMembers _ _ _ _ _)) fun _ => ?_
    refine .bind (.aside (.onTypes _)) fun self => .bind (.aside (aside_addMethod _ _)) fun _ => ?_
    grind

@[grind ←]
theorem visitTypeDef (s : ScopeId) (n : Placed) (name : String) (type : Option TypeExpr) :
    Climbs N (e.visitTypeDef s n name type) := by
  cases type <;> grind [Engine.visitTypeDef]

/-! ### Trees -/

@[grind ←]
theorem visitExpressions (s : ScopeId) (n : Placed) {body : List Placed} (hbody : ∀ t ∈ body, t.Numbered N 0) :
    Climbs N (e.visitExpressions s n body) := by
  have hvisit := h.visitAll s hbody
  grind [Engine.visitExpressions]

@[grind ←]
theorem visitIsA (s : ScopeId) (n : Placed) {obj : Option Placed} (type : Option TypeExpr)
    (hobj : ∀ t ∈ obj, t.Numbered N 0) : Climbs N (e.visitIsA s n obj type) := by
  have hvisit := h.visitOption s hobj
  have hdiscard : ∀ t, Aside (discard (resolveType s t)) := fun t => (aside_resolveType s t).bind fun _ => .pure _
  cases type <;> grind [Engine.visitIsA]

@[grind ←]
theorem visitRespondsTo (s : ScopeId) (n : Placed) {obj : Option Placed} (hobj : ∀ t ∈ obj, t.Numbered N 0) :
    Climbs N (e.visitRespondsTo s n obj) := by
  have hvisit := h.visitOption s hobj
  grind [Engine.visitRespondsTo]

@[grind ←]
theorem visitPointerOf (s : ScopeId) (n : Placed) {target : Option Placed} (htarget : ∀ t ∈ target, t.Numbered N 0) :
    Climbs N (e.visitPointerOf s n target) := by
  unfold Engine.visitPointerOf
  split
  · exact .throw _
  · rename_i t ht
    have hvisit := h.visit N s t (htarget t (Option.filter_eq_some_iff.mp ht).1)
    grind

@[grind ←]
theorem visitSelf (s : ScopeId) (n : Placed) : Climbs N (e.visitSelf s n) := by
  grind [Engine.visitSelf]

-- what is in the fields of a layer
attribute [local simp] Tree.nodesOf Form.fields

theorem visitDeclaration (s : ScopeId) {n : Placed} (hn : n.Numbered N 0) : Climbs N (e.visitDeclaration s n) := by
  unfold Engine.visitDeclaration
  split
  case h_2 hf =>
    have hparts := parts_of_form hn hf
    simp [or_imp, forall_and] at hparts
    exact h.visitClassDef s n _ _ _ hparts.2
  case h_3 hf => exact h.visitModuleDef s n _ (by simpa using parts_of_form hn hf)
  case h_5 hf =>
    exact h.visitLibDef s n _ (forall_mem_getD (by simpa using parts_of_form hn hf))
  all_goals grind

theorem visitControl (s : ScopeId) {n : Placed} (hn : n.Numbered N 0) : Climbs N (e.visitControl s n) := by
  have hdeclaration := h.visitDeclaration s hn
  unfold Engine.visitControl
  split
  case h_1 hf =>
    have hparts := parts_of_form hn hf
    simp [or_imp, forall_and] at hparts
    exact h.visitIf s n hparts.1 hparts.2.1 hparts.2.2
  case h_2 hf =>
    have hparts := parts_of_form hn hf
    simp [or_imp, forall_and] at hparts
    exact h.visitUnless s n hparts.1 hparts.2.1 hparts.2.2
  case h_3 hf =>
    have hparts := parts_of_form hn hf
    simp [or_imp, forall_and] at hparts
    refine h.visitCase s n hparts.1 (forall_mem_getD fun w ws hws hw => ⟨fun t => ?_, fun t => ?_⟩) hparts.2.2
    · exact hparts.2.1.1 t ws hws w hw
    · exact hparts.2.1.2 t ws hws w hw
  case h_4 hf =>
    have hparts := parts_of_form hn hf
    simp [or_imp, forall_and] at hparts
    exact h.visitWhile s n hparts.1 hparts.2
  case h_5 hf => exact h.visitReturn s n (by simpa using parts_of_form hn hf)
  case h_6 hf => exact h.visitBreak s n (by simpa using parts_of_form hn hf)
  case h_7 => exact hdeclaration

theorem visitForm (s : ScopeId) {n : Placed} (hn : n.Numbered N 0) : Climbs N (e.visitForm s n) := by
  have hcontrol := h.visitControl s hn
  unfold Engine.visitForm
  split
  case h_9 hf => exact h.visitArray s n _ (forall_mem_getD (by simpa using parts_of_form hn hf))
  case h_16 hf =>
    have hparts := parts_of_form hn hf
    simp [or_imp, forall_and] at hparts
    exact h.visitAssign s n _ hparts.2
  case h_18 hf => exact h.visitExpressions s n (forall_mem_getD (by simpa using parts_of_form hn hf))
  case h_19 hf =>
    have hparts := parts_of_form hn hf
    simp [or_imp, forall_and] at hparts
    exact h.visitCall hn.high hparts.1 (forall_mem_getD hparts.2.1) (fun b hb => hparts.2.2 _ b hb rfl) s n
  case h_21 hf => exact h.visitYield s n (forall_mem_getD (by simpa using parts_of_form hn hf))
  case h_22 hf => exact h.visitIsA s n _ (by simpa using parts_of_form hn hf)
  case h_23 hf => exact h.visitRespondsTo s n (by simpa using parts_of_form hn hf)
  case h_24 hf => exact h.visitPointerOf s n (by simpa using parts_of_form hn hf)
  all_goals grind

theorem visitNode (s : ScopeId) {n : Placed} (hn : n.Numbered N 0) : Climbs N (e.visitNode s n) :=
  (climbs_nodeOf n).bind fun _ => (h.visitForm s hn).locating _

end Climbing

end Engine

/-! ### The engine -/

/-- **Typing a tree that was placed and resolving a call keep a program stratified**, however deep they nest. -/
theorem engine_climbing (fuel : Nat) : (engine fuel).Climbing := by
  -- an engine is made of the steps over the one that nests one level less
  induction fuel with
  | zero => exact ⟨fun _ _ _ _ => .throw _, fun _ _ => .throw _⟩
  | succ fuel ih => exact ⟨fun _ s n hn => ih.visitNode s hn, fun _ x => ih.resolveSite x⟩

/-! ### Programs -/

/-- A tree at top level becomes a root, and is typed then. -/
theorem Program.climbs_infer (t : Source) : Climbs N (infer t) := by
  refine Rising.place lasting_true fun root N' _ hroot => ?_
  have hadd : Climbs N' (Infer.changeEnv fun e => { e with roots := e.roots ++ [root] }) := by
    refine .step fun p origin hN _ _ => ⟨origin, ?_, fun _ _ => trivial⟩
    refine { rises := ⟨Nat.le_refl _, Nat.le_refl _, Nat.le_refl _, fun _ _ => rfl⟩, roots := fun t ht => ?_,
             bodies := same, notes := sameAt, sites := sameAt, blocks := same, dispatches := sameAt,
             remembered := same }
    refine (List.mem_append.mp ht).imp_right fun hnew => ?_
    obtain rfl := List.mem_singleton.mp hnew
    exact hroot.mono hN (Nat.zero_le _)
  refine hadd.bind fun _ => Climbs.bind (.aside (Infer.aside_newScope _)) fun s => ?_
  exact (engine_climbing nesting).visit N' s root (hroot.mono (Nat.le_refl _) (Nat.zero_le _))

/-- A program starts without trees and calls. -/
theorem Program.stratified_initial (x : Expander) (origin : Nat → Nat) :
    Stage.Stratified ⟨(initial x).env, origin⟩ := by
  have hbeside : Env.Beside { expander := x } (initial x).env :=
    aside_setUp { types := .initial, graph := {}, env := { expander := x } }
  refine (Stage.Step.beside (S := ⟨{ expander := x }, origin⟩) hbeside).stratified ⟨nofun, ?_, ?_, ?_, ?_, ?_, ?_⟩
  · exact fun a ha => absurd ha (Array.not_mem_empty a)
  · intro o n hn
    cases o <;> cases hn
  · intro y s hs
    cases y <;> cases hs
  · exact fun c hc => absurd hc (Array.not_mem_empty c)
  · intro d c hc
    cases d <;> cases hc
  · exact fun i ⟨m, hm, _⟩ => absurd hm (Array.not_mem_empty m)

/-- **Every state of a program is stratified.** -/
theorem Session.stratified {x : Expander} {p : Program} (h : Session x p) :
    ∃ origin, Stage.Stratified ⟨p.env, origin⟩ := by
  -- one step leads from one state to the next
  have hstep {p : Program} {m : Infer Unit} (hm : Climbs 0 m) (hp : ∃ origin, Stage.Stratified ⟨p.env, origin⟩) :
      ∃ origin, Stage.Stratified ⟨(p.run m).2.env, origin⟩ := by
    obtain ⟨origin, hp⟩ := hp
    obtain ⟨origin', -, hp', -⟩ := hm p origin (Nat.zero_le _) hp trivial
    exact ⟨origin', hp'⟩
  induction h with
  | initial => exact ⟨fun _ => 0, Program.stratified_initial x _⟩
  | numbers _ n ih => exact hstep (.aside (Standard.aside_defineNumeric n)) ih
  | containers _ int ih => exact hstep (.aside (Standard.aside_defineContainers int)) ih
  | method _ owner d ih => exact hstep (.aside (Infer.aside_addMethod owner d)) ih
  | tree _ t ih => exact hstep (Program.climbs_infer t) ih

end TypeFlow
