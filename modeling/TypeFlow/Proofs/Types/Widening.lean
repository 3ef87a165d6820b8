import TypeFlow.Inference.Methods
import TypeFlow.Proofs.Overload.Matching
import TypeFlow.Proofs.Types.Concrete

/-!
# Tables only widen

Whatever typing does to a table, every type stays what it is and every class stays in the list of the
class it was declared below (`Table.Widens`). So the classes of a type are never fewer than before
(`Widens.mem_concrete`); a class that is declared later may add to them.

Nothing is assumed of the table. `Table.Widening x` says it of every run of the computation `x`, and the
rules follow the way computations on tables are put together.
-/

namespace TypeFlow

namespace Table

variable {t t' t'' : Table} {α β γ : Type}

/-! ### The relation -/

/-- Every type stays what it is, and no class leaves the list of another one. -/
structure Widens (t t' : Table) : Prop extends Extends t t' where
  below : ∀ id, t.listedBelow id ⊆ t'.listedBelow id

namespace Widens

theorem refl (t : Table) : Widens t t :=
  ⟨.refl t, fun _ => List.Subset.refl _⟩

theorem trans (h : Widens t t') (h' : Widens t' t'') : Widens t t'' :=
  ⟨h.toExtends.trans h'.toExtends, fun id => List.Subset.trans (h.below id) (h'.below id)⟩

/-- What is found below a class is found again, by a search that goes as deep. -/
theorem subtreeUpTo_subset (h : Widens t t') {fuel fuel' : Nat} (hle : fuel ≤ fuel') (id : TypeId) :
    t.subtreeUpTo fuel id ⊆ t'.subtreeUpTo fuel' id := by
  induction fuel generalizing fuel' id with
  | zero =>
    intro c hc
    obtain rfl : c = id := List.mem_singleton.mp hc
    cases fuel' <;> exact List.mem_cons_self
  | succ fuel ih =>
    obtain ⟨fuel', rfl⟩ := Nat.exists_eq_add_one_of_ne_zero (Nat.ne_of_gt (Nat.lt_of_lt_of_le
      (Nat.succ_pos fuel) hle))
    intro c hc
    -- one level down both searches go on from the classes listed below `id`
    rw [subtreeUpTo_succ] at hc ⊢
    rcases List.mem_cons.mp hc with rfl | hc
    · exact List.mem_cons_self
    · obtain ⟨d, hd, hcd⟩ := List.mem_flatMap.mp hc
      refine List.mem_cons_of_mem _ (List.mem_flatMap.mpr ⟨d, h.below id hd, ?_⟩)
      exact ih (Nat.le_of_succ_le_succ hle) d hcd

/-- **The classes of a known type are never fewer than before.** -/
theorem mem_concrete (h : Widens t t') (hwf : WellFormed t) {id c : TypeId} (hid : id < t.size)
    (hc : c ∈ t.concrete id) : c ∈ t'.concrete id := by
  obtain ⟨p, hp, hcp⟩ := mem_concrete_iff.mp hc
  -- the parts of a type are fixed with it; only a whole hierarchy is read off the class lists
  refine mem_concrete_iff.mpr ⟨p, ?_, ?_⟩
  · rwa [h.toExtends.parts_eq hwf hid]
  · cases p with
    | one m => exact hcp
    | whole base => exact h.subtreeUpTo_subset h.size_le base hcp

/-- What was a combination of classes of the arguments is still one. -/
theorem mem_product (h : Widens t t') (hwf : WellFormed t) {args xs : List TypeId}
    (hargs : ∀ a ∈ args, a < t.size) (hxs : xs ∈ Overload.product (args.map t.concrete)) :
    xs ∈ Overload.product (args.map t'.concrete) := by
  induction args generalizing xs with
  | nil => exact hxs
  | cons a args ih =>
    obtain ⟨ha, hargs⟩ := List.forall_mem_cons.mp hargs
    obtain ⟨x, hx, ys, hys, rfl⟩ := Overload.mem_product_cons.mp hxs
    exact Overload.mem_product_cons.mpr ⟨x, h.mem_concrete hwf ha hx, ys, ih hargs hys, rfl⟩

theorem of_push {e : Entry} (he : t'.entries = t.entries.push e)
    (hn : ∀ {name : String}, (t.lookup? name).isSome → (t'.lookup? name).isSome) : Widens t t' := by
  refine ⟨.of_push he hn, fun id c hc => ?_⟩
  cases ho : t.object? id with
  | none => simp [listedBelow, ho] at hc
  | some o =>
    have hget := object?_eq_some_iff.mp ho
    rw [listedBelow_of_object hget] at hc
    rwa [listedBelow_of_object (get?_of_push_old he hget)]

end Widens

/-! ### Rules -/

/-- Every run of the computation widens the table. -/
def Widening (x : TableM α) : Prop :=
  ∀ t, Widens t (x.run t).2

namespace Widening

theorem pure (a : α) : Widening (pure a) :=
  fun t => .refl t

theorem get : Widening (get : TableM Table) :=
  fun t => .refl t

theorem bind {x : TableM α} {f : α → TableM β} (hx : Widening x) (hf : ∀ a, Widening (f a)) :
    Widening (x >>= f) :=
  fun t => (hx t).trans (hf _ _)

theorem mapM {f : γ → TableM α} {l : List γ} (hf : ∀ c, Widening (f c)) : Widening (l.mapM f) := by
  induction l with
  | nil => exact pure []
  | cons c l ih =>
    rw [List.mapM_cons]
    exact (hf c).bind fun a => ih.bind fun as => pure (a :: as)

theorem filterM {p : γ → TableM Bool} {l : List γ} (hp : ∀ c, Widening (p c)) :
    Widening (l.filterM p) := by
  induction l with
  | nil => exact pure []
  | cons c l ih =>
    rw [Overload.filterM_cons]
    exact (hp c).bind fun keep => ih.bind fun kept => pure _

end Widening

/-! ### Declarations -/

theorem widening_push (e : Entry) : Widening (push e) :=
  fun _ => .of_push rfl fun h => h

theorem widening_register (name : String) (id : TypeId) : Widening (register name id) :=
  fun _ => ⟨⟨fun h => ⟨_, h, rfl⟩, fun h => lookup?_cons_isSome rfl h⟩, fun _ => List.Subset.refl _⟩

/-- A change of objects that keeps their cores and what their lists hold. -/
theorem widening_modifyObject (id : TypeId) {f : ObjectEntry → ObjectEntry}
    (hf : ∀ o, (Entry.object (f o)).core = (Entry.object o).core)
    (hsub : ∀ o, o.subclasses ⊆ (f o).subclasses) : Widening (modifyObject id f) := by
  refine fun t => ⟨(SameCores.of_modifyObject t id hf).toExtends, fun x => ?_⟩
  rw [Shaped.listedBelow_modifyObject, listedBelow]
  cases t.object? x with
  | none => exact List.Subset.refl _
  | some o =>
    simp only
    split
    · exact hsub o
    · exact List.Subset.refl _

theorem widening_setIVar (id : TypeId) (name : String) (type : TypeId) :
    Widening (modifyObject id (·.setIVar name type)) :=
  widening_modifyObject id (fun _ => rfl) fun _ => List.Subset.refl _

theorem widening_addMember (id : TypeId) (name : String) (type : TypeId) :
    Widening (addMember id name type) := by
  intro t
  have hcore : SameCores t ((addMember id name type).run t).2 := by
    refine ⟨fun x => (core_addMember id x name type).1, fun h => ?_⟩
    cases id <;> exact h
  refine ⟨hcore.toExtends, fun x c hc => ?_⟩
  cases ho : t.object? x with
  | none => simp [listedBelow, ho] at hc
  | some o =>
    have hget := object?_eq_some_iff.mp ho
    rw [listedBelow_of_object hget] at hc
    rwa [listedBelow_of_object (((core_addMember id x name type).2 o).mpr hget)]

theorem widening_definePrimitive (name : String) (size : Int) (parent : TypeId)
    (numeric : Option Numeric) : Widening (definePrimitive name size parent numeric) :=
  (widening_push _).bind fun id => (widening_register name id).bind fun _ => .pure id

theorem widening_defineClass (name : String) (superclass : TypeId) (typeParams : List String) :
    Widening (defineClass name superclass typeParams) := by
  refine (widening_push _).bind fun id => (widening_register name id).bind fun _ => ?_
  -- the new class is entered in the list of the one above it, behind those already there
  refine .bind (widening_modifyObject superclass ?_ ?_) fun _ => .pure id
  · exact fun _ => rfl
  · exact fun _ => List.subset_append_left _ _

theorem widening_defineModule (name : String) : Widening (defineModule name) :=
  (widening_push _).bind fun id => (widening_register name id).bind fun _ => .pure id

theorem widening_defineLib (name : String) : Widening (defineLib name) :=
  (widening_push _).bind fun id => (widening_register name id).bind fun _ => .pure id

theorem widening_defineStruct (lib : TypeId) (name : String) (isUnion : Bool)
    (members : List (String × TypeId)) : Widening (defineStruct lib name isUnion members) :=
  (widening_push _).bind fun id => .bind .get fun _ => (widening_register _ id).bind fun _ => .pure id

theorem widening_defineConst (owner : TypeId) (name : String) (value : Nat) :
    Widening (defineConst owner name value) :=
  (widening_push _).bind fun id => .bind .get fun _ => (widening_register _ id).bind fun _ => .pure id

theorem widening_include (id module : TypeId) : Widening («include» id module) := by
  refine widening_modifyObject id (fun o => ?_) fun o => ?_
  · split <;> rfl
  · split <;> exact List.Subset.refl _

/-! ### Derived types -/

theorem widening_intern (e : Entry) : Widening (intern e) := by
  refine .bind .get fun t => ?_
  split
  · exact .pure _
  · exact widening_push e

theorem widening_metaclassOf (of : TypeId) : Widening (metaclassOf of) :=
  widening_intern _

theorem widening_instantiate (template : TypeId) (args : List TypeId) :
    Widening (instantiate template args) := by
  refine .bind .get fun t => ?_
  split
  · exact .pure _
  · split
    · exact .pure _
    · split
      · exact (widening_intern _).bind fun _ => .pure _
      · split
        · exact .pure _
        · exact (widening_push _).bind fun _ => .pure _

theorem widening_internUnion (ids : List TypeId) : Widening (internUnion ids) :=
  match ids with
  | [] => .pure _
  | [_] => .pure _
  | _ :: _ :: _ => widening_intern _

theorem widening_unionOf (ids : List TypeId) : Widening (unionOf ids) :=
  .bind .get fun _ => widening_internUnion _

theorem widening_merge (ids : List TypeId) : Widening (merge ids) := by
  refine .bind .get fun t => ?_
  split
  · exact .pure _
  · refine .bind ?_ fun _ => widening_internUnion _
    refine .bind .get fun t' => .bind (.mapM fun f => ?_) fun _ => .pure _
    split
    · exact widening_intern _
    · exact .pure _

theorem widening_restrictBelow (restriction : TypeId) (fuel : Nat) (base : TypeId) :
    Widening (restrictBelow restriction fuel base) := by
  induction fuel generalizing base with
  | zero => exact .pure _
  | succ fuel ih =>
    refine .bind .get fun t => ?_
    split
    · exact widening_intern _
    · exact .bind (.mapM ih) fun parts => widening_unionOf _

theorem widening_restrictUpTo (fuel : Nat) (id restriction : TypeId) :
    Widening (restrictUpTo fuel id restriction) := by
  induction fuel generalizing id restriction with
  | zero => exact .pure _
  | succ fuel ih =>
    refine .bind .get fun t => ?_
    split
    · exact .pure _
    · split
      · exact .pure _
      · split
        · exact .pure _
        · exact .bind (.mapM fun m => ih m restriction) fun parts => widening_unionOf _
        · exact widening_restrictBelow _ _ _
        · exact .bind (.mapM fun m => ih id m) fun parts => widening_unionOf _
        · exact .pure _

theorem widening_restrict (id restriction : TypeId) : Widening (restrict id restriction) :=
  .bind .get fun _ => widening_restrictUpTo _ _ _

theorem widening_without (id drop : TypeId) : Widening (without id drop) :=
  .bind .get fun _ => widening_unionOf _

end Table

open Table

theorem Filter.widening_apply {responds : TypeId → String → TableM Bool}
    (hr : ∀ c name, Widening (responds c name)) (f : Filter) (id : TypeId) :
    Widening (f.apply responds id) := by
  cases f with
  | isA target label => exact widening_restrict _ _
  | notNil => exact widening_without _ _
  | respondsTo name =>
    exact .bind .get fun t => .bind (.filterM fun c => hr c name) fun kept => widening_merge _

/-! ### Overload resolution -/

namespace Overload

variable {ι α β γ : Type} (r : Resolver)

/-- Every run of the matching computation widens the table, whatever is bound. -/
def Widening (x : Matching α) : Prop :=
  ∀ b, Table.Widening (x.run b)

namespace Widening

theorem pure (a : α) : Widening (pure a) :=
  fun _ => .pure _

theorem bind {x : Matching α} {f : α → Matching β} (hx : Widening x) (hf : ∀ a, Widening (f a)) :
    Widening (x >>= f) :=
  fun b => (hx b).bind fun p => hf p.1 p.2

theorem lift {x : TableM α} (hx : Table.Widening x) : Widening (liftM x) :=
  fun _ t => hx t

theorem table : Widening (getThe Table) :=
  fun _ t => .refl t

theorem bindings : Widening (get : Matching Bindings) :=
  fun _ => .pure _

theorem filterM {p : γ → Matching Bool} {l : List γ} (hp : ∀ c, Widening (p c)) :
    Widening (l.filterM p) := by
  induction l with
  | nil => exact pure []
  | cons c l ih =>
    rw [filterM_cons]
    exact (hp c).bind fun keep => ih.bind fun kept => pure _

end Widening

mutual

theorem widening_resolve (owner : TypeId) (e : TypeExpr) : Table.Widening (resolve r owner e) :=
  match e with
  | .self => by
    rw [resolve]
    exact .bind .get fun _ => .pure _
  | .union alternatives => by
    rw [resolve]
    refine (widening_resolveAll owner alternatives).bind fun members => ?_
    split
    · exact (widening_unionOf _).bind fun _ => .pure _
    · exact .pure _
  | .named names args => by
    rw [resolve]
    refine .bind .get fun t => ?_
    split
    · exact .pure _
    · split
      · exact .pure _
      · refine (widening_resolveAll owner args).bind fun given => ?_
        split
        · exact .pure _
        · refine (widening_instantiate _ _).bind fun result => ?_
          split <;> exact .pure _

theorem widening_resolveAll (owner : TypeId) (es : List TypeExpr) :
    Table.Widening (resolveAll r owner es) :=
  match es with
  | [] => by
    rw [resolveAll]
    exact .pure _
  | e :: rest => by
    rw [resolveAll]
    refine (widening_resolve owner e).bind fun first => ?_
    split
    · exact .pure _
    · refine (widening_resolveAll owner rest).bind fun others => ?_
      split <;> exact .pure _

end

theorem widening_restrictName (owner arg : TypeId) (names : List String) :
    Widening (restrictName r owner arg names) := by
  refine .bind .bindings fun b => ?_
  split
  · exact .lift (widening_restrict _ _)
  · refine .bind .table fun t => ?_
    split
    · exact .lift (widening_restrict _ _)
    · exact .bind (fun _ => .pure _) fun _ => .pure _
    · exact .pure _

mutual

theorem widening_restrict (owner arg : TypeId) (e : TypeExpr) : Widening (restrict r owner arg e) :=
  match e with
  | .self => by
    rw [restrict]
    exact .bind .table fun _ => .lift (Table.widening_restrict _ _)
  | .union alternatives => by
    rw [restrict]
    exact (widening_restrictEach owner arg alternatives).bind fun _ => .lift (widening_unionOf _)
  | .named names args => by
    rw [restrict]
    split
    · exact widening_restrictName r owner arg names
    · refine .bind .table fun t => ?_
      split
      · exact .pure _
      · refine .bind (.filterM fun m => .bind .table fun t' => ?_) fun _ => .lift (widening_unionOf _)
        simp only
        split
        · exact .pure _
        · exact widening_agree owner _ args

theorem widening_restrictEach (owner arg : TypeId) (es : List TypeExpr) :
    Widening (restrictEach r owner arg es) :=
  match es with
  | [] => by
    rw [restrictEach]
    exact .pure _
  | e :: rest => by
    rw [restrictEach]
    exact (widening_restrict owner arg e).bind fun _ =>
      (widening_restrictEach owner arg rest).bind fun _ => .pure _

theorem widening_agree (owner : TypeId) (given : List TypeId) (es : List TypeExpr) :
    Widening (agree r owner given es) :=
  match es, given with
  | [], _ => by
    rw [agree]
    exact .pure _
  | _ :: _, [] => by
    rw [agree]
    exact .pure _
  | e :: rest, t :: more => by
    rw [agree]
    refine (widening_restrict owner t e).bind fun _ => ?_
    split
    · exact widening_agree owner more rest
    · exact .pure _

end

theorem widening_restrictParam (owner arg : TypeId) (e : Option TypeExpr) :
    Widening (restrictParam r owner arg e) := by
  cases e with
  | none => exact .pure _
  | some e => exact widening_restrict r owner arg e

theorem widening_restrictArgs (receiver : TypeId) (args : List TypeId) (params : List (Option TypeExpr)) :
    Widening (restrictArgs r receiver args params) := by
  induction args generalizing params with
  | nil => exact .pure _
  | cons a args ih =>
    cases params with
    | nil => exact .pure _
    | cons p params =>
      refine (widening_restrictParam r receiver a p).bind fun got => ?_
      split
      · exact .pure _
      · exact (ih params).bind fun _ => .pure _

theorem widening_match (c : Candidate ι) (receiver : TypeId) (args : List TypeId) :
    Table.Widening («match» r c receiver args) := by
  rw [«match»]
  split
  · exact .pure _
  · exact (widening_restrictArgs r receiver args _ []).bind fun _ => .pure _

theorem widening_matching (onlyFirst : Bool) (receiver : TypeId) (args : List TypeId)
    (cs : List (Candidate ι)) : Table.Widening (matching r onlyFirst receiver args cs) := by
  induction cs with
  | nil => exact .pure _
  | cons c cs ih =>
    refine (widening_match r c receiver args).bind fun m => ?_
    split
    · exact ih
    · split
      · exact .pure _
      · exact ih.bind fun _ => .pure _

theorem widening_select (cs : List (Candidate ι)) (receiver : TypeId) (args : List TypeId) :
    Table.Widening (select r cs receiver args) := by
  refine .bind .get fun t => (widening_matching r _ receiver args cs).bind fun list => ?_
  split
  · exact .bind .get fun _ => .pure _
  · exact .pure _

theorem widening_isRestriction (ownerA ownerB : TypeId) (a b : Option TypeExpr) :
    Table.Widening (isRestriction r ownerA ownerB a b) := by
  unfold isRestriction
  split
  · exact .pure _
  · exact .pure _
  · refine (widening_resolve r _ _).bind fun ta => (widening_resolve r _ _).bind fun tb => ?_
    split
    · exact .bind .get fun _ => .pure _
    · exact .pure _

theorem widening_allRestrictions (ownerA ownerB : TypeId) (as bs : List (Option TypeExpr)) :
    Table.Widening (allRestrictions r ownerA ownerB as bs) := by
  induction as generalizing bs with
  | nil => exact .pure _
  | cons a as ih =>
    cases bs with
    | nil => exact .pure _
    | cons b bs =>
      refine (widening_isRestriction r ownerA ownerB a b).bind fun _ => ?_
      split
      · exact ih bs
      · exact .pure _

theorem widening_insertBefore (c : Candidate ι) (cs : List (Candidate ι)) :
    Table.Widening (insertBefore r c cs) := by
  induction cs with
  | nil => exact .pure _
  | cons d cs ih =>
    refine (widening_allRestrictions r _ _ _ _).bind fun _ => ?_
    split
    · refine (widening_allRestrictions r _ _ _ _).bind fun _ => ?_
      split
      · exact ih.bind fun _ => .pure _
      · exact .pure _
    · exact ih.bind fun _ => .pure _

theorem widening_insert (cs : List (Candidate ι)) (c : Candidate ι) :
    Table.Widening (insert r cs c) := by
  unfold Overload.insert
  split
  · exact .pure _
  · exact widening_insertBefore r c cs

end Overload

/-! ### Finding methods -/

theorem widening_lookupChain (owner : TypeId) : Widening (lookupChain owner) := by
  refine .bind .get fun t => ?_
  split
  · exact .mapM fun _ => widening_intern _
  · exact .pure _

namespace Env

variable (e : Env)

theorem widening_findGroup? (owner : TypeId) (key : GroupKey) : Widening (e.findGroup? owner key) :=
  (widening_lookupChain owner).bind fun _ => .pure _

theorem widening_findSuperGroup? (owner declaring : TypeId) (key : GroupKey) :
    Widening (e.findSuperGroup? owner declaring key) := by
  refine (widening_lookupChain owner).bind fun _ => ?_
  split <;> exact .pure _

theorem widening_groupsNamed (owner : TypeId) (name : String) :
    Widening (e.groupsNamed owner name) :=
  (widening_lookupChain owner).bind fun _ => .pure _

theorem widening_respondsTo (owner : TypeId) (name : String) : Widening (e.respondsTo owner name) :=
  (e.widening_groupsNamed owner name).bind fun _ => .pure _

end Env

end TypeFlow
