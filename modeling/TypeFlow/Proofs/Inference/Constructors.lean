import TypeFlow.Proofs.Inference.Typing
import TypeFlow.Proofs.Overload.Refiling

/-!
# Constructors

Constructors are made from the overloads of `initialize` that apply to a class: for each of them a method `new` is
filed on the metaclass, with its first parameters (`Infer.run_constructors`). They are filed one by one by
specificity, so they stand in an order of their own, but they take what the overloads take (`Constructs`). A class
without `initialize` gets a constructor without arguments, and one that answers to calls of anything gets one for
any arguments. `Program.origins?` says from what constructors are made, if from anything, and
`Infer.run_lookupMade?_some` and `Infer.run_lookupMade?_none` that they are.

All of this adds types to the table, so it is followed for the types that a program starts from and all tables that
come later.
-/

namespace TypeFlow

open Table (Later)

/-! ### Where class methods are looked for -/

namespace Table

variable {t t₁ : Table}

variable {M C : TypeId}

/-- Class methods are looked for in the metaclass first, and always in the same types. -/
theorem WellFormed.repeats_lookupChain (h : WellFormed t) (hl : Linked t)
    (hM : t.get? M = some (.metaclass C)) (hC : C ≠ 0) :
    Repeats t (lookupChain M) fun _ chain => ∃ rest, chain = M :: rest := by
  have hlt : C < t.size :=
    Nat.lt_trans (h.links_lt hM C (by simp [Entry.links])) (lt_size_of_get? hM)
  obtain ⟨rest, hrest⟩ := t.exists_ancestors_eq hC
  have hknown : ∀ c ∈ t.ancestors C, c < t.size := fun c hc => (h.ancestors_lt hl hlt hc).1
  have hfirst : Repeats t (metaclassOf C) fun _ m => m = M := by
    refine ⟨fun t₁ h₁ => ?_, (repeats_metaclassOf hlt).again⟩
    refine (h₁.wellFormed.adds_metaclassOf (h₁.lt_size hlt)).imp fun t₂ m h₂ hg hm => ?_
    exact h₂.interned hm (hg.get (h₁.grown.get hM)) trivial
  have hchain : Repeats t ((t.ancestors C).mapM metaclassOf) fun _ chain => ∃ rest, chain = M :: rest := by
    rw [hrest, List.mapM_cons]
    refine hfirst.bind fun t₁ m h₁ hm => ?_
    refine (Repeats.mapM fun c hc => ?_).bind fun t₂ ms _ _ => .pure fun _ _ => ⟨ms, by rw [hm]⟩
    exact (repeats_metaclassOf (hknown c (hrest ▸ List.mem_cons_of_mem _ hc))).later h₁
  refine hchain.of_run_eq fun t₁ h₁ => ?_
  rw [lookupChain, run_get_bind, h₁.grown.get hM]
  simp only
  rw [h₁.grown.ancestors_eq h hl hlt]

/-- To look for the methods of objects adds no types. -/
theorem run_lookupChain_object {o : ObjectEntry} (hC : t.get? C = some (.object o)) :
    (lookupChain C).run t = (t.ancestors C, t) := by
  rw [lookupChain, run_get_bind, hC]
  rfl

end Table

/-! ### Constructors that are filed -/

/-- The key of the constructors for a number of arguments. -/
def constructorKey (n : Nat) : GroupKey :=
  { name := "new", arity := n }

/-- The key of the overloads of `initialize` for a number of arguments. -/
def initializerKey (n : Nat) : GroupKey :=
  { name := "initialize", arity := n }

/-- The key of the method that answers to what is not there. -/
def missingKey : GroupKey :=
  { name := "method_missing", arity := 2 }

/-- The candidates of a metaclass for calls of `new` with a number of arguments. -/
def Env.constructors (e : Env) (M : TypeId) (n : Nat) : List (Candidate MethodId) :=
  (e.group? M (constructorKey n)).elim [] Group.candidates

theorem Env.Places.constructors_eq {e e' : Env} {M : TypeId} {n : Nat} {out : List (Candidate MethodId)}
    {gs : Array Group} (h : e.Places ⟨constructorKey n, M, out⟩ gs) (hgs : e'.groups = gs) :
    e'.constructors M n = out := by
  rw [constructors, group?_eq, hgs, h.find, if_pos ⟨rfl, rfl⟩]
  rfl

/-- A method accepts as many arguments as it requires, and no more than it has parameters for. -/
theorem Definition.mem_arities {d : Definition} {n : Nat} :
    n ∈ d.arities ↔ d.required ≤ n ∧ n ≤ d.params.length := by
  rw [arities, List.mem_filter, List.mem_range, Nat.lt_succ_iff, decide_eq_true_eq, and_comm]

/-- A method without defaults accepts one number of arguments. -/
theorem Definition.arities_eq {d : Definition} (h : ∀ x ∈ d.params, x.fallback = none) :
    d.arities = [d.params.length] := by
  have hrequired : d.required = d.params.length := by
    rw [required, List.findIdx?_eq_none_iff.mpr fun x hx => by rw [h x hx]; rfl]
    rfl
  rw [arities, hrequired, List.range_succ, List.filter_append, List.filter_eq_nil_iff.mpr]
  · simp
  · intro k hk
    simpa using List.mem_range.mp hk

namespace Synthesis

variable {loc : Option Location} {params : List (Param Source)}

theorem arities_plainConstructor : (plainConstructor loc).arities = [0] :=
  Definition.arities_eq fun _ hx => absurd hx List.not_mem_nil

theorem arities_forwarder (key : GroupKey) : (forwarder loc key).arities = [key.arity] := by
  rw [Definition.arities_eq]
  · simp [forwarder]
  · intro x hx
    obtain ⟨i, -, rfl⟩ := List.mem_map.mp hx
    rfl

theorem arities_constructor : (constructor loc params).arities = [params.length] := by
  rw [Definition.arities_eq]
  · exact congrArg (fun k => [k]) (List.length_map _)
  · intro x hx
    obtain ⟨p, -, rfl⟩ := List.mem_map.mp hx
    rfl

end Synthesis

namespace Infer

/-- A method that accepts one number of arguments is filed once. -/
theorem run_register_once {m : Method} {n : Nat} (hn : m.definition.arities = [n]) (p : Program) :
    let key : GroupKey := { name := m.definition.name, arity := n, yields := m.definition.yields }
    ∃ gs, (register m).run.run p = (.ok p.env.methods.size, { p with
        types := (filed p.env.methods.size m key p).2
        env := { p.env with methods := p.env.methods.push m, groups := gs } }) ∧
      p.env.Places ⟨key, m.owner, (filed p.env.methods.size m key p).1⟩ gs := by
  intro key
  let q : Program := { p with env := { p.env with methods := p.env.methods.push m } }
  obtain ⟨gs, hrun, hplaces⟩ := run_fileUnder p.env.methods.size m key q
  refine ⟨gs, ?_, hplaces.mem, hplaces.find⟩
  have hnew : (newMethod m).run.run p = (.ok p.env.methods.size, q) := rfl
  simp only [register, hn]
  rw [Flow.run_bind_of_ok hnew, List.forIn_cons, bind_assoc, bind_assoc, Flow.run_bind_of_ok hrun]
  rfl

/-- Candidates of a metaclass that take what others take of `n` arguments. -/
structure Constructs (M : TypeId) (n : Nat) (out cs : List (Candidate MethodId)) : Prop where
  owned : ∀ d ∈ out, d.signature.owner = M
  read : ∀ d ∈ out, d.signature.IsRead
  refiles : Overload.Refiles n out cs

theorem Constructs.nil {M : TypeId} {n : Nat} : Constructs M n [] [] :=
  ⟨by simp, by simp, by simp [Overload.Refiles]⟩

variable {t : Table} {M : TypeId} {n : Nat} {q : Program} {cs : List (Candidate MethodId)}

/-- A method for `new` takes its place among the constructors. -/
theorem run_register_constructor (hr : Resolver.Settled Table.resolveType? t) (hM : M < t.size)
    (h₁ : Later t q.types) (hmade : Constructs M n (q.env.constructors M n) cs) {m : Method} (howner : m.owner = M)
    (hname : m.definition.name = "new") (hyields : m.definition.yields = false)
    (hn : m.definition.arities = [n]) {c : Candidate MethodId} (hc : c.signature.IsRead)
    (hsame : m.signature.params.map Prod.snd = c.restrictions.take n) :
    ∃ q', (register m).run.run q = (.ok q.env.methods.size, q') ∧ Later t q'.types ∧
      (∀ (id : MethodId) old, q.env.methods[id]? = some old → q'.env.methods[id]? = some old) ∧
      Constructs M n (q'.env.constructors M n) (cs ++ [c]) := by
  obtain ⟨gs, hrun, hplaces⟩ := run_register_once hn q
  have hkey : ({ name := m.definition.name, arity := n, yields := m.definition.yields } : GroupKey) =
      constructorKey n := by
    rw [hname, hyields]
    rfl
  rw [hkey, howner] at hplaces
  rw [hkey] at hrun
  let d : Candidate MethodId := ⟨q.env.methods.size, m.signature⟩
  have hd : d.signature.IsRead := by
    intro p hp e he
    have hmem : p.2 ∈ c.restrictions.take n := hsame ▸ List.mem_map_of_mem hp
    obtain ⟨x, hx, hxp⟩ := List.mem_map.mp (List.mem_of_mem_take hmem)
    exact hc x hx e (hxp ▸ he)
  have hfiled : filed q.env.methods.size m (constructorKey n) q =
      (Overload.insert Table.resolveType? (q.env.constructors M n) d).run q.types := by
    rw [filed, howner]
    rfl
  rw [hfiled] at hplaces hrun
  refine ⟨_, hrun, ?_, fun id old hold => ?_, ?_⟩
  · have hinsert := Overload.repeats_insert hr hM (c := d) howner hmade.owned h₁
    have hself := Later.refl h₁.wellFormed h₁.linked
    exact h₁.trans (Later.of_adds h₁.linked (hinsert.adds q.types hself))
  · have hlt : id < q.env.methods.size := (Array.getElem?_eq_some_iff.mp hold).1
    simp only [Array.getElem?_push, if_neg (Nat.ne_of_lt hlt), hold]
  · have hrefiles : Table.Answers (Overload.insert Table.resolveType? (q.env.constructors M n) d) fun out =>
        Overload.Refiles n out (cs ++ [c]) := hmade.refiles.insert hsame hd hmade.read
    rw [hplaces.constructors_eq rfl]
    refine ⟨fun x hx => ?_, fun x hx => ?_, hrefiles q.types⟩
    · rcases Overload.answers_insert _ q.types x hx with rfl | hx
      · exact howner
      · exact hmade.owned x hx
    · rcases Overload.answers_insert _ q.types x hx with rfl | hx
      · exact hd
      · exact hmade.read x hx

/-- A constructor is made from each overload of `initialize`. -/
theorem run_constructors (hr : Resolver.Settled Table.resolveType? t) (hM : M < t.size) (h₁ : Later t q.types)
    (loc : Option Location) (hmade : Constructs M n (q.env.constructors M n) cs)
    {more : List (Candidate MethodId)}
    (hmore : ∀ c ∈ more, q.env.Suits (initializerKey n) c ∧ c.signature.IsRead) :
    ∃ q', (forIn more PUnit.unit fun c _ => do
          let m ← method c.id
          addConstructor M (Synthesis.constructor loc (m.definition.params.take n))
          return ForInStep.yield PUnit.unit : Infer PUnit).run.run q = (.ok ⟨⟩, q') ∧
      Later t q'.types ∧ Constructs M n (q'.env.constructors M n) (cs ++ more) := by
  induction more generalizing q cs with
  | nil => exact ⟨q, rfl, h₁, by rwa [List.append_nil]⟩
  | cons c more ih =>
    obtain ⟨⟨⟨m, hm, hparams, harity⟩, hread⟩, hmore⟩ := List.forall_mem_cons.mp hmore
    let d := Synthesis.constructor loc (m.definition.params.take n)
    let new : Method := { definition := d, kind := .user, owner := M, synthetic := true }
    have hle : n ≤ m.definition.params.length := (Definition.mem_arities.mp harity).2
    have hn : d.arities = [n] := by
      rw [Synthesis.arities_constructor, List.length_take, Nat.min_eq_left hle]
    have hsame : new.signature.params.map Prod.snd = c.restrictions.take n := by
      rw [Candidate.restrictions, hparams]
      simp only [new, d, Method.signature, Synthesis.constructor, List.map_map, List.map_take]
      rfl
    obtain ⟨q₁, hrun, h₂, hmethods, hmade₁⟩ :=
      run_register_constructor hr hM h₁ hmade (m := new) rfl rfl rfl hn hread hsame
    have hmethod : (method c.id).run.run q = (.ok m, q) := by
      rw [method, run_env_bind, hm]
      rfl
    have hadd : (addConstructor M d).run.run q = (.ok (), q₁) := Flow.run_bind_of_ok hrun _
    have hsuits : ∀ e ∈ more, q₁.env.Suits (initializerKey n) e ∧ e.signature.IsRead := by
      intro e he
      obtain ⟨⟨x, hx, hrest⟩, hread'⟩ := hmore e he
      exact ⟨⟨x, hmethods _ _ hx, hrest⟩, hread'⟩
    obtain ⟨q₂, hloop, h₃, hmade₂⟩ := ih h₂ hmade₁ hsuits
    refine ⟨q₂, ?_, h₃, by rwa [List.append_assoc] at hmade₂⟩
    rw [List.forIn_cons, bind_assoc, Flow.run_bind_of_ok hmethod, bind_assoc, Flow.run_bind_of_ok hadd]
    exact hloop

end Infer

/-! ### What constructors are made from -/

/-- The overload group with a key that applies to a type. -/
def Program.visible? (p : Program) (owner : TypeId) (key : GroupKey) : Option Group :=
  ((p.env.findGroup? owner key).run p.types).1

/-- All overload groups of a name that apply to a type. -/
def Program.visibleNamed (p : Program) (owner : TypeId) (name : String) : List Group :=
  ((p.env.groupsNamed owner name).run p.types).1

/-- Whether a group is made of constructors only. -/
def Env.isSynthetic (e : Env) (g : Group) : Bool :=
  !g.candidates.isEmpty && g.candidates.all fun c => ((e.methods[c.id]?).map Method.synthetic).getD false

/-- A class of which objects can be made, with its metaclass, in a program whose types are made by inference and
whose names are known. -/
structure Program.Instantiates (p : Program) (M C : TypeId) : Prop where
  inferred : p.types.Inferred
  named : ∀ x ∈ p.types.names, x.2 < p.types.size
  metaclass : p.types.get? M = some (.metaclass C)
  object : ∃ o, p.types.get? C = some (.object o) ∧ o.isModule = false ∧ o.isTemplate = false

/-- What a metaclass sees as `new` for `n` arguments, if anything, are constructors of another class. -/
def Program.Unmade (p : Program) (M : TypeId) (n : Nat) : Prop :=
  ∀ g, p.visible? M (constructorKey n) = some g → g.owner ≠ M ∧ p.env.isSynthetic g = true

/-- A call of `new` with a receiver and without block. -/
structure Site.AsksNew (site : Site) : Prop where
  name : site.call.name = "new"
  block : site.call.block = none
  super : site.super = none
  obj : site.obj ≠ 0

/-- An overload that takes any `n` arguments. -/
def unrestricted (M : TypeId) (n : Nat) : Candidate MethodId :=
  ⟨0, M, List.replicate n ("", none)⟩

theorem isRead_unrestricted (M : TypeId) (n : Nat) : (unrestricted M n).signature.IsRead := by
  intro x hx e he
  rw [List.eq_of_mem_replicate hx] at he
  cases he

/-- What the constructors of a class are made from when they are asked for: the overloads of `initialize`; for
calls without arguments, nothing if there are none at all; and what answers to calls of anything otherwise. -/
def Program.origins? (p : Program) (M C : TypeId) (n : Nat) : Option (List (Candidate MethodId)) :=
  match p.visible? C (initializerKey n) with
  | some g => some g.candidates
  | none =>
    if (n = 0 ∧ p.visibleNamed C "initialize" = []) ∨ (p.visible? M missingKey).isSome then
      some [unrestricted M n]
    else none

namespace Program.Instantiates

variable {p : Program} {M C : TypeId}

theorem lt_size (h : p.Instantiates M C) : M < p.types.size :=
  Table.lt_size_of_get? h.metaclass

theorem ne_zero (h : p.Instantiates M C) : C ≠ 0 := by
  obtain ⟨o, ho, -⟩ := h.object
  exact Nat.ne_of_gt (Table.pos_of_get? ho)

theorem settled (h : p.Instantiates M C) : Resolver.Settled Table.resolveType? p.types :=
  h.inferred.invariants.1.settled_resolveType? h.named

theorem later (h : p.Instantiates M C) : Later p.types p.types :=
  .refl h.inferred.invariants.1 h.inferred.invariants.2.1

theorem repeats_lookupChain (h : p.Instantiates M C) :
    Table.Repeats p.types (lookupChain M) fun _ chain => ∃ rest, chain = M :: rest :=
  h.inferred.invariants.1.repeats_lookupChain h.inferred.invariants.2.1 h.metaclass h.ne_zero

end Program.Instantiates

namespace Infer

variable {p q : Program} {M C : TypeId} {n : Nat} {cs : List (Candidate MethodId)}

/-- A group that is filed on a metaclass itself is found first. -/
theorem run_findGroup?_own (hp : p.Instantiates M C) (h₁ : Later p.types q.types) {key : GroupKey} {g : Group}
    (hg : q.env.group? M key = some g) :
    ∃ u, (findGroup? M key).run.run q = (.ok (some g), { q with types := u }) ∧ Later p.types u := by
  have hadds := hp.repeats_lookupChain.adds q.types h₁
  obtain ⟨rest, hrest⟩ := hadds.2.2
  refine ⟨_, ?_, h₁.trans (Later.of_adds h₁.linked hadds)⟩
  have hrun : (findGroup? M key).run.run q = (.ok (((lookupChain M).run q.types).1.findSome? (q.env.group? · key)),
      { q with types := ((lookupChain M).run q.types).2 }) := rfl
  rw [hrun, hrest, List.findSome?_cons, hg]

/-- Constructors that were made are found. -/
theorem run_findGroup?_constructors (hp : p.Instantiates M C) (h₁ : Later p.types q.types)
    (hmade : Constructs M n (q.env.constructors M n) cs) (hcs : cs ≠ []) :
    ∃ g u, (findGroup? M (constructorKey n)).run.run q = (.ok (some g), { q with types := u }) ∧
      Later p.types u ∧ q.env.group? M (constructorKey n) = some g ∧ Constructs M n g.candidates cs := by
  obtain ⟨c, hc⟩ := List.exists_mem_of_ne_nil _ hcs
  obtain ⟨d, hd, -⟩ := (hmade.refiles _).mpr ⟨c, hc, rfl⟩
  cases hg : q.env.group? M (constructorKey n) with
  | none =>
    rw [Env.constructors, hg] at hd
    cases hd
  | some g =>
    rw [Env.constructors, hg] at hmade
    obtain ⟨u, hrun, hu⟩ := run_findGroup?_own hp h₁ hg
    exact ⟨g, u, hrun, hu, rfl, hmade⟩

/-- To look for the methods of objects changes nothing. -/
theorem run_findGroup?_object {o : ObjectEntry} (hC : q.types.get? C = some (.object o)) (key : GroupKey) :
    (findGroup? C key).run.run q = (.ok (q.visible? C key), q) := by
  have hrun : (findGroup? C key).run.run q =
      (.ok (q.visible? C key), { q with types := ((lookupChain C).run q.types).2 }) := rfl
  rw [hrun, Table.run_lookupChain_object hC]

theorem run_groupsNamed_object {o : ObjectEntry} (hC : q.types.get? C = some (.object o)) (name : String) :
    (groupsNamed C name).run.run q = (.ok (q.visibleNamed C name), q) := by
  have hrun : (groupsNamed C name).run.run q =
      (.ok (q.visibleNamed C name), { q with types := ((lookupChain C).run q.types).2 }) := rfl
  rw [hrun, Table.run_lookupChain_object hC]

/-- To make constructors, it is seen which overloads of `initialize` apply to the class. -/
theorem run_defineNew (hM : q.types.get? M = some (.metaclass C)) {o : ObjectEntry}
    (hC : q.types.get? C = some (.object o)) (hmodule : o.isModule = false) (htemplate : o.isTemplate = false)
    (loc : Option Location) :
    (defineNew M (constructorKey n) loc).run.run q =
      (match q.visible? C (initializerKey n) with
        | none =>
          if n ≠ 0 then return none
          else if !(q.visibleNamed C "initialize").isEmpty then return none
          else do
            addConstructor M (Synthesis.plainConstructor loc)
            findGroup? M (constructorKey n)
        | some g => do
          for c in g.candidates do
            let m ← method c.id
            addConstructor M (Synthesis.constructor loc (m.definition.params.take n))
          findGroup? M (constructorKey n) : Infer (Option Group)).run.run q := by
  have hself : q.types.selfType M = C := by
    rw [Table.selfType, hM]
  have hobject : q.types.object? C = some o := Table.object?_eq_some_iff.mpr hC
  rw [defineNew, Flow.run_types_bind, hself]
  simp only [hobject, hmodule, htemplate]
  refine (Flow.run_bind_of_ok (run_findGroup?_object hC _) _).trans ?_
  change StateT.run (ExceptT.run (match q.visible? C (initializerKey n) with | none => _ | some g => _)) q = _
  cases q.visible? C (initializerKey n) with
  | some g => rfl
  | none =>
    cases n with
    | succ n => rfl
    | zero =>
      refine (Flow.run_bind_of_ok (run_groupsNamed_object hC _) _).trans ?_
      cases (q.visibleNamed C "initialize").isEmpty <;> rfl

/-! ### Making constructors -/

/-- Types where methods are looked for. -/
def chain (p : Program) (owner : TypeId) : List TypeId :=
  ((lookupChain owner).run p.types).1

theorem visible?_eq {owner : TypeId} (hchain : chain q owner = chain p owner) (hq : q.env = p.env)
    (key : GroupKey) : q.visible? owner key = p.visible? owner key := by
  have hfind : ∀ r : Program, r.visible? owner key = (chain r owner).findSome? (r.env.group? · key) :=
    fun _ => rfl
  rw [hfind, hfind, hchain, hq]

theorem visibleNamed_eq {owner : TypeId} (hchain : chain q owner = chain p owner) (hq : q.env = p.env)
    (name : String) : q.visibleNamed owner name = p.visibleNamed owner name := by
  have hfind : ∀ r : Program, r.visibleNamed owner name = (chain r owner).flatMap (r.env.groupsOn · name) :=
    fun _ => rfl
  rw [hfind, hfind, hchain, hq]

theorem chain_object (hp : p.Instantiates M C) (h₁ : Later p.types q.types) : chain q C = chain p C := by
  obtain ⟨hwf, hl, -⟩ := hp.inferred.invariants
  obtain ⟨o, ho, -⟩ := hp.object
  rw [chain, chain, Table.run_lookupChain_object ho, Table.run_lookupChain_object (h₁.grown.get ho)]
  exact h₁.grown.ancestors_eq hwf hl (Table.lt_size_of_get? ho)

theorem isNew_metaclass {t : Table} (hM : t.get? M = some (.metaclass C)) : isNew t "new" M = true := by
  simp [isNew, Table.kind?, hM, Entry.kind]

/-- An overload of `new` that takes any arguments is made and found. -/
theorem run_makeUnrestricted (hp : p.Instantiates M C) (h₁ : Later p.types q.types)
    (hnone : q.env.group? M (constructorKey n) = none) {m : Method} (howner : m.owner = M)
    (hname : m.definition.name = "new") (hyields : m.definition.yields = false)
    (hn : m.definition.arities = [n]) (hparams : m.signature.params.map Prod.snd = List.replicate n none) :
    ∃ g q', (do
        let _ ← register m
        findGroup? M (constructorKey n) : Infer (Option Group)).run.run q = (.ok (some g), q') ∧
      Later p.types q'.types ∧ q'.env.group? M (constructorKey n) = some g ∧
      Constructs M n g.candidates [unrestricted M n] := by
  have hstart : Constructs M n (q.env.constructors M n) [] := by
    rw [Env.constructors, hnone]
    exact .nil
  have hrestrictions : (unrestricted M n).restrictions = List.replicate n none := List.map_replicate
  have hsame : m.signature.params.map Prod.snd = (unrestricted M n).restrictions.take n := by
    rw [hrestrictions, hparams, List.take_replicate, Nat.min_self]
  obtain ⟨q₁, hrun, h₂, -, hmade⟩ :=
    run_register_constructor hp.settled hp.lt_size h₁ hstart howner hname hyields hn (isRead_unrestricted M n) hsame
  obtain ⟨g, u, hfind, hu, hg, hmade⟩ := run_findGroup?_constructors hp h₂ hmade (List.cons_ne_nil _ _)
  exact ⟨g, _, (Flow.run_bind_of_ok hrun _).trans hfind, hu, hg, hmade⟩

section

variable (hp : p.Instantiates M C) (h₁ : Later ((lookupChain M).run p.types).2 q.types)

include hp h₁

theorem later_of_chain : Later p.types q.types :=
  (Later.of_adds hp.later.linked (hp.repeats_lookupChain.adds p.types hp.later)).trans h₁

variable (hq : q.env = p.env)

include hq

/-- Nothing is made from `initialize` if no overload for this number of arguments applies, and for no arguments
if any overload does. -/
theorem run_defineNew_none (loc : Option Location) (hnone : p.visible? C (initializerKey n) = none)
    (hplain : ¬ (n = 0 ∧ p.visibleNamed C "initialize" = [])) :
    (defineNew M (constructorKey n) loc).run.run q = (.ok none, q) := by
  have h₂ := later_of_chain hp h₁
  obtain ⟨o, ho, hmodule, htemplate⟩ := hp.object
  rw [run_defineNew (h₂.grown.get hp.metaclass) (h₂.grown.get ho) hmodule htemplate,
    visible?_eq (chain_object hp h₂) hq, visibleNamed_eq (chain_object hp h₂) hq, hnone]
  simp only
  split
  · rfl
  · rename_i hzero
    have hne : p.visibleNamed C "initialize" ≠ [] := fun hnil => hplain ⟨not_not.mp hzero, hnil⟩
    rw [if_pos (by simpa using hne)]
    rfl

/-- What constructors are made from overloads of `initialize`. -/
theorem run_defineNew_some (hfiled : p.env.WellFiled) (loc : Option Location)
    (hnew : p.env.group? M (constructorKey n) = none) {g : Group}
    (hg : p.visible? C (initializerKey n) = some g) (hread : ∀ c ∈ g.candidates, c.signature.IsRead) :
    ∃ g' q', (defineNew M (constructorKey n) loc).run.run q = (.ok (some g'), q') ∧ Later p.types q'.types ∧
      q'.env.group? M (constructorKey n) = some g' ∧ Constructs M n g'.candidates g.candidates := by
  have h₂ := later_of_chain hp h₁
  obtain ⟨o, ho, hmodule, htemplate⟩ := hp.object
  obtain ⟨hmem, hkey⟩ := Env.mem_of_findGroup? hg
  obtain ⟨hne, hsuits⟩ := hfiled g hmem
  have hstart : Constructs M n (q.env.constructors M n) [] := by
    rw [Env.constructors, hq, hnew]
    exact .nil
  have hmore : ∀ c ∈ g.candidates, q.env.Suits (initializerKey n) c ∧ c.signature.IsRead := by
    intro c hc
    rw [hq, ← hkey]
    exact ⟨hsuits c hc, hread c hc⟩
  obtain ⟨q₁, hloop, h₃, hmade⟩ := run_constructors hp.settled hp.lt_size h₂ loc hstart hmore
  obtain ⟨g', u, hfind, hu, hg', hmade⟩ := run_findGroup?_constructors hp h₃ hmade hne
  refine ⟨g', { q₁ with types := u }, ?_, hu, hg', hmade⟩
  rw [run_defineNew (h₂.grown.get hp.metaclass) (h₂.grown.get ho) hmodule htemplate,
    visible?_eq (chain_object hp h₂) hq, hg]
  exact (Flow.run_bind_of_ok hloop _).trans hfind

/-- The constructor of a class without `initialize`. -/
theorem run_defineNew_plain (loc : Option Location) (hnew : p.env.group? M (constructorKey 0) = none)
    (hnone : p.visible? C (initializerKey 0) = none) (hnil : p.visibleNamed C "initialize" = []) :
    ∃ g q', (defineNew M (constructorKey 0) loc).run.run q = (.ok (some g), q') ∧ Later p.types q'.types ∧
      q'.env.group? M (constructorKey 0) = some g ∧ Constructs M 0 g.candidates [unrestricted M 0] := by
  have h₂ := later_of_chain hp h₁
  obtain ⟨o, ho, hmodule, htemplate⟩ := hp.object
  rw [run_defineNew (h₂.grown.get hp.metaclass) (h₂.grown.get ho) hmodule htemplate,
    visible?_eq (chain_object hp h₂) hq, visibleNamed_eq (chain_object hp h₂) hq, hnone, hnil]
  simp only [addConstructor, bind_assoc, pure_bind]
  exact run_makeUnrestricted hp h₂ (hq ▸ hnew) rfl rfl rfl Synthesis.arities_plainConstructor rfl

omit hp h₁ hq in
theorem run_addSymbol (name : String) (q : Program) : ∃ symbols, (addSymbol name).run.run q =
    (.ok (), { q with env := { q.env with symbols } }) := by
  let e : Env := if q.env.symbols.contains name then q.env else
    { q.env with symbols := q.env.symbols ++ [name] }
  have hrun : (addSymbol name).run.run q = (.ok (), { q with env := e }) := rfl
  rw [hrun]
  unfold e
  split
  · exact ⟨q.env.symbols, rfl⟩
  · exact ⟨q.env.symbols ++ [name], rfl⟩

/-- What answers to anything answers to `new`. -/
theorem run_defineMissing (loc : Option Location) (hnew : p.env.group? M (constructorKey n) = none) :
    if (p.visible? M missingKey).isSome then
      ∃ g q', (defineMissing M (constructorKey n) loc).run.run q = (.ok (some g), q') ∧
        Later p.types q'.types ∧ q'.env.group? M (constructorKey n) = some g ∧
        Constructs M n g.candidates [unrestricted M n]
    else ∃ q', (defineMissing M (constructorKey n) loc).run.run q = (.ok none, q') := by
  have hchain : chain q M = chain p M :=
    hp.repeats_lookupChain.again p.types q.types hp.later h₁
  have h₂ := later_of_chain hp h₁
  have hgrow := Later.of_adds h₂.linked (hp.repeats_lookupChain.adds q.types h₂)
  have hfind : (findGroup? M missingKey).run.run q =
      (.ok (p.visible? M missingKey), { q with types := ((lookupChain M).run q.types).2 }) := by
    rw [← visible?_eq hchain hq]
    rfl
  cases hmissing : p.visible? M missingKey with
  | none =>
    rw [hmissing] at hfind
    refine ⟨_, (Flow.run_bind_of_ok hfind _).trans rfl⟩
  | some g =>
    rw [hmissing] at hfind
    let q₁ : Program := { q with types := ((lookupChain M).run q.types).2 }
    obtain ⟨symbols, hsymbol⟩ := run_addSymbol (constructorKey n).name q₁
    let d := Synthesis.forwarder loc (constructorKey n)
    let m : Method := { definition := d, kind := kindOf d, owner := M }
    have hn : d.arities = [n] := Synthesis.arities_forwarder _
    have hparams : m.signature.params.map Prod.snd = List.replicate n none := by
      simp [m, d, Method.signature, Synthesis.forwarder, constructorKey, Function.comp_def]
    obtain ⟨g', q', hrun, h₃, hg', hmade⟩ := run_makeUnrestricted (q := { q₁ with env := { q₁.env with symbols } })
      hp (h₂.trans hgrow) (hq ▸ hnew) (m := m) rfl rfl rfl hn hparams
    refine ⟨g', q', ?_, h₃, hg', hmade⟩
    refine (Flow.run_bind_of_ok hfind _).trans ((Flow.run_bind_of_ok hsymbol _).trans ?_)
    simpa only [addMethod, bind_assoc, pure_bind] using hrun

omit hq in
theorem run_lookupMade? (site : Site) : (lookupMade? site M (constructorKey n)).run.run q = (do
    match ← defineNew M (constructorKey n) site.call.mark.loc with
    | some g => return some g
    | none => defineMissing M (constructorKey n) site.call.mark.loc : Infer (Option Group)).run.run q := by
  have hnew : isNew q.types (constructorKey n).name M = true :=
    isNew_metaclass ((later_of_chain hp h₁).grown.get hp.metaclass)
  rw [lookupMade?, Flow.run_types_bind, hnew]
  rfl

/-- **Constructors are made** if there is something to make them from. -/
theorem run_lookupMade?_some (hfiled : p.env.WellFiled) (site : Site)
    (hnew : p.env.group? M (constructorKey n) = none) (hcs : p.origins? M C n = some cs)
    (hread : ∀ c ∈ cs, c.signature.IsRead) :
    ∃ g q', (lookupMade? site M (constructorKey n)).run.run q = (.ok (some g), q') ∧ Later p.types q'.types ∧
      q'.env.group? M (constructorKey n) = some g ∧ Constructs M n g.candidates cs := by
  rw [run_lookupMade? hp h₁]
  unfold Program.origins? at hcs
  split at hcs
  · rename_i g hg
    obtain rfl := Option.some.inj hcs
    obtain ⟨g', q', hrun, hrest⟩ := run_defineNew_some hp h₁ hq hfiled site.call.mark.loc hnew hg hread
    exact ⟨g', q', (Flow.run_bind_of_ok hrun _).trans rfl, hrest⟩
  · rename_i hnone
    split at hcs
    · rename_i hwhy
      obtain rfl := Option.some.inj hcs
      by_cases hplain : n = 0 ∧ p.visibleNamed C "initialize" = []
      · obtain ⟨rfl, hnil⟩ := hplain
        obtain ⟨g', q', hrun, hrest⟩ := run_defineNew_plain hp h₁ hq site.call.mark.loc hnew hnone hnil
        exact ⟨g', q', (Flow.run_bind_of_ok hrun _).trans rfl, hrest⟩
      · have hrun := run_defineNew_none hp h₁ hq site.call.mark.loc hnone hplain
        have hmissing := run_defineMissing hp h₁ hq site.call.mark.loc hnew
        rw [if_pos (hwhy.resolve_left hplain)] at hmissing
        obtain ⟨g', q', hmade, hrest⟩ := hmissing
        exact ⟨g', q', (Flow.run_bind_of_ok hrun _).trans hmade, hrest⟩
    · cases hcs

theorem run_lookupMade?_none (site : Site) (hnew : p.env.group? M (constructorKey n) = none)
    (hcs : p.origins? M C n = none) :
    ∃ q', (lookupMade? site M (constructorKey n)).run.run q = (.ok none, q') := by
  rw [run_lookupMade? hp h₁]
  unfold Program.origins? at hcs
  split at hcs
  · cases hcs
  · rename_i hnone
    split at hcs
    · cases hcs
    · rename_i hwhy
      obtain ⟨hplain, hmissing⟩ := not_or.mp hwhy
      have hrun := run_defineNew_none hp h₁ hq site.call.mark.loc hnone hplain
      have hforward := run_defineMissing hp h₁ hq site.call.mark.loc hnew
      rw [if_neg hmissing] at hforward
      obtain ⟨q', hforward⟩ := hforward
      exact ⟨q', (Flow.run_bind_of_ok hrun _).trans hforward⟩

end

end Infer

end TypeFlow
