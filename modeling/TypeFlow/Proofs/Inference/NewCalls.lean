import TypeFlow.Proofs.Inference.Constructors
import TypeFlow.Proofs.Inference.Responding

/-!
# Calls of `new`

A class has no method `new` of its own until one is called. The first call makes constructors from what
`initialize` accepts at the time, so it is accepted exactly if an overload of `initialize` takes the arguments,
or there is none and none is needed, or what answers to anything answers to it. The constructors then stay as
they are: later calls with as many arguments are accepted by the overloads of `initialize` that the first call
saw (`Infer.matchCall_new`), also when the class has got further ones since. So a call can be refused although
`initialize` takes its arguments (`Session.stale_constructors`).

The two ends of a call are dealt with one by one: which group it resolves against (`Infer.run_lookup_some`,
`Infer.run_lookup_own`), and what this group accepts (`Infer.found_constructs`).
-/

namespace TypeFlow

open Table (Later)

/-- A typing step that never gets beyond its failure gives no answer. -/
theorem Failing.not_isOk {α : Type} {m : Infer α} (hm : Failing m) (p : Program) :
    ¬ (m.run.run p).1.isOk = true := by
  intro h
  cases hres : (m.run.run p).1 with
  | ok a => exact hm p a _ (Prod.ext hres rfl)
  | error f =>
    rw [hres] at h
    cases h

namespace Infer

variable {p q : Program} {M C : TypeId} {n : Nat} {cs : List (Candidate MethodId)}

/-! ### Where a call is resolved -/

section

variable {site : Site} {args : List TypeId} (hp : p.Instantiates M C) (hsite : site.AsksNew)
  (hnew : p.Unmade M args.length)

include hp hnew

theorem group?_of_unmade : p.env.group? M (constructorKey args.length) = none := by
  have hchain := (hp.repeats_lookupChain.adds p.types hp.later).2.2
  obtain ⟨rest, hrest⟩ := hchain
  refine Option.eq_none_iff_forall_not_mem.mpr fun g hg => ?_
  have hvisible : p.visible? M (constructorKey args.length) = some g := by
    have hfind : p.visible? M (constructorKey args.length) =
        (chain p M).findSome? (p.env.group? · (constructorKey args.length)) := rfl
    rw [hfind, chain, hrest, List.findSome?_cons, hg]
  exact (hnew g hvisible).1 (Env.mem_of_group? hg).2.1

include hsite

theorem run_lookupDeclared?_none : (lookupDeclared? site M (constructorKey args.length)).run.run p =
    (.ok none, { p with types := ((lookupChain M).run p.types).2 }) := by
  have hfind : (findGroup? M (constructorKey args.length)).run.run p =
      (.ok (p.visible? M (constructorKey args.length)), { p with types := ((lookupChain M).run p.types).2 }) := rfl
  have hback : fallsBack site M = false := by
    simp [fallsBack, hsite.obj]
  have h₁ := Later.of_adds hp.later.linked (hp.repeats_lookupChain.adds p.types hp.later)
  have hisNew : isNew ((lookupChain M).run p.types).2 (constructorKey args.length).name M = true :=
    isNew_metaclass (h₁.grown.get hp.metaclass)
  let p₁ : Program := { p with types := ((lookupChain M).run p.types).2 }
  refine (Flow.run_bind_of_ok hfind _).trans ?_
  cases hg : p.visible? M (constructorKey args.length) with
  | none =>
    rw [hback]
    rfl
  | some g =>
    obtain ⟨howner, hsynthetic⟩ := hnew g hg
    -- what is found belongs to another class, and its constructors do not count here
    have hinherited : (do
        if isNew (← Flow.types) (constructorKey args.length).name M && g.owner ≠ M then isSynthetic g
        else return false : Infer Bool).run.run p₁ = (.ok true, p₁) := by
      rw [Flow.run_types_bind, if_pos (by rw [hisNew, decide_eq_true howner]; rfl), ← hsynthetic]
      rfl
    refine (Flow.run_bind_of_ok hinherited _).trans ?_
    rw [hback]
    rfl

omit hp hnew in
theorem keyOf_asksNew : keyOf site args = constructorKey args.length := by
  rw [keyOf, hsite.name, hsite.block]
  rfl

theorem run_lookup_made : (lookup site M args).run.run p = (do
      match ← lookupMade? site M (constructorKey args.length) with
      | some g => return (g, M)
      | none => unknownCall site M args : Infer (Group × TypeId)).run.run
    { p with types := ((lookupChain M).run p.types).2 } := by
  rw [lookup, hsite.super, keyOf_asksNew hsite]
  exact Flow.run_bind_of_ok (run_lookupDeclared?_none hp hsite hnew) _

/-- The first call of `new` makes the constructors and resolves against them. -/
theorem run_lookup_some (hfiled : p.env.WellFiled) (hcs : p.origins? M C args.length = some cs)
    (hread : ∀ c ∈ cs, c.signature.IsRead) :
    ∃ g q', (lookup site M args).run.run p = (.ok (g, M), q') ∧ Later p.types q'.types ∧
      q'.env.group? M (constructorKey args.length) = some g ∧ Constructs M args.length g.candidates cs := by
  have hself := hp.repeats_lookupChain.adds p.types hp.later
  have h₁ := Later.refl hself.1 (hp.later.linked.of_grown hself.2.1)
  let p₁ : Program := { p with types := ((lookupChain M).run p.types).2 }
  obtain ⟨g, q', hrun, hrest⟩ := run_lookupMade?_some (q := p₁) hp h₁ rfl hfiled site
    (group?_of_unmade hp hnew) hcs hread
  refine ⟨g, q', ?_, hrest⟩
  rw [run_lookup_made hp hsite hnew]
  exact (Flow.run_bind_of_ok hrun _).trans rfl

theorem run_lookup_none (hcs : p.origins? M C args.length = none) {found : Group × TypeId} {q' : Program} :
    (lookup site M args).run.run p ≠ (.ok found, q') := by
  have hself := hp.repeats_lookupChain.adds p.types hp.later
  have h₁ := Later.refl hself.1 (hp.later.linked.of_grown hself.2.1)
  let p₁ : Program := { p with types := ((lookupChain M).run p.types).2 }
  obtain ⟨q₁, hrun⟩ := run_lookupMade?_none (q := p₁) hp h₁ rfl site
    (group?_of_unmade hp hnew) hcs
  rw [run_lookup_made hp hsite hnew]
  intro h
  rw [Flow.run_bind_of_ok hrun] at h
  exact failing_unknownCall _ _ _ _ _ _ h

omit hnew in
/-- Later calls resolve against the constructors that are there. -/
theorem run_lookup_own {g : Group} (hg : p.env.group? M (constructorKey args.length) = some g) :
    ∃ u, (lookup site M args).run.run p = (.ok (g, M), { p with types := u }) ∧ Later p.types u := by
  obtain ⟨u, hrun, hu⟩ := run_findGroup?_own hp hp.later hg
  have hsame : ¬ (g.owner ≠ M) := not_not.mpr (Env.mem_of_group? hg).2.1
  have hdeclared : (lookupDeclared? site M (constructorKey args.length)).run.run p =
      (.ok (some (g, M)), { p with types := u }) := by
    have hinherited : (do
        if isNew (← Flow.types) (constructorKey args.length).name M && g.owner ≠ M then isSynthetic g
        else return false : Infer Bool).run.run { p with types := u } = (.ok false, { p with types := u }) := by
      rw [Flow.run_types_bind, if_neg (by simp [hsame])]
      rfl
    refine (Flow.run_bind_of_ok hrun _).trans ?_
    exact (Flow.run_bind_of_ok hinherited _).trans rfl
  refine ⟨u, ?_, hu⟩
  rw [lookup, hsite.super, keyOf_asksNew hsite]
  exact (Flow.run_bind_of_ok hdeclared _).trans rfl

end

/-! ### What a call is accepted by -/

theorem detached_firstRejected (owner : TypeId) (i : Nat) (args : List TypeId)
    (params : List (Option TypeExpr)) : Detached (firstRejected owner i args params) := by
  induction args generalizing i params with
  | nil => exact .pure _
  | cons a args ih =>
    cases params with
    | nil => exact .pure _
    | cons p params =>
      refine .bind (.onTypes _) fun got => ?_
      simp only
      split
      · exact .pure _
      · exact ih _ _

theorem detached_rejectedArgument (owner : TypeId) (name : String) (i : Nat) (arg : TypeId)
    (restriction : Option TypeExpr) : Detached (rejectedArgument owner name i arg restriction) := by
  unfold rejectedArgument
  cases restriction with
  | none => exact fun _ => rfl
  | some e => exact .bind (.onTypes _) fun _ _ => rfl

theorem detached_noOverload {α : Type} (g : Group) (owner : TypeId) (args : List TypeId)
    (ms : Matches MethodId) : Detached (noOverload g owner args ms : Infer α) := by
  unfold noOverload
  extract_lets l k
  have hl : ∀ rejected, Detached (l rejected) := by
    intro rejected
    unfold l
    split
    · exact (detached_rejectedArgument _ _ _ _ _).bind fun _ => .throw _
    · exact .bind (fun _ => rfl) fun _ => .throw _
  have hk : ∀ primitive, Detached (k primitive) := by
    intro primitive
    unfold k
    split
    · exact (Detached.pure _).bind hl
    · exact (detached_firstRejected _ _ _ _).bind hl
  split
  · refine .bind (fun q => ?_) hk
    unfold singlePrimitive?
    split
    · refine Detached.bind (fun _ => rfl) (fun m => ?_) q
      split <;> exact .pure _
    · rfl
  · exact (Detached.pure _).bind hk

/-- A call is accepted if the group that it resolves against accepts it. -/
theorem run_matchCall {site : Site} {recv owner : TypeId} {args : List TypeId} {g : Group}
    (h : (lookup site recv args).run.run p = (.ok (g, owner), q)) :
    (((matchCall site recv args).run.run p).1.isOk = true ↔
      ((Overload.select Table.resolveType? g.candidates owner args).run q.types).1.found = true) ∧
    ((matchCall site recv args).run.run p).2.env = q.env := by
  let result := (Overload.select Table.resolveType? g.candidates owner args).run q.types
  have hrun : (matchCall site recv args).run.run p =
      (if result.1.found then return (owner, result.1) else noOverload g owner args result.1 :
        Infer (TypeId × Matches MethodId)).run.run { q with types := result.2 } :=
    Flow.run_bind_of_ok h _
  rw [hrun]
  split
  · rename_i hfound
    exact ⟨iff_of_true rfl hfound, rfl⟩
  · rename_i hfound
    exact ⟨iff_of_false ((failing_noOverload _ _ _ _).not_isOk _) hfound, detached_noOverload _ _ _ _ _⟩

/-- All groups are well filed from the start on. -/
theorem wellFiled_of_advances {x : Expander} (h : Advances (.initial x) p) : p.env.WellFiled := by
  have hstart := (Program.evolving_setUp { types := .initial, graph := {}, env := { expander := x } }).trans h
  exact hstart.retains.remembers.filed hstart.acts fun g hg => absurd hg (Array.not_mem_empty g)

/-- A class that sees no overload of a name sees none for any number of arguments. -/
theorem visible?_of_visibleNamed {owner : TypeId} {key : GroupKey} (h : p.visibleNamed owner key.name = []) :
    p.visible? owner key = none := by
  refine Option.eq_none_iff_forall_not_mem.mpr fun g hg => ?_
  obtain ⟨a, ha, hfound⟩ := List.exists_of_findSome?_eq_some hg
  obtain ⟨hmem, howner, hkey⟩ := Env.mem_of_group? hfound
  have hnone := List.flatMap_eq_nil_iff.mp h a ha
  exact List.eq_nil_iff_forall_not_mem.mp hnone g (Env.mem_groupsOn.mpr ⟨hmem, howner, congrArg _ hkey⟩)

/-- What takes any arguments accepts every call. -/
theorem found_unrestricted (hp : p.Instantiates M C) {args : List TypeId}
    (hargs : ∀ a ∈ args, a ≠ 0 ∧ a < p.types.size) :
    ((Overload.select Table.resolveType? [unrestricted M args.length] C args).run p.types).1.found = true := by
  obtain ⟨o, ho, -⟩ := hp.object
  have hfree : (unrestricted M args.length).restrictions = List.replicate args.length none :=
    List.map_replicate
  refine (hp.inferred.found_select_iff hp.settled (Table.lt_size_of_get? ho) (fun c hc e he => ?_) hargs
    hp.later).mpr fun xs hxs => ⟨_, List.mem_singleton_self _, ?_⟩
  · obtain rfl := List.mem_singleton.mp hc
    rw [hfree] at he
    exact absurd (List.eq_of_mem_replicate he) (by simp)
  · have hlength : xs.length = args.length := by simpa using (Overload.mem_product.mp hxs).length_eq
    rw [hfree]
    exact Overload.takes_free (Nat.le_of_eq hlength)

/-- Constructors accept what they were made from accepts for the class. -/
theorem found_constructs (hp : p.Instantiates M C) {u : Table} (hu : Later p.types u) {args : List TypeId}
    {out : List (Candidate MethodId)} (hmade : Constructs M args.length out cs)
    (hcs : ∀ c ∈ cs, ∀ e, some e ∈ c.restrictions → Overload.Closed Table.resolveType? p.types C e)
    (hargs : ∀ a ∈ args, a ≠ 0 ∧ a < p.types.size) :
    ((Overload.select Table.resolveType? out M args).run u).1.found =
      ((Overload.select Table.resolveType? cs C args).run p.types).1.found := by
  obtain ⟨o, ho, -⟩ := hp.object
  exact hp.inferred.found_refiled hp.settled hp.lt_size (Table.lt_size_of_get? ho)
    (Overload.sameView_metaclass hp.metaclass ho) hmade.refiles hcs hargs hu hp.later

/-- A restriction that the types of a program decide for a class by themselves, as it is written. -/
def Plain (p : Program) (C : TypeId) (c : Candidate MethodId) : Prop :=
  ∀ e, some e ∈ c.restrictions → Overload.Closed Table.resolveType? p.types C e

theorem plain_unrestricted (p : Program) (M C : TypeId) (n : Nat) : Plain p C (unrestricted M n) := by
  intro e he
  have hfree : (unrestricted M n).restrictions = List.replicate n none := List.map_replicate
  rw [hfree] at he
  exact absurd (List.eq_of_mem_replicate he) (by simp)

section

variable {site : Site} {args : List TypeId} (hp : p.Instantiates M C) (hsite : site.AsksNew)
  (hargs : ∀ a ∈ args, a ≠ 0 ∧ a < p.types.size)

include hp hsite hargs

/-- A call of `new` is accepted by the constructors that are there as by what they were made from. -/
theorem isOk_matchCall_own {g : Group} (hg : p.env.group? M (constructorKey args.length) = some g)
    (hmade : Constructs M args.length g.candidates cs) (hcs : ∀ c ∈ cs, Plain p C c) :
    ((matchCall site M args).run.run p).1.isOk = true ↔
      ((Overload.select Table.resolveType? cs C args).run p.types).1.found = true := by
  obtain ⟨u, hlookup, hu⟩ := run_lookup_own hp hsite hg
  rw [(run_matchCall hlookup).1, found_constructs hp hu hmade hcs hargs]

variable (hnew : p.Unmade M args.length)

include hnew

omit hargs in
theorem isOk_matchCall_none (ho : p.origins? M C args.length = none) :
    ¬ ((matchCall site M args).run.run p).1.isOk = true := by
  intro hok
  cases hres : ((matchCall site M args).run.run p).1 with
  | ok found =>
    obtain ⟨_, q, hlookup, -⟩ := Flow.exists_of_run_bind (Prod.ext hres rfl)
    exact run_lookup_none hp hsite hnew ho hlookup
  | error f =>
    rw [hres] at hok
    cases hok

variable (hfiled : p.env.WellFiled)

include hfiled

/-- The first call of `new` makes constructors, and is accepted by them as by what they are made from. -/
theorem isOk_matchCall_some (ho : p.origins? M C args.length = some cs)
    (hcs : ∀ c ∈ cs, c.signature.IsRead ∧ Plain p C c) :
    (((matchCall site M args).run.run p).1.isOk = true ↔
      ((Overload.select Table.resolveType? cs C args).run p.types).1.found = true) ∧
    ∃ g, ((matchCall site M args).run.run p).2.env.group? M (constructorKey args.length) = some g ∧
      Constructs M args.length g.candidates cs := by
  obtain ⟨g, q, hlookup, hq, hg, hmade⟩ :=
    run_lookup_some hp hsite hnew hfiled ho fun c hc => (hcs c hc).1
  obtain ⟨hok, henv⟩ := run_matchCall hlookup
  refine ⟨?_, g, henv ▸ hg, hmade⟩
  rw [hok, found_constructs hp hq hmade (fun c hc => (hcs c hc).2) hargs]

theorem isOk_matchCall_unrestricted (ho : p.origins? M C args.length = some [unrestricted M args.length]) :
    ((matchCall site M args).run.run p).1.isOk = true := by
  refine (isOk_matchCall_some hp hsite hargs hnew hfiled ho fun c hc => ?_).1.mpr (found_unrestricted hp hargs)
  obtain rfl := List.mem_singleton.mp hc
  exact ⟨isRead_unrestricted M args.length, plain_unrestricted p M C args.length⟩

/-- The first call of `new` is accepted by the overloads of `initialize`; if there are none, by what stands in for
them. -/
theorem isOk_matchCall_iff (hread : ∀ g, p.visible? C (initializerKey args.length) = some g →
      ∀ c ∈ g.candidates, c.signature.IsRead ∧ Plain p C c) :
    ((matchCall site M args).run.run p).1.isOk = true ↔
      (∃ g, p.visible? C (initializerKey args.length) = some g ∧
        ((Overload.select Table.resolveType? g.candidates C args).run p.types).1.found = true) ∨
      (args = [] ∧ p.visibleNamed C "initialize" = []) ∨
      (p.visible? C (initializerKey args.length) = none ∧ (p.visible? M missingKey).isSome = true) := by
  cases hg : p.visible? C (initializerKey args.length) with
  | some g =>
    have ho : p.origins? M C args.length = some g.candidates := by
      rw [Program.origins?, hg]
    rw [(isOk_matchCall_some hp hsite hargs hnew hfiled ho (hread g hg)).1]
    constructor
    · exact fun hfound => .inl ⟨g, rfl, hfound⟩
    · rintro (⟨g', hsame, hfound⟩ | ⟨rfl, hnil⟩ | ⟨hnone, -⟩)
      · exact Option.some.inj hsame ▸ hfound
      · have hnone : p.visible? C (initializerKey 0) = none := visible?_of_visibleNamed hnil
        cases hnone.symm.trans hg
      · cases hnone
  | none =>
    by_cases hwhy : (args.length = 0 ∧ p.visibleNamed C "initialize" = []) ∨ (p.visible? M missingKey).isSome
    · have ho : p.origins? M C args.length = some [unrestricted M args.length] := by
        rw [Program.origins?, hg]
        exact if_pos hwhy
      refine iff_of_true (isOk_matchCall_unrestricted hp hsite hargs hnew hfiled ho) (.inr (hwhy.imp ?_ ?_))
      · exact fun hplain => ⟨List.length_eq_zero_iff.mp hplain.1, hplain.2⟩
      · exact fun hmissing => ⟨rfl, hmissing⟩
    · have ho : p.origins? M C args.length = none := by
        rw [Program.origins?, hg]
        exact if_neg hwhy
      refine iff_of_false (isOk_matchCall_none hp hsite hnew ho) ?_
      rintro (⟨g', hsame, -⟩ | ⟨rfl, hnil⟩ | ⟨-, hmissing⟩)
      · cases hsame
      · exact hwhy (.inl ⟨rfl, hnil⟩)
      · exact hwhy (.inr hmissing)

end

/-- Constructors stay as they are until a method is filed among them. -/
theorem group?_of_advances {g : Group} {key : GroupKey} (hg : p.env.group? M key = some g) (h : Advances p q)
    (hkept : ∀ g', q.env.group? M key = some g' → ∀ c ∈ g'.candidates, (p.env.methods[c.id]?).isSome = true) :
    q.env.group? M key = some g := by
  obtain ⟨g', hg', hsame⟩ := h.retains.remembers.groups _ _ _ hg
  rcases hsame with rfl | ⟨c, hc, hunknown⟩
  · exact hg'
  · have hknown := hkept g' hg' c hc
    rw [hunknown] at hknown
    cases hknown

/-- **The first call of `new` follows `initialize`, and later ones follow the first.** A class sees no `new` for
so many arguments but constructors of its ancestors, and is asked for one. This is accepted exactly if an overload
of `initialize` takes the arguments, if there are no arguments and no overload of `initialize` at all, or if there
is none for so many and the class answers to calls of anything. If there were overloads, every later call with as
many arguments is accepted exactly if these take them, as long as no `new` is declared for the class. -/
theorem matchCall_new {x : Expander} (h : Advances (.initial x) p) (hp : p.Instantiates M C) {site : Site}
    (hsite : site.AsksNew) {args : List TypeId} (hargs : ∀ a ∈ args, a ≠ 0 ∧ a < p.types.size)
    (hnew : p.Unmade M args.length)
    (hread : ∀ g, p.visible? C (initializerKey args.length) = some g →
      ∀ c ∈ g.candidates, c.signature.IsRead ∧ Plain p C c)
    {result : Except Failure (TypeId × Matches MethodId)} {p' : Program}
    (hrun : (matchCall site M args).run.run p = (result, p')) :
    (result.isOk = true ↔
      (∃ g, p.visible? C (initializerKey args.length) = some g ∧
        ((Overload.select Table.resolveType? g.candidates C args).run p.types).1.found = true) ∨
      (args = [] ∧ p.visibleNamed C "initialize" = []) ∨
      (p.visible? C (initializerKey args.length) = none ∧ (p.visible? M missingKey).isSome = true)) ∧
    ∀ g, p.visible? C (initializerKey args.length) = some g → ∀ q, Advances p' q → q.Instantiates M C →
      (∀ g', q.env.group? M (constructorKey args.length) = some g' →
        ∀ c ∈ g'.candidates, (p'.env.methods[c.id]?).isSome = true) →
      (∀ c ∈ g.candidates, Plain q C c) → ∀ later : Site, later.AsksNew →
      ∀ given : List TypeId, given.length = args.length → (∀ a ∈ given, a ≠ 0 ∧ a < q.types.size) →
        (((matchCall later M given).run.run q).1.isOk = true ↔
          ((Overload.select Table.resolveType? g.candidates C given).run q.types).1.found = true) := by
  have hfiled := wellFiled_of_advances h
  refine ⟨?_, fun g hg q hq hq' hkept hplain later hlater given hlength hgiven => ?_⟩
  · have hfirst := isOk_matchCall_iff hp hsite hargs hnew hfiled hread
    rwa [hrun] at hfirst
  · have ho : p.origins? M C args.length = some g.candidates := by
      rw [Program.origins?, hg]
    obtain ⟨g', hg', hmade⟩ := (isOk_matchCall_some hp hsite hargs hnew hfiled ho (hread g hg)).2
    rw [hrun] at hg'
    have hlast := group?_of_advances hg' hq hkept
    rw [← hlength] at hlast hmade
    exact isOk_matchCall_own hq' hlater hgiven hlast hmade hplain

/-- A class whose objects are initialized with something of a type. -/
def lamp (type : String) : Source :=
  .node none (.classDef "Lamp" none none (some (.node none (.methodDef "" "initialize"
    (some [⟨"on", some (TypeExpr.ofName type), none, false⟩]) none (some (.node none .nilLiteral)) false))))

/-- The program in which lamps, the class 15 with the metaclass 16, are initialized with truth values. -/
def lamps : Program :=
  ((Program.initial .none).run (Program.infer (lamp "Bool"))).2

/-- A call of `new`. -/
def lighting : Site :=
  { call := ⟨⟨none, 0⟩, none, "new", [], none, true⟩, scope := 0, node := 2, obj := 3 }

/-- The program after a lamp is made with a truth value. -/
def lit : Program :=
  ((matchCall lighting 16 [Builtin.bool]).run.run lamps).2

/-- The program after the class is opened again, to initialize lamps with texts as well. -/
def relit : Program :=
  (lit.run (Program.infer (lamp "String"))).2

/-- The types of these programs. -/
def lampTypes : Table :=
  Table.Operation.runAll [.metaclassOf Builtin.object, .defineClass "Lamp" Builtin.object [],
    .metaclassOf 15] .initial

/-- Whether a restriction is a given name. -/
def isName (name : String) : Option TypeExpr → Bool
  | some (.named [n] []) => n == name
  | _ => false

theorem eq_of_isName {name : String} {e : Option TypeExpr} (h : isName name e = true) :
    e = some (TypeExpr.ofName name) := by
  unfold isName at h
  split at h
  · rw [← beq_iff_eq.mp h]
    rfl
  · cases h

theorem instantiates_lamps {q : Program} (hentries : q.types.entries = lampTypes.entries)
    (hnames : q.types.names = lampTypes.names) : q.Instantiates 16 15 := by
  have htypes : q.types = lampTypes :=
    calc q.types = ⟨q.types.entries, q.types.names⟩ := rfl
      _ = lampTypes := by rw [hentries, hnames]
  have hinf : lampTypes.Inferred := Table.Inferred.initial.runAll (by decide +kernel)
  have hobject : ∃ o, lampTypes.get? 15 = some (.object o) ∧ o.isModule = false ∧ o.isTemplate = false := by
    have hplain : (lampTypes.object? 15).any fun o => !o.isModule && !o.isTemplate := by decide +kernel
    obtain ⟨o, ho, hplain⟩ := (Option.any_eq_true _ _).mp hplain
    rw [Bool.and_eq_true, Bool.not_eq_true', Bool.not_eq_true'] at hplain
    exact ⟨o, Table.object?_eq_some_iff.mp ho, hplain⟩
  exact ⟨htypes ▸ hinf, htypes ▸ by decide +kernel, htypes ▸ by decide +kernel, htypes ▸ hobject⟩

/-- The overloads of `initialize` that lamps have before they are lit. -/
def lampInitializers : List (Candidate MethodId) :=
  (lamps.visible? 15 (initializerKey 1)).elim [] Group.candidates

/-- A lamp is made with a truth value as it is initialized with one. With a text it is not made later on either,
though by then it can be initialized with one. -/
theorem matchCall_new_lamps :
    Session .none lamps ∧ lamps.Instantiates 16 15 ∧ lighting.AsksNew ∧
    (∀ a ∈ [Builtin.bool], a ≠ 0 ∧ a < lamps.types.size) ∧ lamps.Unmade 16 1 ∧
    (∀ c ∈ lampInitializers, c.signature.IsRead ∧ Plain lamps 15 c) ∧
    ((matchCall lighting 16 [Builtin.bool]).run.run lamps).1.isOk = true ∧
    Advances lit relit ∧ relit.Instantiates 16 15 ∧
    (((matchCall lighting 16 [Builtin.bool]).run.run relit).1.isOk = true) ∧
    ¬ ((matchCall lighting 16 [Builtin.string]).run.run relit).1.isOk = true := by
  have hsession : Session .none lamps := .tree .initial _
  have hinst : lamps.Instantiates 16 15 := instantiates_lamps (by decide +kernel) (by decide +kernel)
  have hrelit : relit.Instantiates 16 15 := instantiates_lamps (by decide +kernel) (by decide +kernel)
  have hlater : Advances lit relit := Program.evolving_infer _ _
  have hsite : lighting.AsksNew := ⟨rfl, rfl, rfl, by decide⟩
  have hargs : ∀ a ∈ [Builtin.bool], a ≠ 0 ∧ a < lamps.types.size := by decide +kernel
  obtain ⟨hnone, hsome, hnames, hfound⟩ : (lamps.visible? 16 (constructorKey 1)).isNone ∧
      (lamps.visible? 15 (initializerKey 1)).isSome ∧
      (∀ c ∈ lampInitializers, ∀ e ∈ c.restrictions, isName "Bool" e = true) ∧
      ((Overload.select Table.resolveType? lampInitializers 15 [Builtin.bool]).run lamps.types).1.found := by
    decide +kernel
  obtain ⟨hstay, hbool, hstring⟩ :
      (∀ c ∈ (relit.env.group? 16 (constructorKey 1)).elim [] Group.candidates,
        (lit.env.methods[c.id]?).isSome = true) ∧
      ((Overload.select Table.resolveType? lampInitializers 15 [Builtin.bool]).run relit.types).1.found = true ∧
      ((Overload.select Table.resolveType? lampInitializers 15 [Builtin.string]).run relit.types).1.found =
        false := by
    decide +kernel
  have hnew : lamps.Unmade 16 1 := by
    intro g hg
    rw [hg] at hnone
    cases hnone
  have hplain : ∀ q : Program, (Table.resolveType? q.types 15 ["Bool"]).isSome → ∀ c ∈ lampInitializers,
      Plain q 15 c := by
    intro q hknown c hc e he
    obtain rfl := Option.some.inj (eq_of_isName (hnames c hc _ he))
    exact .name hknown
  have hread : ∀ c ∈ lampInitializers, c.signature.IsRead ∧ Plain lamps 15 c := by
    have hword : (Overload.taking "" ["Bool"]).signature.IsRead := Overload.isRead_taking (by decide)
    refine fun c hc => ⟨fun x hx e he => ?_, hplain lamps (by decide +kernel) c hc⟩
    have hname := eq_of_isName (hnames c hc x.2 (List.mem_map_of_mem hx))
    rw [hname] at he
    obtain rfl := Option.some.inj he
    exact hword _ List.mem_cons_self _ rfl
  obtain ⟨g, hg⟩ := Option.isSome_iff_exists.mp hsome
  have hgroup : g.candidates = lampInitializers := by
    rw [lampInitializers, hg]
    rfl
  have hgroups : ∀ g, lamps.visible? 15 (initializerKey 1) = some g →
      ∀ c ∈ g.candidates, c.signature.IsRead ∧ Plain lamps 15 c := by
    intro g' hg'
    obtain rfl := Option.some.inj (hg.symm.trans hg')
    exact hgroup ▸ hread
  have hrun : (matchCall lighting 16 [Builtin.bool]).run.run lamps =
      (((matchCall lighting 16 [Builtin.bool]).run.run lamps).1, lit) := rfl
  have hkept : ∀ g', relit.env.group? 16 (constructorKey 1) = some g' → ∀ c ∈ g'.candidates,
      (lit.env.methods[c.id]?).isSome = true := by
    intro g' hg'
    rw [hg'] at hstay
    exact hstay
  obtain ⟨hfirst, hrest⟩ := matchCall_new hsession.advances hinst hsite hargs hnew hgroups hrun
  have hagain := hrest g hg relit hlater hrelit hkept (hgroup ▸ hplain relit (by decide +kernel)) lighting hsite
  rw [hgroup] at hagain
  refine ⟨hsession, hinst, hsite, hargs, hnew, hread, hfirst.mpr (.inl ⟨g, hg, hgroup ▸ hfound⟩), hlater, hrelit,
    (hagain [Builtin.bool] rfl (by decide +kernel)).mpr hbool, fun hok => ?_⟩
  have hfits := (hagain [Builtin.string] rfl (by decide +kernel)).mp hok
  rw [hstring] at hfits
  cases hfits

end Infer

namespace Session

open Infer

/-- A lamp is made with something. -/
def making (arg : Form (Option Location) Source) : Source :=
  .node none (.call (some (.node none (.path (some ["Lamp"]) none))) "new" (some [.node none arg]) none true)

/-- A lamp is declared and made with a truth value. Then the class is opened again, to initialize lamps with texts
as well. -/
def relamped : Program :=
  ((((Program.initial .none).run (Program.infer (.node none (.expressions
      (some [lamp "Bool", making (.boolLiteral true)]))))).2).run (Program.infer (lamp "String"))).2

/-- **Constructors go stale.** The class 15 can be initialized with a text, and no `new` is declared for it. But a
call of `new` with a text is refused. -/
theorem stale_constructors :
    Session .none relamped ∧
    (relamped.types.object? 15).any (fun o => !o.isModule && !o.isTemplate) = true ∧
    relamped.types.get? 16 = some (.metaclass 15) ∧
    ((relamped.visibleNamed 16 "new").all fun g => relamped.env.isSynthetic g) = true ∧
    ((relamped.visible? 15 (initializerKey 1)).any fun g =>
      ((Overload.select Table.resolveType? g.candidates 15 [Builtin.string]).run relamped.types).1.found) = true ∧
    ((matchCall lighting 16 [Builtin.string]).run.run relamped).1.isOk = false ∧
    (relamped.run (Program.infer (making (.stringLiteral "on")))).1.toOption = none :=
  ⟨.tree (.tree .initial _) _, by decide +kernel⟩

end Session

end TypeFlow
