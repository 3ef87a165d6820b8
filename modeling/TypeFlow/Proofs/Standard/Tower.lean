import TypeFlow.Proofs.Inference.Constructors
import TypeFlow.Proofs.Settings.Promotion
import TypeFlow.Standard.Numeric

/-!
# The numeric tower as declarations

Declaring a tower adds a primitive for every kind (`Standard.run_declareKinds`) and then the operations of the kinds,
one method after the other. What is on file for a type after some methods were declared is kept as an invariant,
`Env.Lists`: every candidate is one of these methods, and each of them is a candidate unless one with the same
restrictions took its place. One declaration extends the list of the type and leaves those of other types alone
(`Infer.run_addMethod_lists`); the rest are inductions over the lists of declarations.
-/

namespace TypeFlow

/-! ### Restrictions by a name -/

theorem TypeExpr.render_ofName (name : String) : TypeExpr.render (.ofName name) = name := by
  simp [render, ofName, TypeTerm.pieces]

/-- A parameter that is restricted by a single name. -/
def NamedParam (x : String × Option TypeExpr) : Prop :=
  ∃ name, x.2 = some (.ofName name)

namespace Overload

variable {ι : Type}

/-- A name is resolved by looking it up. -/
theorem run_resolve_ofName (r : Resolver) (owner : TypeId) (name : String) (t : Table) :
    (resolve r owner (.ofName name)).run t = (r t owner [name], t) := by
  rw [TypeExpr.ofName, resolve, Table.run_get_bind]
  cases r t owner [name] <;> rfl

/-- To compare restrictions by names adds no types. -/
theorem run_allRestrictions_named (r : Resolver) (ownerA ownerB : TypeId) {as bs : List (String × Option TypeExpr)}
    (ha : ∀ a ∈ as, NamedParam a) (hb : ∀ b ∈ bs, NamedParam b) (t : Table) :
    ((allRestrictions r ownerA ownerB (as.map Prod.snd) (bs.map Prod.snd)).run t).2 = t := by
  induction as generalizing bs with
  | nil => rfl
  | cons a as ih =>
    cases bs with
    | nil => rfl
    | cons b bs =>
      obtain ⟨⟨x, hx⟩, has⟩ := List.forall_mem_cons.mp ha
      obtain ⟨⟨y, hy⟩, hbs⟩ := List.forall_mem_cons.mp hb
      have hfirst : ∃ found, (isRestriction r ownerA ownerB a.2 b.2).run t = (found, t) := by
        have hstep : ∀ {α β : Type} {e : TableM α} {f : α → TableM β} {c : α}, e.run t = (c, t) →
            (e >>= f).run t = (f c).run t := by
          intro α β e f c he
          rw [StateT.run_bind, he]
          rfl
        rw [hx, hy, isRestriction, hstep (run_resolve_ofName _ _ _ _), hstep (run_resolve_ofName _ _ _ _)]
        cases r t ownerA [x] <;> cases r t ownerB [y] <;> exact ⟨_, rfl⟩
      obtain ⟨found, hfound⟩ := hfirst
      rw [List.map_cons, List.map_cons, allRestrictions, StateT.run_bind, hfound]
      cases found
      · rfl
      · exact ih has hbs

variable {c : Candidate ι} {cs : List (Candidate ι)}

/-- To file a candidate among others adds no types, if all restrictions are names. -/
theorem types_insert_named (r : Resolver) (hc : ∀ x ∈ c.signature.params, NamedParam x)
    (hcs : ∀ d ∈ cs, ∀ x ∈ d.signature.params, NamedParam x) (t : Table) : ((insert r cs c).run t).2 = t := by
  have hbefore : ((insertBefore r c cs).run t).2 = t := by
    induction cs with
    | nil => rfl
    | cons d cs ih =>
      obtain ⟨hd, hcs⟩ := List.forall_mem_cons.mp hcs
      have hfiner := run_allRestrictions_named r c.signature.owner d.signature.owner hc hd t
      have hcoarser := run_allRestrictions_named r d.signature.owner c.signature.owner hd hc t
      have hskip : ((do return d :: (← insertBefore r c cs) : TableM (List (Candidate ι))).run t).2 = t := ih hcs
      rw [insertBefore, Table.run_bind, isRestrictionOf, hfiner]
      split
      · rw [Table.run_bind, isRestrictionOf, hcoarser]
        split
        · exact hskip
        · rfl
      · exact hskip
  unfold insert
  split
  · rfl
  · exact hbefore

theorem sameRestrictions_refl (a : Signature) : sameRestrictions a a = true :=
  beq_self_eq_true _

/-- What has the same restrictions as a third has them as each other. -/
theorem sameRestrictions_of_same {a b c : Signature} (hb : sameRestrictions a b = true)
    (hc : sameRestrictions a c = true) : sameRestrictions b c = true := by
  rw [sameRestrictions, beq_iff_eq] at *
  exact hb.symm.trans hc

end Overload

/-! ### Kinds as types -/

/-- The type that a kind is declared as. -/
def NumericKind.entry (k : NumericKind) : Entry :=
  .primitive { name := k.name, size := k.size, parent := Builtin.numeric,
               numeric := some { float := k.float, signed := k.signed } }

/-- Kinds were declared: they have types of their own, under their names, and everything else is as before. -/
structure Table.DeclaresAll (t t' : Table) (ks : List NumericKind) (ids : List (String × TypeId)) : Prop where
  old : ∀ i, i < t.size → t'.get? i = t.get? i
  other : ∀ x, x ∉ ks.map (·.name) → t'.lookup? x = t.lookup? x
  new : ∀ k ∈ ks, t.lookup? k.name = none
  kind : ∀ k ∈ ks, ∃ id, assoc? ids k.name = some id ∧ t'.lookup? k.name = some id ∧ t.size ≤ id ∧
    t'.get? id = some k.entry

theorem Table.DeclaresAll.cons {t t₁ t' : Table} {k : NumericKind} {ks : List NumericKind} {ids : List (String × TypeId)}
    (hnone : t.lookup? k.name = none) (hentries : t₁.entries = t.entries.push k.entry)
    (hnames : t₁.names = (k.name, t.size) :: t.names) (h : DeclaresAll t₁ t' ks ids) :
    DeclaresAll t t' (k :: ks) ((k.name, t.size) :: ids) := by
  have hsize : t₁.size = t.size + 1 := by
    simp [size, hentries]
  have hget : ∀ i, i < t.size → t₁.get? i = t.get? i := by
    intro i hi
    cases i with
    | zero => rfl
    | succ i =>
      have hlt : i < t.entries.size := Nat.lt_of_succ_lt_succ hi
      simp only [get?, hentries, Array.getElem?_push, if_neg (Nat.ne_of_lt hlt)]
  have hlookup : ∀ x, t₁.lookup? x = if k.name = x then some t.size else t.lookup? x := by
    intro x
    by_cases hx : k.name = x <;> simp [lookup?, hnames, hx]
  -- names are looked up before they are declared, so no later kind has this name
  have hfresh : ∀ k' ∈ ks, k.name ≠ k'.name := by
    intro k' hk' hsame
    have hnew := h.new k' hk'
    rw [hlookup, if_pos hsame] at hnew
    cases hnew
  have hfirst : k.name ∉ ks.map (·.name) := by
    intro hmem
    obtain ⟨k', hk', hsame⟩ := List.mem_map.mp hmem
    exact hfresh k' hk' hsame.symm
  refine ⟨fun i hi => ?_, fun x hx => ?_, ?_, ?_⟩
  · rw [h.old i (by omega), hget i hi]
  · obtain ⟨hne, hx⟩ := not_or.mp (mt List.mem_cons.mpr hx)
    rw [h.other x hx, hlookup, if_neg (Ne.symm hne)]
  · refine List.forall_mem_cons.mpr ⟨hnone, fun k' hk' => ?_⟩
    have hnew := h.new k' hk'
    rwa [hlookup, if_neg (hfresh k' hk')] at hnew
  · refine List.forall_mem_cons.mpr ⟨⟨t.size, ?_, ?_, le_rfl, ?_⟩, fun k' hk' => ?_⟩
    · simp [assoc?]
    · rw [h.other _ hfirst, hlookup, if_pos rfl]
    · rw [h.old _ (by omega)]
      simp [get?, size, hentries]
    · obtain ⟨id, hid, hname, hle, hentry⟩ := h.kind k' hk'
      refine ⟨id, ?_, hname, by omega, hentry⟩
      simpa [assoc?, List.find?_cons, hfresh k' hk'] using hid

/-- Declaring kinds succeeds if none of the names is taken, and does nothing else. -/
theorem Standard.run_declareKinds {ks : List NumericKind} {p p' : Program} {ids : List (String × TypeId)}
    (h : (declareKinds ks).run.run p = (.ok ids, p')) :
    p' = { p with types := p'.types } ∧ p.types.DeclaresAll p'.types ks ids := by
  induction ks generalizing p p' ids with
  | nil =>
    cases h
    exact ⟨rfl, fun _ _ => rfl, fun _ _ => rfl, by simp, by simp⟩
  | cons k ks ih =>
    rw [declareKinds, Flow.run_types_bind] at h
    split at h
    · cases h
    · rename_i hnone
      obtain ⟨id, p₁, hdefine, h⟩ := Flow.exists_of_run_bind h
      change (declareKinds ks >>= fun rest => pure ((k.name, id) :: rest)).run.run p₁ = _ at h
      obtain ⟨rest, p₂, hrest, h⟩ := Flow.exists_of_run_bind h
      cases h
      cases hdefine
      obtain ⟨hbeside, hdeclares⟩ := ih hrest
      refine ⟨hbeside, .cons (Option.not_isSome_iff_eq_none.mp hnone) rfl rfl hdeclares⟩

/-! ### What is on file -/

/-- The key that a method without defaults is filed under. -/
def Definition.key (d : Definition) : GroupKey :=
  { name := d.name, arity := d.params.length, yields := d.yields }

/-- What overload resolution knows of a method that is declared on a type. -/
def Definition.signature (d : Definition) (owner : TypeId) : Signature :=
  { owner, params := d.params.map fun p => (p.name, p.restriction) }

/-- A primitive method with parameters that are restricted by names and have no defaults. -/
structure Definition.IsNamed (d : Definition) : Prop where
  primitive : Infer.kindOf d = .primitive
  fallback : ∀ x ∈ d.params, x.fallback = none
  named : ∀ x ∈ d.params, ∃ name, x.restriction = some (.ofName name)

theorem Definition.IsNamed.params {d : Definition} (h : d.IsNamed) (owner : TypeId) :
    ∀ x ∈ (d.signature owner).params, NamedParam x := by
  intro x hx
  obtain ⟨p, hp, rfl⟩ := List.mem_map.mp hx
  exact h.named p hp

namespace Env

/-- A candidate is a method that was declared on a type and not been called. -/
def Holds (e : Env) (owner : TypeId) (c : Candidate MethodId) (d : Definition) : Prop :=
  c.signature = d.signature owner ∧
    e.methods[c.id]? = some { definition := d, kind := .primitive, owner }

/-- What is on file for a type are the given methods, up to those that were replaced by one with the same
restrictions. -/
structure Lists (e : Env) (owner : TypeId) (ds : List Definition) : Prop where
  sound : ∀ key g, e.group? owner key = some g → ∀ c ∈ g.candidates, ∃ d ∈ ds, d.key = key ∧ e.Holds owner c d
  complete : ∀ d ∈ ds, ∃ g, e.group? owner d.key = some g ∧
    ∃ c ∈ g.candidates, Overload.sameRestrictions c.signature (d.signature owner) = true

/-- A method that is declared leaves what is known of the others as it is. -/
theorem Holds.push {e : Env} {owner : TypeId} {c : Candidate MethodId} {d : Definition} (h : e.Holds owner c d)
    (m : Method) (gs : Array Group) : Env.Holds { e with methods := e.methods.push m, groups := gs } owner c d := by
  refine ⟨h.1, ?_⟩
  have hlt : c.id < e.methods.size := (Array.getElem?_eq_some_iff.mp h.2).1
  simp only [Array.getElem?_push, if_neg (Nat.ne_of_lt hlt), h.2]

end Env

namespace Infer

variable {p : Program} {owner : TypeId} {d : Definition} {ds : List Definition}

/-- To file a method among others adds no types, if all restrictions are names. -/
theorem types_filed (hd : d.IsNamed) (hds : ∀ d ∈ ds, d.IsNamed) (hlists : p.env.Lists owner ds) (id : MethodId) :
    (filed id { definition := d, kind := .primitive, owner } d.key p).2 = p.types := by
  have hnamed : ∀ c ∈ (p.env.group? owner d.key).elim [] Group.candidates, ∀ x ∈ c.signature.params, NamedParam x := by
    intro c hc
    cases hg : p.env.group? owner d.key with
    | none =>
      rw [hg] at hc
      cases hc
    | some g =>
      rw [hg] at hc
      obtain ⟨d', hd', -, hsignature, -⟩ := hlists.sound _ g hg c hc
      rw [hsignature]
      exact (hds d' hd').params owner
  unfold filed
  exact Overload.types_insert_named _ (hd.params owner) hnamed p.types

/-- **Declaring a method extends what is on file for its type**, and leaves what is on file for others. -/
theorem run_addMethod_lists (hd : d.IsNamed) (hds : ∀ d ∈ ds, d.IsNamed) (hlists : p.env.Lists owner ds) :
    ∃ ms gs, (addMethod owner d).run.run p =
        (.ok (), { p with env := { p.env with methods := ms, groups := gs } }) ∧
      Env.Lists { p.env with methods := ms, groups := gs } owner (ds ++ [d]) ∧
      ∀ owner', owner' ≠ owner → ∀ ds', p.env.Lists owner' ds' →
        Env.Lists { p.env with methods := ms, groups := gs } owner' ds' := by
  let m : Method := { definition := d, kind := .primitive, owner }
  obtain ⟨gs, hrun, hplaces⟩ := run_register_once (m := m) (Definition.arities_eq hd.fallback) p
  have hkey : ({ name := m.definition.name, arity := d.params.length, yields := m.definition.yields } : GroupKey) =
      d.key := rfl
  rw [hkey] at hrun hplaces
  rw [types_filed hd hds hlists] at hrun
  have hnew : (⟨p.env.methods.size, m.signature⟩ : Candidate MethodId) ∈ (filed p.env.methods.size m d.key p).1 :=
    mem_filed
  refine ⟨p.env.methods.push m, gs, ?_, ⟨fun key g hg c hc => ?_, ?_⟩, fun owner' hne ds' hlists' =>
    ⟨fun key g hg c hc => ?_, fun d' hd' => ?_⟩⟩
  · have hkind : addMethod owner d = (do let _ ← register m; return ()) := by
      rw [addMethod, hd.primitive]
    rw [hkind]
    exact Flow.run_bind_of_ok hrun fun _ => Pure.pure ()
  · rw [Env.group?_eq, hplaces.find] at hg
    split at hg
    · rename_i hsame
      cases hg
      rcases mem_of_filed hc with rfl | ⟨g, hg, hc⟩
      · exact ⟨d, by simp, hsame.2, rfl, by simp [m]⟩
      · obtain ⟨d', hd', hkey', hholds⟩ := hlists.sound _ g hg c hc
        exact ⟨d', List.mem_append_left _ hd', hkey'.trans hsame.2, hholds.push m gs⟩
    · obtain ⟨d', hd', hkey', hholds⟩ := hlists.sound key g hg c hc
      exact ⟨d', List.mem_append_left _ hd', hkey', hholds.push m gs⟩
  · intro d' hd'
    rw [Env.group?_eq, hplaces.find]
    split
    · rename_i hsame
      refine ⟨_, rfl, ?_⟩
      rcases List.mem_append.mp hd' with hd' | hd'
      · obtain ⟨g, hg, c, hc, hsame'⟩ := hlists.complete d' hd'
        have hkept : c ∈ (filed p.env.methods.size m d.key p).1 ∨
            Overload.sameRestrictions c.signature m.signature = true := by
          rw [← hsame.2] at hg
          refine (Overload.kept_insert p.types).2 c ?_
          rw [hg]
          exact hc
        rcases hkept with hkept | hreplaced
        · exact ⟨c, hkept, hsame'⟩
        · exact ⟨_, hnew, Overload.sameRestrictions_of_same hreplaced hsame'⟩
      · obtain rfl := List.mem_singleton.mp hd'
        exact ⟨_, hnew, Overload.sameRestrictions_refl _⟩
    · rename_i hother
      rcases List.mem_append.mp hd' with hd' | hd'
      · exact hlists.complete d' hd'
      · obtain rfl := List.mem_singleton.mp hd'
        exact absurd ⟨rfl, rfl⟩ hother
  · rw [Env.group?_eq, hplaces.find, if_neg fun h => hne h.1.symm] at hg
    obtain ⟨d', hd', hkey', hholds⟩ := hlists'.sound key g hg c hc
    exact ⟨d', hd', hkey', hholds.push m gs⟩
  · rw [Env.group?_eq, hplaces.find, if_neg fun h => hne h.1.symm]
    exact hlists'.complete d' hd'

end Infer

namespace Standard

variable {p : Program}

/-- Declaring several methods extends what is on file by all of them. -/
theorem run_declareAll {owner : TypeId} {ds new : List Definition} (hnew : ∀ d ∈ new, d.IsNamed)
    (hds : ∀ d ∈ ds, d.IsNamed) (hlists : p.env.Lists owner ds) :
    ∃ ms gs, (declareAll owner new).run.run p = (.ok (), { p with env := { p.env with methods := ms, groups := gs } }) ∧
      Env.Lists { p.env with methods := ms, groups := gs } owner (ds ++ new) ∧
      ∀ owner', owner' ≠ owner → ∀ ds', p.env.Lists owner' ds' →
        Env.Lists { p.env with methods := ms, groups := gs } owner' ds' := by
  induction new generalizing p ds with
  | nil => exact ⟨_, _, rfl, by rwa [List.append_nil], fun _ _ _ h => h⟩
  | cons d new ih =>
    obtain ⟨hd, hnew⟩ := List.forall_mem_cons.mp hnew
    obtain ⟨ms, gs, hrun, hlists₁, hothers₁⟩ := Infer.run_addMethod_lists hd hds hlists
    have hds₁ : ∀ d' ∈ ds ++ [d], d'.IsNamed :=
      List.forall_mem_append.mpr ⟨hds, List.forall_mem_singleton.mpr hd⟩
    obtain ⟨ms', gs', hrest, hlists₂, hothers₂⟩ :=
      ih (p := { p with env := { p.env with methods := ms, groups := gs } }) hnew hds₁ hlists₁
    refine ⟨ms', gs', ?_, by rwa [List.append_assoc] at hlists₂, fun owner' hne ds' h => ?_⟩
    · rw [declareAll, Flow.run_bind_of_ok hrun]
      exact hrest
    · exact hothers₂ owner' hne ds' (hothers₁ owner' hne ds' h)

/-- Declaring the operations of kinds with types of their own puts those of each kind on file for its type. -/
theorem run_declareOperations (n : NumericTower) {ids : List (String × TypeId)} {ks : List NumericKind}
    (hnamed : ∀ k ∈ ks, ∀ d ∈ operationsOf n k, d.IsNamed)
    (hapart : ks.Pairwise fun a b => (assoc? ids a.name).getD 0 ≠ (assoc? ids b.name).getD 0)
    (hnone : ∀ k ∈ ks, p.env.Lists ((assoc? ids k.name).getD 0) []) :
    ∃ ms gs, (declareOperations n ids ks).run.run p =
        (.ok (), { p with env := { p.env with methods := ms, groups := gs } }) ∧
      (∀ k ∈ ks, Env.Lists { p.env with methods := ms, groups := gs } ((assoc? ids k.name).getD 0) (operationsOf n k)) ∧
      ∀ owner, (∀ k ∈ ks, owner ≠ (assoc? ids k.name).getD 0) → ∀ ds, p.env.Lists owner ds →
        Env.Lists { p.env with methods := ms, groups := gs } owner ds := by
  induction ks generalizing p with
  | nil => exact ⟨_, _, rfl, by simp, fun _ _ _ h => h⟩
  | cons k ks ih =>
    obtain ⟨hk, hnamed⟩ := List.forall_mem_cons.mp hnamed
    obtain ⟨hfirst, hapart⟩ := List.pairwise_cons.mp hapart
    obtain ⟨hempty, hnone⟩ := List.forall_mem_cons.mp hnone
    obtain ⟨ms, gs, hrun, hlists, hothers⟩ := run_declareAll hk (by simp) hempty
    obtain ⟨ms', gs', hrest, hlists', hothers'⟩ :=
      ih (p := { p with env := { p.env with methods := ms, groups := gs } }) hnamed hapart
        fun k' hk' => hothers _ (Ne.symm (hfirst k' hk')) [] (hnone k' hk')
    refine ⟨ms', gs', ?_, List.forall_mem_cons.mpr ⟨?_, hlists'⟩, fun owner hne ds h => ?_⟩
    · rw [declareOperations, Flow.run_bind_of_ok hrun]
      exact hrest
    · exact hothers' _ (fun k' hk' => hfirst k' hk') _ hlists
    · obtain ⟨hne, hne'⟩ := List.forall_mem_cons.mp hne
      exact hothers' owner hne' ds (hothers owner hne ds h)

end Standard

/-! ### The operations of a tower -/

/-- A primitive method between kinds: its name, the kinds that it takes, and the type of its result. -/
structure Operation where
  name : String
  takes : List String
  result : String
  deriving DecidableEq

namespace Operation

/-- The key that an operation is filed under. -/
def key (o : Operation) : GroupKey :=
  { name := o.name, arity := o.takes.length }

/-- The method that is declared for an operation. -/
def definition (o : Operation) : Definition :=
  .primitive o.name (some (.ofName o.result)) (o.takes.map fun x => ("other", .ofName x))

theorem isNamed_definition (o : Operation) : o.definition.IsNamed := by
  refine ⟨rfl, fun x hx => ?_, fun x hx => ?_⟩
  · obtain ⟨y, -, rfl⟩ := List.mem_map.mp hx
    rfl
  · obtain ⟨y, hy, rfl⟩ := List.mem_map.mp hx
    obtain ⟨name, -, rfl⟩ := List.mem_map.mp hy
    exact ⟨name, rfl⟩

theorem key_definition (o : Operation) : o.definition.key = o.key := by
  simp [Definition.key, definition, Definition.primitive, key]

/-- The restrictions of an operation are the kinds that it takes. -/
theorem params_signature (o : Operation) (owner : TypeId) :
    (o.definition.signature owner).params = o.takes.map fun x => ("other", some (.ofName x)) := by
  simp [Definition.signature, definition, Definition.primitive]

/-- Operations with the same restrictions take the same kinds. -/
theorem takes_eq {o o' : Operation} (owner : TypeId)
    (h : Overload.sameRestrictions (o.definition.signature owner) (o'.definition.signature owner) = true) :
    o.takes = o'.takes := by
  rw [Overload.sameRestrictions, beq_iff_eq, params_signature, params_signature, List.map_map, List.map_map] at h
  simpa [Function.comp_def, Overload.restrictionText, TypeExpr.render_ofName] using h

end Operation

namespace NumericTower

/-- The operations of one kind with another one. -/
def operationsWith (n : NumericTower) (left right : String) : List Operation :=
  Standard.arithmetic.map (⟨·, [right], n.promote left right⟩) ++
    Standard.comparisons.map (⟨·, [right], "Bool"⟩) ++ [⟨"to_" ++ Text.lower right, [], right⟩]

/-- The operations of one kind with every other. -/
def operationsAt (n : NumericTower) (left : String) : List Operation :=
  n.names.flatMap (n.operationsWith left)

/-- The negation, which is declared for the signed kinds. -/
def negation : Definition :=
  .primitive "-" (some .self) []

theorem mem_operationsAt {n : NumericTower} {left : String} {o : Operation} : o ∈ n.operationsAt left ↔
    ∃ r ∈ n.names, (∃ op ∈ Standard.arithmetic, o = ⟨op, [r], n.promote left r⟩) ∨
      (∃ op ∈ Standard.comparisons, o = ⟨op, [r], "Bool"⟩) ∨ o = ⟨"to_" ++ Text.lower r, [], r⟩ := by
  simp only [operationsAt, operationsWith, List.mem_flatMap, List.mem_append, List.mem_map, List.mem_singleton,
    eq_comm, or_assoc]

/-- An operation takes kinds, and its result is a kind or a truth value. -/
theorem known_operationsAt {n : NumericTower} (hn : n.Valid) {left : String} (hl : left ∈ n.names) {o : Operation}
    (ho : o ∈ n.operationsAt left) : (∀ x ∈ o.takes, x ∈ n.names) ∧ o.result ∈ "Bool" :: n.names := by
  obtain ⟨r, hr, ⟨op, -, rfl⟩ | ⟨op, -, rfl⟩ | rfl⟩ := mem_operationsAt.mp ho
  · exact ⟨List.forall_mem_singleton.mpr hr, List.mem_cons_of_mem _ (hn.promote_mem hl hr)⟩
  · exact ⟨List.forall_mem_singleton.mpr hr, List.mem_cons_self⟩
  · exact ⟨fun x hx => absurd hx List.not_mem_nil, List.mem_cons_of_mem _ hr⟩

/-- No operation is filed with the negations: it takes another kind, or is a conversion. -/
theorem key_ne_negation {n : NumericTower} {left : String} {o : Operation} (ho : o ∈ n.operationsAt left) :
    o.key ≠ negation.key := by
  intro heq
  obtain ⟨hname, hlength, -⟩ := GroupKey.mk.inj heq
  obtain ⟨r, -, ⟨op, -, rfl⟩ | ⟨op, -, rfl⟩ | rfl⟩ := mem_operationsAt.mp ho
  · cases hlength
  · cases hlength
  · exact absurd (congrArg String.toList hname) (by simp [negation, Definition.primitive])

theorem operationsOf_eq (n : NumericTower) (k : NumericKind) : Standard.operationsOf n k =
    (n.operationsAt k.name).map Operation.definition ++ if k.signed then [negation] else [] := by
  simp only [Standard.operationsOf, operationsAt, names, List.map_flatMap, List.flatMap_map]
  rfl

theorem isNamed_operationsOf (n : NumericTower) (k : NumericKind) : ∀ d ∈ Standard.operationsOf n k, d.IsNamed := by
  intro d hd
  rw [operationsOf_eq] at hd
  rcases List.mem_append.mp hd with hd | hd
  · obtain ⟨o, -, rfl⟩ := List.mem_map.mp hd
    exact o.isNamed_definition
  · split at hd
    · obtain rfl := List.mem_singleton.mp hd
      exact ⟨rfl, fun x hx => absurd hx List.not_mem_nil, fun x hx => absurd hx List.not_mem_nil⟩
    · cases hd

end NumericTower

end TypeFlow
