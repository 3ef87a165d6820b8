import TypeFlow.Proofs.Standard.Tower
import TypeFlow.Proofs.Types.Concrete

/-!
# What a numeric tower offers

After a tower was declared, the operations of a kind are on file for its type, and the kinds and `Bool` are seen from
it under their names, unless a kind lies in the namespace of another one: a kind `A::B` hides the kind `B` from `A`.
`Program.Serves` states this for any state of a program, together with what the operations remember of the calls
that were made. Declaring a tower establishes it (`Standard.serves_defineNumeric`), and whatever leaves the table, the
overload groups and the methods alone keeps it (`Program.Serves.of_beside`).
-/

namespace TypeFlow

namespace Table

variable {t : Table} {id : TypeId} {e : PrimitiveEntry}

theorem object?_primitive (h : t.get? id = some (.primitive e)) : t.object? id = none := by
  rw [object?, h]

theorem kind?_primitive (h : t.get? id = some (.primitive e)) : t.kind? id = some .primitive := by
  rw [kind?, h]
  rfl

theorem Single.of_primitive (h : t.get? id = some (.primitive e)) : Single t id :=
  ⟨Nat.ne_of_gt (pos_of_get? h), lt_size_of_get? h, by simp [h], by simp [h]⟩

/-- A primitive inherits from its parent only. -/
theorem ancestors_primitive (h : t.get? id = some (.primitive e)) {x : TypeId} (hx : x ∈ t.ancestors id) :
    x = id ∨ x ∈ t.ancestors e.parent := by
  obtain ⟨-, hreach⟩ := mem_ancestors_iff.mp hx
  rcases hreach.cases_head with rfl | ⟨y, ⟨hy, hne⟩, hrest⟩
  · exact .inl rfl
  · rw [inheritsFrom, object?_primitive h, parent, h] at hy
    obtain rfl := List.mem_singleton.mp hy
    exact .inr (mem_ancestors_iff.mpr ⟨hne, hrest⟩)

/-- A primitive fits another one only if it is the same or inherits from it. -/
theorem ancestor_of_implements {target : TypeId} {e' : PrimitiveEntry} (h : t.get? id = some (.primitive e))
    (htarget : t.get? target = some (.primitive e')) (hfits : t.implements id target = true) :
    target ∈ t.ancestors id := by
  rw [«implements», implementsUpTo] at hfits
  split at hfits
  · rename_i heq
    exact heq ▸ self_mem_ancestors (Single.of_primitive h).ne_zero
  · split at hfits
    · cases hfits
    · rw [h, htarget] at hfits
      simpa [fits, htarget, object?_primitive h] using hfits

/-- A name is seen from a primitive unless something lies in its namespace under this name. -/
theorem resolveType?_primitive {x : String} {i : TypeId} {e' : PrimitiveEntry} (h : t.get? id = some (.primitive e))
    (hprogram : id ≠ Builtin.program) (hinner : t.lookup? (e.name ++ "::" ++ x) = none)
    (hx : t.lookup? x = some i) (hi : t.get? i = some (.primitive e')) : resolveType? t id [x] = some i := by
  have hself : t.selfType id = id := by
    rw [selfType, h]
  have hbound : t.boundParam? id x = none := by
    have hfuel : ∀ fuel, t.inheritedArgUpTo x fuel id = none := by
      intro fuel
      cases fuel with
      | zero => rfl
      | succ fuel => simp [inheritedArgUpTo, typeArg?, superclass, object?_primitive h]
    rw [boundParam?, h]
    exact hfuel _
  have hname : t.name id = e.name := by
    have hone : t.nameUpTo 1 id = some e.name := by
      rw [nameUpTo, h]
      rfl
    rw [name, name_eq_of_nameUpTo hone]
    rfl
  have hlookup : t.lookupIn? id x = some i := by
    rw [lookupIn?, if_pos (by simp [(Single.of_primitive h).ne_zero, hprogram]), qualify,
      if_neg (by simp [(Single.of_primitive h).ne_zero, hprogram]), hname, hinner, hx]
    rfl
  have hresolve : t.resolveName? id [x] = some i := by
    rw [resolveName?, hself]
    simp only [hbound, Option.none_or, String.intercalate_singleton]
    exact hlookup
  rw [resolveType?, hresolve]
  simp [kind?_primitive hi]

end Table

/-! ### The types of a tower -/

/-- The type of a name; zero if there is none. -/
def Table.named (t : Table) (name : String) : TypeId :=
  (t.lookup? name).getD 0

/-- The table of a program before anything is typed. -/
def Table.prepared : Table :=
  ((Table.metaclassOf Builtin.object).run .initial).2

/-- The method that every class starts with. -/
def Definition.allocate : Definition :=
  .primitive "allocate" (some .self) []

theorem Definition.isNamed_allocate : allocate.IsNamed :=
  ⟨rfl, fun _ hx => absurd hx List.not_mem_nil, fun _ hx => absurd hx List.not_mem_nil⟩

/-- A program without any method. -/
def Program.blank (x : Expander) : Program :=
  { types := .prepared, graph := (({} : Graph).add "nil").2.freeze 1 Builtin.nil, env := { expander := x } }

theorem Program.lists_blank (x : Expander) (owner : TypeId) : (blank x).env.Lists owner [] :=
  ⟨fun key g hg => absurd hg (by simp [blank, Env.group?]), fun d hd => absurd hd List.not_mem_nil⟩

/-- A program starts with one method. -/
theorem Program.run_addMethod_blank (x : Expander) :
    (Infer.addMethod Table.initial.size .allocate).run.run (blank x) = (.ok (), initial x) := by
  obtain ⟨ms, gs, hrun, -⟩ := Infer.run_addMethod_lists (p := blank x) Definition.isNamed_allocate
    (fun d hd => absurd hd List.not_mem_nil) (lists_blank x Table.initial.size)
  have hmeta : ((Table.metaclassOf Builtin.object).run .initial).1 = Table.initial.size := by decide +kernel
  have hnode : (Flow.newNode "nil").run.run (⟨.initial, {}, { expander := x }⟩ : Program) =
      (.ok 1, ⟨.initial, (({} : Graph).add "nil").2, { expander := x }⟩) := rfl
  have hsetUp : setUp.run.run ⟨.initial, {}, { expander := x }⟩ =
      (Infer.addMethod Table.initial.size .allocate).run.run (blank x) := by
    rw [setUp, Flow.run_bind_of_ok hnode, ← hmeta]
    rfl
  rw [initial, hsetUp, hrun]

theorem Program.initial_eq (x : Expander) : ∃ ms gs, Program.initial x =
      { types := .prepared, graph := (({} : Graph).add "nil").2.freeze 1 Builtin.nil,
        env := { expander := x, methods := ms, groups := gs } } ∧
    ∀ owner, owner ≠ Table.initial.size →
      Env.Lists { expander := x, methods := ms, groups := gs } owner [] := by
  obtain ⟨ms, gs, hrun, -, hothers⟩ := Infer.run_addMethod_lists (p := blank x) Definition.isNamed_allocate
    (fun d hd => absurd hd List.not_mem_nil) (lists_blank x Table.initial.size)
  refine ⟨ms, gs, ?_, fun owner hne => hothers owner hne [] (lists_blank x owner)⟩
  exact (congrArg Prod.snd ((run_addMethod_blank x).symm.trans hrun))

namespace Table

variable {t : Table} {ks : List NumericKind} {ids : List (String × TypeId)}

theorem size_prepared : prepared.size = Table.initial.size + 1 := by decide +kernel

/-- What the types that a program starts with inherit from is among them. -/
theorem inheritsFrom_prepared : ∀ i < prepared.size, ∀ x ∈ prepared.inheritsFrom i, x < prepared.size := by
  decide +kernel

/-- No type that a program starts with lies in a namespace. -/
theorem lookup?_prepared (l x : String) : prepared.lookup? (l ++ "::" ++ x) = none := by
  have hplain : ∀ p ∈ prepared.names, ':' ∉ p.1.toList := by decide +kernel
  rw [lookup?, List.find?_eq_none.mpr, Option.map_none]
  intro p hp heq
  refine hplain p hp ?_
  rw [beq_iff_eq] at heq
  simp [heq]

namespace DeclaresAll

variable (h : DeclaresAll prepared t ks ids) {k : NumericKind}

include h

theorem named_eq (hk : k ∈ ks) : ∃ id, assoc? ids k.name = some id ∧ t.lookup? k.name = some id ∧ t.named k.name = id ∧
    prepared.size ≤ id ∧ t.get? id = some k.entry := by
  obtain ⟨id, hid, hname, hle, hentry⟩ := h.kind k hk
  exact ⟨id, hid, hname, by rw [named, hname, Option.getD_some], hle, hentry⟩

/-- What a program starts with inherits from nothing else. -/
theorem reach_lt {i y : TypeId} (hi : i < prepared.size) (hreach : Relation.ReflTransGen t.Inherits i y) :
    y < prepared.size := by
  induction hreach with
  | refl => exact hi
  | @tail y z _ hyz ih =>
    have hsame : prepared.inheritsFrom y = t.inheritsFrom y := by
      rw [inheritsFrom, inheritsFrom, object?, object?, parent, parent, h.old y ih]
    exact inheritsFrom_prepared y ih z (hsame ▸ hyz.1)

/-- A kind inherits from nothing but what a program starts with. -/
theorem ancestors_named (hk : k ∈ ks) {x : TypeId} (hx : x ∈ t.ancestors (t.named k.name)) :
    x = t.named k.name ∨ x < prepared.size := by
  obtain ⟨id, -, -, hid, -, hentry⟩ := h.named_eq hk
  rw [hid] at hx ⊢
  refine (ancestors_primitive hentry hx).imp_right fun hx => ?_
  have hnumeric : Builtin.numeric < prepared.size := by
    rw [size_prepared]
    decide
  exact h.reach_lt hnumeric (mem_ancestors_iff.mp hx).2

end DeclaresAll

end Table

namespace NumericTower

/-- No kind hides `Bool` or a kind from a kind. -/
def Clear (n : NumericTower) (l : String) : Prop :=
  ∀ x ∈ "Bool" :: n.names, l ++ "::" ++ x ∉ n.names

end NumericTower

namespace Program

variable {p : Program} {n : NumericTower} {id : String → TypeId} {l : String}

/-- An instance that a method remembers under some types has the declared result type, as the receiver sees it. -/
def Typed (p : Program) (m : Method) (key : List TypeId) (i : InstanceId) : Prop :=
  ∃ a, p.env.instances[i]? = some a ∧ p.graph.typeOf a.result ≠ 0 ∧ ∀ out, m.definition.result = some (.ofName out) →
    Table.resolveType? p.types (key.headD 0) [out] = some (p.graph.typeOf a.result)

/-- A candidate is the method that was declared for an operation of a kind, and the instances that it remembers have
the type of the operation. -/
structure Performs (p : Program) (id : String → TypeId) (l : String) (c : Candidate MethodId) (o : Operation) : Prop where
  signature : c.signature = o.definition.signature (id l)
  method : ∃ m, p.env.methods[c.id]? = some m ∧ m.definition = o.definition ∧ m.kind = .primitive ∧
    ∀ key i, assoc? m.memo key = some i → p.Typed m key i

/-- A kind offers the operations of a tower: the kinds are types that do not fit each other and are seen from it, and
each of its operations is on file for its type. -/
structure Serves (p : Program) (n : NumericTower) (id : String → TypeId) (l : String) : Prop where
  primitive : ∀ x ∈ "Bool" :: n.names, ∃ e, p.types.get? (id x) = some (.primitive e)
  apart : ∀ x ∈ n.names, ∀ y ∈ n.names, p.types.implements (id x) (id y) = true → x = y
  sees : ∀ x ∈ "Bool" :: n.names, Table.resolveType? p.types (id l) [x] = some (id x)
  offers : ∀ o ∈ n.operationsAt l, ∃ g, p.env.group? (id l) o.key = some g ∧
    (∃ c ∈ g.candidates, c.signature = o.definition.signature (id l)) ∧
    ∀ c ∈ g.candidates, ∃ o' ∈ n.operationsAt l, o'.key = o.key ∧ p.Performs id l c o'

/-- A step that leaves the table, the overload groups and the definitions of methods alone, and types alone that are
known, and remembers instances only if they have the declared type. -/
structure Beside (p p' : Program) : Prop where
  types : p'.types = p.types
  groups : p'.env.groups = p.env.groups
  typeOf : ∀ x, p.graph.typeOf x ≠ 0 → p'.graph.typeOf x = p.graph.typeOf x
  instances : ∀ (i : InstanceId) (a : Instance), p.env.instances[i]? = some a →
    ∃ a', p'.env.instances[i]? = some a' ∧ a'.result = a.result
  methods : ∀ (i : MethodId) (m : Method), p.env.methods[i]? = some m → ∃ m', p'.env.methods[i]? = some m' ∧ m'.definition = m.definition ∧
    m'.kind = m.kind ∧ ∀ key j, assoc? m'.memo key = some j → assoc? m.memo key = some j ∨ p'.Typed m' key j

namespace Beside

variable {p p' p'' : Program}

/-- A step that touches none of them. -/
theorem of_eq (types : p'.types = p.types) (groups : p'.env.groups = p.env.groups)
    (typeOf : ∀ x, p.graph.typeOf x ≠ 0 → p'.graph.typeOf x = p.graph.typeOf x)
    (instances : p'.env.instances = p.env.instances) (methods : p'.env.methods = p.env.methods) : Beside p p' :=
  ⟨types, groups, typeOf, fun _ a h => ⟨a, instances ▸ h, rfl⟩,
    fun _ m h => ⟨m, methods ▸ h, rfl, rfl, fun _ _ h => .inl h⟩⟩

/-- What is remembered stays well typed. -/
theorem typed (h : Beside p p') {m m' : Method} (hm : m'.definition = m.definition) {key : List TypeId} {i : InstanceId}
    (ht : p.Typed m key i) : p'.Typed m' key i := by
  obtain ⟨a, ha, hne, hout⟩ := ht
  obtain ⟨a', ha', hresult⟩ := h.instances i a ha
  refine ⟨a', ha', ?_, fun out hres => ?_⟩
  · rwa [hresult, h.typeOf _ hne]
  · rw [h.types, hresult, h.typeOf _ hne]
    exact hout out (hm ▸ hres)

theorem trans (h : Beside p p') (h' : Beside p' p'') : Beside p p'' := by
  refine ⟨h'.types.trans h.types, h'.groups.trans h.groups, fun x hx => ?_, fun i a ha => ?_, fun i m hm => ?_⟩
  · rw [h'.typeOf x (by rwa [h.typeOf x hx]), h.typeOf x hx]
  · obtain ⟨a', ha', hresult⟩ := h.instances i a ha
    obtain ⟨a'', ha'', hresult'⟩ := h'.instances i a' ha'
    exact ⟨a'', ha'', hresult'.trans hresult⟩
  · obtain ⟨m', hm', hdef, hkind, hmemo⟩ := h.methods i m hm
    obtain ⟨m'', hm'', hdef', hkind', hmemo'⟩ := h'.methods i m' hm'
    refine ⟨m'', hm'', hdef'.trans hdef, hkind'.trans hkind, fun key j hj => ?_⟩
    rcases hmemo' key j hj with hj | ht
    · exact (hmemo key j hj).imp_right (h'.typed hdef')
    · exact .inr ht

end Beside

theorem Performs.of_beside {p' : Program} {c : Candidate MethodId} {o : Operation} (h : p.Performs id l c o)
    (hp : Beside p p') : p'.Performs id l c o := by
  obtain ⟨hsignature, m, hm, hdef, hkind, hmemo⟩ := h
  obtain ⟨m', hm', hdef', hkind', hmemo'⟩ := hp.methods c.id m hm
  refine ⟨hsignature, m', hm', hdef'.trans hdef, hkind'.trans hkind, fun key j hj => ?_⟩
  rcases hmemo' key j hj with hj | ht
  · exact hp.typed hdef' (hmemo key j hj)
  · exact ht

/-- What a kind offers, it keeps offering. -/
theorem Serves.of_beside {p' : Program} (h : p.Serves n id l) (hp : Beside p p') : p'.Serves n id l := by
  refine ⟨?_, ?_, ?_, fun o ho => ?_⟩
  · rw [hp.types]
    exact h.primitive
  · rw [hp.types]
    exact h.apart
  · rw [hp.types]
    exact h.sees
  · obtain ⟨g, hg, haccepts, hperforms⟩ := h.offers o ho
    refine ⟨g, ?_, haccepts, fun c hc => ?_⟩
    · rw [Env.group?, hp.groups]
      exact hg
    · obtain ⟨o', ho', hkey, hc⟩ := hperforms c hc
      exact ⟨o', ho', hkey, hc.of_beside hp⟩

/-- A step that opens no site and leaves the nodes that are there alone. -/
structure Spares (p p' : Program) : Prop where
  sites : p'.env.sites = p.env.sites
  nodes : ∀ (x : NodeId) (a : Graph.Node), p.graph.get? x = some a → p'.graph.get? x = some a

end Program

/-- What is on file for the type of a kind when its operations were declared. -/
theorem Env.Lists.offers {p : Program} {n : NumericTower} {id : String → TypeId} {k : NumericKind}
    (h : p.env.Lists (id k.name) (Standard.operationsOf n k)) {o : Operation} (ho : o ∈ n.operationsAt k.name) :
    ∃ g, p.env.group? (id k.name) o.key = some g ∧
      (∃ c ∈ g.candidates, c.signature = o.definition.signature (id k.name)) ∧
      ∀ c ∈ g.candidates, ∃ o' ∈ n.operationsAt k.name, o'.key = o.key ∧ p.Performs id k.name c o' := by
  have hmem : o.definition ∈ Standard.operationsOf n k := by
    rw [NumericTower.operationsOf_eq]
    exact List.mem_append_left _ (List.mem_map_of_mem ho)
  obtain ⟨g, hg, c, hc, hsame⟩ := h.complete _ hmem
  rw [Operation.key_definition] at hg
  have hperforms : ∀ c ∈ g.candidates, ∃ o' ∈ n.operationsAt k.name, o'.key = o.key ∧ p.Performs id k.name c o' := by
    intro c hc
    obtain ⟨d, hd, hkey, hsignature, hmethod⟩ := h.sound _ g hg c hc
    rw [NumericTower.operationsOf_eq] at hd
    rcases List.mem_append.mp hd with hd | hd
    · obtain ⟨o', ho', rfl⟩ := List.mem_map.mp hd
      refine ⟨o', ho', by rw [← hkey, Operation.key_definition], hsignature, _, hmethod, rfl, rfl, fun key i hi => ?_⟩
      cases hi
    · split at hd
      · obtain rfl := List.mem_singleton.mp hd
        exact absurd hkey.symm (NumericTower.key_ne_negation ho)
      · cases hd
  refine ⟨g, hg, ⟨c, hc, ?_⟩, hperforms⟩
  obtain ⟨o', -, -, hsignature, -⟩ := hperforms c hc
  rw [hsignature] at hsame ⊢
  rw [Definition.signature, Definition.signature, Signature.mk.injEq]
  refine ⟨rfl, ?_⟩
  have hparams := o'.params_signature (id k.name)
  rw [Operation.takes_eq _ hsame, ← o.params_signature (id k.name)] at hparams
  exact hparams

/-- **A tower that was declared is offered by each of its kinds** that sees the others under their names. -/
theorem Standard.serves_defineNumeric {n : NumericTower} {x : Expander} {p : Program} (hn : n.Valid)
    (hrun : (defineNumeric n).run.run (Program.initial x) = (.ok (), p)) {k : NumericKind} (hk : k ∈ n.kinds)
    (hclear : n.Clear k.name) : p.Serves n p.types.named k.name := by
  obtain ⟨ms₀, gs₀, hinitial, hlists₀⟩ := Program.initial_eq x
  obtain ⟨ids, p₁, hkinds, hrun⟩ := Flow.exists_of_run_bind hrun
  obtain ⟨hbeside, hdeclares⟩ := run_declareKinds hkinds
  rw [hinitial] at hbeside hdeclares
  simp only at hbeside hdeclares
  generalize p₁.types = T at hbeside hdeclares
  subst hbeside
  -- the literals get their types, and then the operations are declared
  split at hrun
  · cases hrun
  rename_i int hint
  split at hrun
  · cases hrun
  rename_i float hfloat
  obtain ⟨_, p₂, hliterals, hrun⟩ := Flow.exists_of_run_bind hrun
  cases hliterals
  have hids : ∀ k ∈ n.kinds, (assoc? ids k.name).getD 0 = T.named k.name := by
    intro k hk
    obtain ⟨id, hassoc, -, hid, -⟩ := hdeclares.named_eq hk
    rw [hassoc, hid, Option.getD_some]
  have hinjective : ∀ a ∈ n.kinds, ∀ b ∈ n.kinds, T.named a.name = T.named b.name → a.name = b.name := by
    intro a ha b hb heq
    obtain ⟨i, -, -, hi, -, hentry⟩ := hdeclares.named_eq ha
    obtain ⟨j, -, -, hj, -, hentry'⟩ := hdeclares.named_eq hb
    obtain rfl : i = j := by rw [← hi, ← hj, heq]
    exact (PrimitiveEntry.mk.inj (Entry.primitive.inj (Option.some.inj (hentry.symm.trans hentry')))).1
  have hapart : n.kinds.Pairwise fun a b => (assoc? ids a.name).getD 0 ≠ (assoc? ids b.name).getD 0 := by
    have hnodup : n.kinds.Pairwise fun a b => a.name ≠ b.name := List.pairwise_map.mp hn.nodup
    refine hnodup.imp_of_mem fun {a b} ha hb hne heq => hne ?_
    rw [hids a ha, hids b hb] at heq
    exact hinjective a ha b hb heq
  have hnone : ∀ k ∈ n.kinds,
      Env.Lists { expander := x, methods := ms₀, groups := gs₀ } ((assoc? ids k.name).getD 0) [] := by
    intro k hk
    obtain ⟨i, -, -, hi, hle, -⟩ := hdeclares.named_eq hk
    rw [hids k hk, hi]
    refine hlists₀ i ?_
    rw [Table.size_prepared] at hle
    exact Nat.ne_of_gt hle
  let e : Env :=
    { expander := x, methods := ms₀, groups := gs₀, intLiteral := int, floatLiteral := float }
  have hempty : ∀ k ∈ n.kinds, e.Lists ((assoc? ids k.name).getD 0) [] :=
    fun k hk => ⟨(hnone k hk).sound, (hnone k hk).complete⟩
  obtain ⟨ms, gs, hdeclared, hlists, -⟩ := run_declareOperations (p := ⟨T, _, e⟩) n
    (fun k _ => NumericTower.isNamed_operationsOf n k) hapart hempty
  cases hrun.symm.trans hdeclared
  have hlist := hlists k hk
  rw [hids k hk] at hlist
  -- `Bool` is no kind, and stays what it is
  have hbool : T.lookup? "Bool" = some Builtin.bool ∧ T.get? Builtin.bool = some (.primitive ⟨"Bool", 1, Builtin.value, none⟩) := by
    have hnew : "Bool" ∉ n.kinds.map (·.name) := by
      intro hmem
      obtain ⟨k, hk, hname⟩ := List.mem_map.mp hmem
      have hfree := hdeclares.new k hk
      rw [hname] at hfree
      exact absurd hfree (by decide +kernel)
    rw [hdeclares.other _ hnew, hdeclares.old _ (by decide +kernel)]
    decide +kernel
  have hknown : ∀ y ∈ "Bool" :: n.names, T.lookup? y = some (T.named y) ∧ ∃ e, T.get? (T.named y) = some (.primitive e) := by
    refine List.forall_mem_cons.mpr ⟨?_, fun y hy => ?_⟩
    · rw [Table.named, hbool.1]
      exact ⟨rfl, _, hbool.2⟩
    · obtain ⟨a, ha, rfl⟩ := List.mem_map.mp hy
      obtain ⟨i, -, hlookup, hi, -, hentry⟩ := hdeclares.named_eq ha
      rw [hi]
      exact ⟨hlookup, _, hentry⟩
  refine ⟨fun y hy => (hknown y hy).2, fun y hy z hz hfits => ?_, fun y hy => ?_, fun o ho => hlist.offers ho⟩
  · obtain ⟨a, ha, rfl⟩ := List.mem_map.mp hy
    obtain ⟨b, hb, rfl⟩ := List.mem_map.mp hz
    obtain ⟨i, -, -, hi, -, hentry⟩ := hdeclares.named_eq ha
    obtain ⟨j, -, -, hj, hle, hentry'⟩ := hdeclares.named_eq hb
    rw [hi, hj] at hfits
    have hmem := Table.ancestor_of_implements hentry hentry' hfits
    rw [← hi, ← hj] at hmem
    rcases hdeclares.ancestors_named ha hmem with heq | hlt
    · exact (hinjective b hb a ha heq).symm
    · exact absurd (hj ▸ hlt) (Nat.not_lt.mpr hle)
  · obtain ⟨i, -, -, hi, hle, hentry⟩ := hdeclares.named_eq hk
    obtain ⟨hlookup, e, he⟩ := hknown y hy
    rw [hi]
    refine Table.resolveType?_primitive hentry ?_ ?_ hlookup he
    · rintro rfl
      exact absurd hle (by decide +kernel)
    · have hinner := hclear y hy
      rw [NumericTower.names] at hinner
      exact (hdeclares.other _ hinner).trans (Table.lookup?_prepared _ _)

end TypeFlow
