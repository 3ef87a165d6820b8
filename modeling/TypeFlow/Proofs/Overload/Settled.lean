import TypeFlow.Proofs.Types.Naming
import TypeFlow.Proofs.Types.Repeating
import TypeFlow.Types.Lookup

/-!
# Settled resolvers

Overload resolution asks a resolver what names stand for, while it adds types to the table. It relies on
answers that are types of the table and do not change meanwhile; a resolver with such answers is
`Settled`. Resolution of names inside a type (`Table.resolveType?`) is settled on every table whose names
stand for types of the table (`WellFormed.settled_resolveType?`): it goes through the name of the owner,
its superclasses and their type arguments, all of which a table that only grows leaves alone.
-/

namespace TypeFlow

/-- The answers about types of the table are types of the table, and stay the same. -/
structure Resolver.Settled (r : Resolver) (t : Table) : Prop where
  known : ∀ {owner id : TypeId} {names : List String}, owner < t.size →
    r t owner names = some id → id < t.size
  same : ∀ {t₁ : Table} {owner : TypeId} {names : List String}, owner < t.size →
    Table.Later t t₁ → r t₁ owner names = r t owner names

namespace Table

variable {t t' : Table}

theorem Grown.selfType_eq (hg : Grown t t') {id : TypeId} (hid : id < t.size) :
    t'.selfType id = t.selfType id := by
  rw [selfType, selfType, hg.get?_eq hid]

theorem WellFormed.selfType_lt (h : WellFormed t) {id : TypeId} (hid : id < t.size) :
    t.selfType id < t.size := by
  unfold selfType
  split
  · rename_i of hof
    exact Nat.lt_trans (h.links_lt hof of (by simp [Entry.links])) hid
  · exact hid

/-! ### Names of types -/

theorem Grown.lookupIn?_eq (hg : Grown t t') (h : WellFormed t) {owner : TypeId}
    (howner : owner < t.size) (name : String) : t'.lookupIn? owner name = t.lookupIn? owner name := by
  simp only [lookupIn?, qualify, hg.name_eq h howner, hg.lookup?_eq]

/-! ### Type arguments -/

theorem Grown.typeArg?_eq (hg : Grown t t') (h : WellFormed t) {id : TypeId} (hid : id < t.size)
    (param : String) : t'.typeArg? id param = t.typeArg? id param := by
  rw [typeArg?, typeArg?, hg.object?_eq hid]
  cases ho : t.object? id with
  | none => rfl
  | some o =>
    have hlt : o.generic < id :=
      h.links_lt (object?_eq_some_iff.mp ho) o.generic (by simp [Entry.links])
    simp only [hg.object?_eq (Nat.lt_trans hlt hid)]

theorem WellFormed.typeArg?_lt (h : WellFormed t) {id arg : TypeId} {param : String}
    (harg : t.typeArg? id param = some arg) : arg < t.size := by
  unfold typeArg? at harg
  split at harg
  · rename_i o ho
    have hget := object?_eq_some_iff.mp ho
    split at harg
    · obtain ⟨⟨p, a⟩, hfind, rfl⟩ := Option.map_eq_some_iff.mp harg
      have hmem : a ∈ o.madeFor := h.args hget ▸ (List.of_mem_zip (List.mem_of_find?_eq_some hfind)).2
      exact Nat.lt_trans (h.links_lt hget a (by simp [Entry.links, hmem])) (lt_size_of_get? hget)
    · exact absurd harg (by simp)
  · exact absurd harg (by simp)

/-- Inherited arguments are found in as many steps as the number of the class allows. -/
theorem WellFormed.inheritedArgUpTo_eq (h : WellFormed t) (hg : Grown t t') {fuel fuel' : Nat}
    {id : TypeId} (hid : id < t.size) (hf : id < fuel) (hf' : id < fuel') (param : String) :
    t'.inheritedArgUpTo param fuel' id = t.inheritedArgUpTo param fuel id := by
  induction fuel generalizing fuel' id with
  | zero => exact absurd hf (Nat.not_lt_zero _)
  | succ fuel ih =>
    cases fuel' with
    | zero => exact absurd hf' (Nat.not_lt_zero _)
    | succ fuel' =>
      rw [inheritedArgUpTo, inheritedArgUpTo, hg.typeArg?_eq h hid, hg.toExtends.superclass_eq hid]
      split
      · rfl
      · split
        · rfl
        · rename_i hs
          have hlt := h.superclass_lt hs
          exact ih (Nat.lt_trans hlt hid) (by lia) (by lia)

theorem WellFormed.inheritedArgUpTo_lt (h : WellFormed t) {fuel : Nat} {id arg : TypeId}
    {param : String} (harg : t.inheritedArgUpTo param fuel id = some arg) : arg < t.size := by
  induction fuel generalizing id with
  | zero => exact absurd harg (by simp [inheritedArgUpTo])
  | succ fuel ih =>
    rw [inheritedArgUpTo] at harg
    split at harg
    · rename_i a ha
      exact Option.some.inj harg ▸ h.typeArg?_lt ha
    · split at harg
      · exact absurd harg (by simp)
      · exact ih harg

theorem Grown.boundParam?_eq (hg : Grown t t') (h : WellFormed t) {owner : TypeId}
    (howner : owner < t.size) (param : String) :
    t'.boundParam? owner param = t.boundParam? owner param := by
  have hpointer : t'.object? Builtin.pointer = t.object? Builtin.pointer :=
    hg.object?_eq (h.builtin_lt (by decide))
  rw [boundParam?, boundParam?, hg.get?_eq howner, hpointer]
  split
  · rfl
  · exact h.inheritedArgUpTo_eq hg howner howner (hg.lt_size howner) param

theorem WellFormed.boundParam?_lt (h : WellFormed t) {owner arg : TypeId} {param : String}
    (howner : owner < t.size) (harg : t.boundParam? owner param = some arg) : arg < t.size := by
  unfold boundParam? at harg
  split at harg
  · rename_i pointee hp
    have hlt : pointee < owner := h.links_lt hp pointee (by simp [Entry.links])
    split at harg
    · split at harg
      · exact Option.some.inj harg ▸ Nat.lt_trans hlt howner
      · exact absurd harg (by simp)
    · exact absurd harg (by simp)
  · exact h.inheritedArgUpTo_lt harg

/-! ### Resolution of names -/

theorem lookup?_lt (hn : ∀ p ∈ t.names, p.2 < t.size) {name : String} {id : TypeId}
    (hid : t.lookup? name = some id) : id < t.size := by
  obtain ⟨p, hp, rfl⟩ := Option.map_eq_some_iff.mp hid
  exact hn p (List.mem_of_find?_eq_some hp)

theorem Grown.resolveName?_eq (hg : Grown t t') (h : WellFormed t) {owner : TypeId}
    (howner : owner < t.size) (names : List String) :
    t'.resolveName? owner names = t.resolveName? owner names := by
  have hself := h.selfType_lt howner
  simp only [resolveName?, hg.selfType_eq howner, hg.lookupIn?_eq h hself]
  split
  · rw [hg.boundParam?_eq h hself]
  · rfl

theorem WellFormed.resolveName?_lt (h : WellFormed t) (hn : ∀ p ∈ t.names, p.2 < t.size)
    {owner id : TypeId} {names : List String} (howner : owner < t.size)
    (hid : t.resolveName? owner names = some id) : id < t.size := by
  have hself := h.selfType_lt howner
  have hglobal : ∀ {name : String}, t.lookupIn? (t.selfType owner) name = some id → id < t.size := by
    intro name hname
    unfold lookupIn? at hname
    split at hname
    · rcases Option.or_eq_some_iff.mp hname with hname | ⟨-, hname⟩
      · exact lookup?_lt hn hname
      · exact lookup?_lt hn hname
    · exact lookup?_lt hn hname
  rcases Option.or_eq_some_iff.mp hid with hbound | ⟨-, hname⟩
  · split at hbound
    · exact h.boundParam?_lt hself hbound
    · exact absurd hbound (by simp)
  · exact hglobal hname

/-- **Resolution of names inside a type is settled** if all names stand for types of the table. -/
theorem WellFormed.settled_resolveType? (h : WellFormed t) (hn : ∀ p ∈ t.names, p.2 < t.size) :
    Resolver.Settled resolveType? t := by
  refine ⟨fun {owner id names} howner hid => ?_, fun {t₁ owner names} howner h₁ => ?_⟩
  · unfold resolveType? at hid
    split at hid
    · rename_i x hx
      split at hid
      · exact absurd hid (by simp)
      · exact absurd hid (by simp)
      · exact Option.some.inj hid ▸ h.resolveName?_lt hn howner hx
    · exact absurd hid (by simp)
  · rw [resolveType?, resolveType?, h₁.grown.resolveName?_eq h howner]
    cases hx : t.resolveName? owner names with
    | none => rfl
    | some x =>
      have hlt := h.resolveName?_lt hn howner hx
      simp only [kind?, h₁.grown.get?_eq hlt]

end Table

end TypeFlow
