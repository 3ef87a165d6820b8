import TypeFlow.Proofs.Overload.Matching
import TypeFlow.Proofs.TypeExpr.NormalForm
import TypeFlow.Proofs.Types.Preorder

/-!
# Comparing restrictions

Whether one candidate is at least as specific as another is found out on the table at hand, and adds the
types to it that their restrictions stand for. This can be repeated: once a restriction was resolved, it
stands for the same type on every later table (`Resolved`), and there a comparison is a relation between
restrictions, `Narrower`.

On one table the relation is transitive (`Narrower.trans`): two restrictions that stand for types are
compared by these, which is transitive since acceptance is, and others are narrower than the same
restriction only. For the restrictions of signatures of different lengths it is transitive only if the
one in the middle is not the shortest of all, as parameters without counterpart do not count
(`AllNarrower.trans`).
-/

namespace TypeFlow

namespace Table

variable {t t' : Table} {α β : Type}

/-- The instance of a generic class, or none for good. -/
theorem repeats_instantiate (h : WellFormed t) {template : TypeId} {args : List TypeId}
    (htemplate : template < t.size) (hargs : ∀ a ∈ args, a < t.size) :
    Repeats t (instantiate template args) fun t₁ r => ∀ id, r = .ok id → id < t₁.size := by
  have hno : ∀ (message : String) (t₁ : Table) (id : TypeId), Except.error message = .ok id →
      id < t₁.size := by
    rintro _ _ _ ⟨⟩
  cases ho : (t.object? template).filter ObjectEntry.isTemplate with
  | none =>
    refine .of_run_eq (y := pure (.error (t.name template ++ " is not a generic type")))
      (.pure fun t₁ _ => hno _ t₁) fun t₁ h₁ => ?_
    rw [instantiate, run_get_bind, h₁.grown.object?_eq htemplate, ho, h₁.grown.name_eq h htemplate]
  | some o =>
    by_cases hlength : args.length = o.typeParams.length
    · refine (repeats_instance ho hlength hargs).imp fun t₁ r _ hr => ?_
      rintro id rfl
      obtain ⟨a, ha, hlt⟩ := hr
      exact Except.ok.inj ha ▸ hlt
    · refine .of_run_eq (y := pure (.error ("wrong number of type vars for " ++ o.name ++ " (" ++
        toString args.length ++ " for " ++ toString o.typeParams.length ++ ")")))
        (.pure fun t₁ _ => hno _ t₁) fun t₁ h₁ => ?_
      rw [instantiate, run_get_bind, h₁.grown.object?_eq htemplate, ho]
      simp only
      rw [if_pos hlength]

/-! ### No primitives are added -/

/-- The primitives of the table are those that were there before. -/
def AddsNoPrimitive (x : TableM α) : Prop :=
  ∀ t id p, (x.run t).2.get? id = some (.primitive p) → t.get? id = some (.primitive p)

namespace AddsNoPrimitive

theorem pure (a : α) : AddsNoPrimitive (pure a : TableM α) :=
  fun _ _ _ h => h

theorem get_bind {f : Table → TableM β} (hf : ∀ t, AddsNoPrimitive (f t)) : AddsNoPrimitive (get >>= f) :=
  fun t id p h => hf t t id p h

theorem bind {x : TableM α} {f : α → TableM β} (hx : AddsNoPrimitive x)
    (hf : ∀ a, AddsNoPrimitive (f a)) : AddsNoPrimitive (x >>= f) :=
  fun t id p h => hx t id p (hf _ _ id p h)

theorem push {e : Entry} (he : ∀ p, e ≠ .primitive p) : AddsNoPrimitive (push e) := by
  intro t id p h
  rcases get?_of_push_cases (t := t) rfl h with ⟨-, heq⟩ | h
  · exact absurd heq.symm (he p)
  · exact h

theorem intern {e : Entry} (he : ∀ p, e ≠ .primitive p) : AddsNoPrimitive (intern e) := by
  refine get_bind fun t => ?_
  split
  · exact pure _
  · exact push he

theorem unionOf (ids : List TypeId) : AddsNoPrimitive (unionOf ids) := by
  refine get_bind fun t => ?_
  unfold internUnion
  split
  · exact pure _
  · exact pure _
  · exact intern (by simp)

theorem instantiate (template : TypeId) (args : List TypeId) :
    AddsNoPrimitive (instantiate template args) := by
  refine get_bind fun t => ?_
  split
  · exact pure _
  · split
    · exact pure _
    · split
      · exact (intern (by simp)).bind fun _ => pure _
      · split
        · exact pure _
        · exact (push (by simp)).bind fun _ => pure _

end AddsNoPrimitive

/-- What is inherited from stays plain, as long as no primitives are added. -/
theorem PlainParents.run (hp : t.PlainParents) {x : TableM α} (hx : AddsNoPrimitive x)
    (hg : Grown t (x.run t).2) : (x.run t).2.PlainParents := by
  intro id p hprim
  obtain hzero | ⟨e, he, hplain⟩ := hp id p (hx t id p hprim)
  · exact .inl hzero
  · exact .inr ⟨e, hg.get he, hplain⟩

end Table

namespace Overload

open Table

variable {r : Resolver} {t T : Table} {owner : TypeId}

/-! ### What restrictions stand for -/

mutual

/-- What a restriction stands for is found again. -/
theorem repeats_resolve (hr : r.Settled t) (howner : owner < t.size) (e : TypeExpr) {t₁ : Table}
    (h₁ : Later t t₁) : Repeats t₁ (resolve r owner e) fun t₂ x => ∀ id ∈ x, id < t₂.size :=
  match e with
  | .self => by
    have hself := h₁.lt_size howner
    rw [resolve]
    refine .get_bind (.pure fun t₂ h₂ id hid => ?_) fun t₂ h₂ => ?_
    · obtain rfl := Option.some.inj hid
      exact h₂.lt_size (h₁.wellFormed.selfType_lt hself)
    · rw [h₂.grown.selfType_eq hself]
  | .union alternatives => by
    rw [resolve]
    refine (repeats_resolveAll hr howner alternatives h₁).bind fun t₂ x h₂ hx => ?_
    cases x with
    | none => exact .pure fun _ _ _ hid => nomatch hid
    | some members =>
      refine (repeats_unionOf h₂.wellFormed (hx members rfl)).bind fun t₃ m _ hm => ?_
      refine .pure fun t₄ h₄ id hid => ?_
      obtain rfl := Option.some.inj hid
      exact h₄.lt_size hm
  | .named names args => by
    rw [resolve]
    refine .get_bind ?_ fun t₂ h₂ => by rw [hr.same howner (h₁.trans h₂), hr.same howner h₁]
    cases htemplate : r t₁ owner names with
    | none => exact .pure fun _ _ _ hid => nomatch hid
    | some template =>
      rw [hr.same howner h₁] at htemplate
      have hknown := h₁.lt_size (hr.known howner htemplate)
      have hself : ∀ {t₂}, Later t₁ t₂ → ∀ id ∈ some template, id < t₂.size := by
        rintro t₂ h₂ id ⟨⟩
        exact h₂.lt_size hknown
      simp only
      split
      · exact .pure fun _ h₂ => hself h₂
      · refine (repeats_resolveAll hr howner args h₁).bind fun t₂ x h₂ hx => ?_
        cases x with
        | none => exact .pure fun _ h₃ => hself (h₂.trans h₃)
        | some given =>
          refine (repeats_instantiate h₂.wellFormed (h₂.lt_size hknown) (hx given rfl)).bind
            fun t₃ made _ hmade => ?_
          cases made with
          | error e => exact .pure fun _ _ _ hid => nomatch hid
          | ok m =>
            refine .pure fun t₄ h₄ id hid => ?_
            obtain rfl := Option.some.inj hid
            exact h₄.lt_size (hmade _ rfl)

theorem repeats_resolveAll (hr : r.Settled t) (howner : owner < t.size) (es : List TypeExpr)
    {t₁ : Table} (h₁ : Later t t₁) :
    Repeats t₁ (resolveAll r owner es) fun t₂ x => ∀ ids ∈ x, ∀ id ∈ ids, id < t₂.size :=
  match es with
  | [] => by
    rw [resolveAll]
    refine .pure fun _ _ ids hids => ?_
    obtain rfl := Option.some.inj hids
    nofun
  | e :: rest => by
    rw [resolveAll]
    refine (repeats_resolve hr howner e h₁).bind fun t₂ x h₂ hx => ?_
    cases x with
    | none => exact .pure fun _ _ _ hids => nomatch hids
    | some id =>
      refine (repeats_resolveAll hr howner rest (h₁.trans h₂)).bind fun t₃ x h₃ hxs => ?_
      cases x with
      | none => exact .pure fun _ _ _ hids => nomatch hids
      | some ids =>
        refine .pure fun t₄ h₄ all hall => ?_
        obtain rfl := Option.some.inj hall
        refine List.forall_mem_cons.mpr ⟨(h₃.trans h₄).lt_size (hx id rfl), fun a ha => ?_⟩
        exact h₄.lt_size (hxs ids rfl a ha)

end

mutual

theorem addsNoPrimitive_resolve (e : TypeExpr) : AddsNoPrimitive (resolve r owner e) :=
  match e with
  | .self => by
    rw [resolve]
    exact .get_bind fun _ => .pure _
  | .union alternatives => by
    rw [resolve]
    refine (addsNoPrimitive_resolveAll alternatives).bind fun x => ?_
    cases x with
    | none => exact .pure _
    | some members => exact (AddsNoPrimitive.unionOf members).bind fun _ => .pure _
  | .named names args => by
    rw [resolve]
    refine .get_bind fun t => ?_
    split
    · exact .pure _
    · split
      · exact .pure _
      · refine (addsNoPrimitive_resolveAll args).bind fun x => ?_
        cases x with
        | none => exact .pure _
        | some given =>
          refine (AddsNoPrimitive.instantiate _ given).bind fun made => ?_
          cases made <;> exact .pure _

theorem addsNoPrimitive_resolveAll (es : List TypeExpr) : AddsNoPrimitive (resolveAll r owner es) :=
  match es with
  | [] => by
    rw [resolveAll]
    exact .pure _
  | e :: rest => by
    rw [resolveAll]
    refine (addsNoPrimitive_resolve e).bind fun x => ?_
    cases x with
    | none => exact .pure _
    | some id =>
      refine (addsNoPrimitive_resolveAll rest).bind fun x => ?_
      cases x <;> exact .pure _

end

/-- The type that a restriction stands for, found out on a table. -/
def standsFor (r : Resolver) (owner : TypeId) (t : Table) (e : TypeExpr) : Option TypeId :=
  ((resolve r owner e).run t).1

/-- A restriction was resolved: the type that it stands for is known, and it stands for no other one on
later tables. -/
structure Resolved (r : Resolver) (owner : TypeId) (T : Table) (e : TypeExpr) : Prop where
  known : ∀ id ∈ standsFor r owner T e, id < T.size
  again : ∀ T', Later T T' → standsFor r owner T' e = standsFor r owner T e

theorem Resolved.later {T' : Table} {e : TypeExpr} (h : Resolved r owner T e) (hT : Later T T') :
    Resolved r owner T' e := by
  have hsame := h.again T' hT
  refine ⟨fun id hid => hT.lt_size (h.known id (hsame ▸ hid)), fun T'' hT' => ?_⟩
  rw [h.again T'' (hT.trans hT'), hsame]

/-- Any restrictions can be resolved, which adds no primitives. -/
theorem exists_resolved (hr : r.Settled t) (howner : owner < t.size) (es : List TypeExpr)
    {t₁ : Table} (h₁ : Later t t₁) (hp : t₁.PlainParents) :
    ∃ T, Later t₁ T ∧ T.PlainParents ∧ ∀ e ∈ es, Resolved r owner T e := by
  induction es generalizing t₁ with
  | nil => exact ⟨t₁, .refl h₁.wellFormed h₁.linked, hp, nofun⟩
  | cons e es ih =>
    have hrepeats := repeats_resolve hr howner e h₁
    have hadds := hrepeats.adds t₁ (.refl h₁.wellFormed h₁.linked)
    have h₂ := Later.of_adds h₁.linked hadds
    obtain ⟨T, hT, hplain, hall⟩ := ih (h₁.trans h₂) (hp.run (addsNoPrimitive_resolve e) hadds.2.1)
    refine ⟨T, h₂.trans hT, hplain, List.forall_mem_cons.mpr ⟨Resolved.later ?_ hT, hall⟩⟩
    have hsame := fun T' hT' => hrepeats.again t₁ T' (.refl h₁.wellFormed h₁.linked) hT'
    have hself := hsame _ (.refl h₂.wellFormed h₂.linked)
    refine ⟨fun id hid => hadds.2.2 id ?_, fun T' hT' => ?_⟩
    · rw [standsFor, hself] at hid
      exact hid
    · rw [standsFor, standsFor, hsame T' hT', hself]

/-! ### Comparing restrictions -/

section

variable (r : Resolver) (owner : TypeId) (T : Table)

/-- Whether a restriction is at least as specific as another one, by what they stand for on a table. -/
def narrower : Option TypeExpr → Option TypeExpr → Bool
  | _, none => true
  | none, some _ => false
  | some a, some b =>
    match standsFor r owner T a, standsFor r owner T b with
    | some x, some y => T.implements x y
    | _, _ => a.render == b.render

/-- Whether all restrictions are at least as specific as those across from them. -/
def allNarrower (as bs : List (Option TypeExpr)) : Bool :=
  (as.zip bs).all fun p => narrower r owner T p.1 p.2

/-- Whether restrictions are more specific than others, and not the other way round. -/
def finer (as bs : List (Option TypeExpr)) : Bool :=
  allNarrower r owner T as bs && !allNarrower r owner T bs as

/-- Whether a signature is more specific than another one, and not the other way round. -/
def isFiner (a b : Signature) : TableM Bool := do
  if ← isRestrictionOf r a b then return !(← isRestrictionOf r b a)
  else return false

end

/-- The restrictions of several parameters were resolved. -/
def AllResolved (r : Resolver) (owner : TypeId) (T : Table) (as : List (Option TypeExpr)) : Prop :=
  ∀ a ∈ as, ∀ e ∈ a, Resolved r owner T e

theorem repeats_isRestriction (hr : r.Settled t) (howner : owner < t.size) (a b : Option TypeExpr)
    {t₁ : Table} (h₁ : Later t t₁) :
    Repeats t₁ (isRestriction r owner owner a b) fun _ _ => True := by
  match a, b with
  | _, none =>
    rw [isRestriction]
    exact .pure fun _ _ => trivial
  | none, some b =>
    rw [isRestriction]
    exact .pure fun _ _ => trivial
  | some a, some b =>
    rw [isRestriction]
    refine (repeats_resolve hr howner a h₁).bind fun t₂ x h₂ hx => ?_
    refine (repeats_resolve hr howner b (h₁.trans h₂)).bind fun t₃ y h₃ hy => ?_
    match x, y with
    | some x, some y =>
      have hxlt := h₃.lt_size (hx x rfl)
      refine .get_bind (.pure fun _ _ => trivial) fun t₄ h₄ => ?_
      rw [h₄.grown.implements_eq h₃.wellFormed h₄.wellFormed h₃.linked hxlt (hy y rfl)]
    | none, _ => exact .pure fun _ _ => trivial
    | some x, none => exact .pure fun _ _ => trivial

/-- On a table on which two restrictions were resolved, they are compared by what they stand for. -/
theorem run_isRestriction (hr : r.Settled t) (howner : owner < t.size) (hT : Later t T)
    {a b : Option TypeExpr} (ha : ∀ e ∈ a, Resolved r owner T e) (hb : ∀ e ∈ b, Resolved r owner T e)
    {T' : Table} (hT' : Later T T') :
    ((isRestriction r owner owner a b).run T').1 = narrower r owner T a b := by
  match a, b with
  | _, none => rw [isRestriction, narrower]; rfl
  | none, some b => rw [isRestriction, narrower]; rfl
  | some a, some b =>
    have hx := (ha a rfl).again T' hT'
    have hfirst := Later.of_adds hT'.linked
      ((repeats_resolve hr howner a (hT.trans hT')).adds T' (.refl hT'.wellFormed hT'.linked))
    have hT₁ := hT'.trans hfirst
    have hy := (hb b rfl).again _ hT₁
    have hsecond := Later.of_adds hT₁.linked
      ((repeats_resolve hr howner b (hT.trans hT₁)).adds _ (.refl hT₁.wellFormed hT₁.linked))
    have hT₂ := hT₁.trans hsecond
    rw [standsFor] at hx hy
    rw [isRestriction, narrower, run_bind, run_bind, hx, hy]
    cases hxs : standsFor r owner T a with
    | none => rfl
    | some x =>
      cases hys : standsFor r owner T b with
      | none => rfl
      | some y =>
        have hknown := (ha a rfl).known x hxs
        have hknown' := (hb b rfl).known y hys
        exact hT₂.grown.implements_eq hT.wellFormed hT₂.wellFormed hT.linked hknown hknown'

theorem repeats_allRestrictions (hr : r.Settled t) (howner : owner < t.size)
    (as bs : List (Option TypeExpr)) {t₁ : Table} (h₁ : Later t t₁) :
    Repeats t₁ (allRestrictions r owner owner as bs) fun _ _ => True := by
  induction as generalizing bs t₁ with
  | nil =>
    rw [allRestrictions]
    · exact .pure fun _ _ => trivial
    · nofun
  | cons a as ih =>
    cases bs with
    | nil =>
      rw [allRestrictions]
      · exact .pure fun _ _ => trivial
      · nofun
    | cons b bs =>
      rw [allRestrictions]
      refine (repeats_isRestriction hr howner a b h₁).bind fun t₂ _ h₂ _ => ?_
      split
      · exact ih bs (h₁.trans h₂)
      · exact .pure fun _ _ => trivial

theorem run_allRestrictions (hr : r.Settled t) (howner : owner < t.size) (hT : Later t T)
    {as bs : List (Option TypeExpr)} (has : AllResolved r owner T as) (hbs : AllResolved r owner T bs)
    {T' : Table} (hT' : Later T T') :
    ((allRestrictions r owner owner as bs).run T').1 = allNarrower r owner T as bs := by
  induction as generalizing bs T' with
  | nil =>
    rw [allRestrictions]
    · rfl
    · nofun
  | cons a as ih =>
    cases bs with
    | nil =>
      rw [allRestrictions]
      · rfl
      · nofun
    | cons b bs =>
      obtain ⟨ha, has⟩ := List.forall_mem_cons.mp has
      obtain ⟨hb, hbs⟩ := List.forall_mem_cons.mp hbs
      have hfirst := Later.of_adds hT'.linked
        ((repeats_isRestriction hr howner a b (hT.trans hT')).adds T' (.refl hT'.wellFormed hT'.linked))
      rw [allRestrictions, run_bind, run_isRestriction hr howner hT ha hb hT', allNarrower,
        List.zip_cons_cons, List.all_cons]
      cases narrower r owner T a b with
      | false => rfl
      | true => exact ih has hbs (hT'.trans hfirst)

theorem repeats_isRestrictionOf (hr : r.Settled t) (howner : owner < t.size) {a b : Signature}
    (ha : a.owner = owner) (hb : b.owner = owner) {t₁ : Table} (h₁ : Later t t₁) :
    Repeats t₁ (isRestrictionOf r a b) fun _ _ => True := by
  rw [isRestrictionOf, ha, hb]
  exact repeats_allRestrictions hr howner _ _ h₁

theorem run_isRestrictionOf (hr : r.Settled t) (howner : owner < t.size) (hT : Later t T)
    {a b : Signature} (ha : a.owner = owner) (hb : b.owner = owner)
    (has : AllResolved r owner T (a.params.map Prod.snd))
    (hbs : AllResolved r owner T (b.params.map Prod.snd)) {T' : Table} (hT' : Later T T') :
    ((isRestrictionOf r a b).run T').1 =
      allNarrower r owner T (a.params.map Prod.snd) (b.params.map Prod.snd) := by
  rw [isRestrictionOf, ha, hb]
  exact run_allRestrictions hr howner hT has hbs hT'

theorem repeats_isFiner (hr : r.Settled t) (howner : owner < t.size) {a b : Signature}
    (ha : a.owner = owner) (hb : b.owner = owner) {t₁ : Table} (h₁ : Later t t₁) :
    Repeats t₁ (isFiner r a b) fun _ _ => True := by
  refine (repeats_isRestrictionOf hr howner ha hb h₁).bind fun t₂ _ h₂ _ => ?_
  split
  · exact (repeats_isRestrictionOf hr howner hb ha (h₁.trans h₂)).bind fun _ _ _ _ =>
      .pure fun _ _ => trivial
  · exact .pure fun _ _ => trivial

/-- No signature is finer than itself. -/
theorem run_isFiner_self (hr : r.Settled t) (howner : owner < t.size) {a : Signature}
    (ha : a.owner = owner) {t₁ : Table} (h₁ : Later t t₁) : ((isFiner r a a).run t₁).1 = false := by
  have hrepeats := repeats_isRestrictionOf hr howner ha ha h₁
  have hself := Later.refl h₁.wellFormed h₁.linked
  have hfirst := Later.of_adds h₁.linked (hrepeats.adds t₁ hself)
  have hsame := hrepeats.again t₁ _ hself (.refl hfirst.wellFormed hfirst.linked)
  rw [isFiner, run_bind]
  cases hmore : ((isRestrictionOf r a a).run t₁).1 with
  | false => rfl
  | true =>
    simp only [if_true, run_bind, hsame, hmore]
    rfl

/-- **What a comparison finds is what the restrictions say**, once they were resolved after it. -/
theorem run_isFiner (hr : r.Settled t) (howner : owner < t.size) {a b : Signature}
    (ha : a.owner = owner) (hb : b.owner = owner) {t₁ : Table} (h₁ : Later t t₁)
    (hT : Later ((isFiner r a b).run t₁).2 T) (has : AllResolved r owner T (a.params.map Prod.snd))
    (hbs : AllResolved r owner T (b.params.map Prod.snd)) :
    ((isFiner r a b).run t₁).1 = finer r owner T (a.params.map Prod.snd) (b.params.map Prod.snd) := by
  have hrepeats := repeats_isFiner hr howner ha hb h₁
  have hself := Later.refl h₁.wellFormed h₁.linked
  have hlater := h₁.trans ((Later.of_adds h₁.linked (hrepeats.adds t₁ hself)).trans hT)
  have hTT := Later.refl hlater.wellFormed hlater.linked
  have hfirst := Later.of_adds hTT.linked
    ((repeats_isRestrictionOf hr howner ha hb hlater).adds T hTT)
  rw [← hrepeats.again t₁ T hself hT, isFiner, run_bind,
    run_isRestrictionOf hr howner hlater ha hb has hbs hTT, finer]
  cases allNarrower r owner T (a.params.map Prod.snd) (b.params.map Prod.snd) with
  | false => rfl
  | true =>
    simp only [if_true, run_bind, run_isRestrictionOf hr howner hlater hb ha hbs has hfirst,
      Bool.true_and]
    rfl

theorem addsNoPrimitive_isRestriction (owner' : TypeId) (a b : Option TypeExpr) :
    AddsNoPrimitive (isRestriction r owner owner' a b) := by
  match a, b with
  | _, none =>
    rw [isRestriction]
    exact .pure _
  | none, some b =>
    rw [isRestriction]
    exact .pure _
  | some a, some b =>
    rw [isRestriction]
    refine (addsNoPrimitive_resolve a).bind fun x => (addsNoPrimitive_resolve b).bind fun y => ?_
    match x, y with
    | some x, some y => exact .get_bind fun _ => .pure _
    | none, _ => exact .pure _
    | some x, none => exact .pure _

theorem addsNoPrimitive_allRestrictions (owner' : TypeId) (as bs : List (Option TypeExpr)) :
    AddsNoPrimitive (allRestrictions r owner owner' as bs) := by
  induction as generalizing bs with
  | nil =>
    rw [allRestrictions]
    · exact .pure _
    · nofun
  | cons a as ih =>
    cases bs with
    | nil =>
      rw [allRestrictions]
      · exact .pure _
      · nofun
    | cons b bs =>
      rw [allRestrictions]
      refine (addsNoPrimitive_isRestriction owner' a b).bind fun narrow => ?_
      split
      · exact ih bs
      · exact .pure _

theorem addsNoPrimitive_isFiner (a b : Signature) : AddsNoPrimitive (isFiner r a b) := by
  refine (addsNoPrimitive_allRestrictions b.owner _ _).bind fun narrow => ?_
  split
  · exact (addsNoPrimitive_allRestrictions a.owner _ _).bind fun _ => .pure _
  · exact .pure _

/-! ### Chains -/

/-- A restriction that was read from a text and resolved. -/
structure Clear (r : Resolver) (owner : TypeId) (T : Table) (e : TypeExpr) : Prop where
  read : e.IsRead
  resolved : Resolved r owner T e

/-- The restrictions of several parameters are clear. -/
def AllClear (r : Resolver) (owner : TypeId) (T : Table) (as : List (Option TypeExpr)) : Prop :=
  ∀ a ∈ as, ∀ e ∈ a, Clear r owner T e

/-- A restriction is narrower than another one by the types that they stand for, or is the same. -/
theorem eq_or_implements_of_narrower {a b : TypeExpr} (ha : a.IsRead) (hb : b.IsRead)
    (h : narrower r owner T (some a) (some b) = true) :
    a = b ∨ ∃ x y, standsFor r owner T a = some x ∧ standsFor r owner T b = some y ∧
      T.implements x y = true := by
  rw [narrower] at h
  split at h
  · rename_i x y hx hy
    exact .inr ⟨x, y, hx, hy, h⟩
  · exact .inl (ha.eq_of_render hb (beq_iff_eq.mp h))

/-- **Comparing restrictions is transitive** on a table on which they were resolved. -/
theorem narrower_trans (hwf : WellFormed T) (hl : Linked T) (hp : T.PlainParents)
    {a b c : Option TypeExpr} (ha : ∀ e ∈ a, Clear r owner T e) (hb : ∀ e ∈ b, Clear r owner T e)
    (hc : ∀ e ∈ c, Clear r owner T e) (hab : narrower r owner T a b = true)
    (hbc : narrower r owner T b c = true) : narrower r owner T a c = true := by
  match a, b, c with
  | _, _, none => rw [narrower]
  | _, none, some c => rw [narrower] at hbc; exact absurd hbc nofun
  | none, some b, some c => rw [narrower] at hab; exact absurd hab nofun
  | some a, some b, some c =>
    have ha := ha a rfl
    have hb := hb b rfl
    have hc := hc c rfl
    rcases eq_or_implements_of_narrower ha.read hb.read hab with rfl | ⟨x, y, hx, hy, hxy⟩
    · exact hbc
    rcases eq_or_implements_of_narrower hb.read hc.read hbc with rfl | ⟨y', z, hy', hz, hyz⟩
    · exact hab
    obtain rfl : y = y' := Option.some.inj (hy.symm.trans hy')
    simp only [narrower, hx, hz]
    exact hwf.implements_trans hl hp (ha.resolved.known x hx) (hb.resolved.known y hy)
      (hc.resolved.known z hz) hxy hyz

variable {as bs cs : List (Option TypeExpr)}

theorem allNarrower_iff : allNarrower r owner T as bs = true ↔
    ∀ (i : Nat) (a b : Option TypeExpr), as[i]? = some a → bs[i]? = some b →
      narrower r owner T a b = true := by
  rw [allNarrower, List.all_eq_true]
  constructor
  · intro h i a b ha hb
    exact h (a, b) (List.mem_iff_getElem?.mpr ⟨i, List.getElem?_zip_eq_some.mpr ⟨ha, hb⟩⟩)
  · rintro h ⟨a, b⟩ hab
    obtain ⟨i, hi⟩ := List.mem_iff_getElem?.mp hab
    obtain ⟨ha, hb⟩ := List.getElem?_zip_eq_some.mp hi
    exact h i a b ha hb

/-- **A chain composes unless the restrictions in the middle are fewer than the others.** -/
theorem allNarrower_trans (hwf : WellFormed T) (hl : Linked T) (hp : T.PlainParents)
    (has : AllClear r owner T as) (hbs : AllClear r owner T bs) (hcs : AllClear r owner T cs)
    (hlength : as.length ≤ bs.length ∨ cs.length ≤ bs.length)
    (hab : allNarrower r owner T as bs = true) (hbc : allNarrower r owner T bs cs = true) :
    allNarrower r owner T as cs = true := by
  rw [allNarrower_iff] at hab hbc ⊢
  intro i a c ha hc
  have hi : i < bs.length := by
    obtain ⟨hia, -⟩ := List.getElem?_eq_some_iff.mp ha
    obtain ⟨hic, -⟩ := List.getElem?_eq_some_iff.mp hc
    rcases hlength with hle | hle
    · exact Nat.lt_of_lt_of_le hia hle
    · exact Nat.lt_of_lt_of_le hic hle
  have hb := List.getElem?_eq_getElem hi
  exact narrower_trans hwf hl hp (has a (List.mem_of_getElem? ha)) (hbs _ (List.getElem_mem hi))
    (hcs c (List.mem_of_getElem? hc)) (hab i a _ ha hb) (hbc i _ c hb hc)

theorem finer_iff : finer r owner T as bs = true ↔
    allNarrower r owner T as bs = true ∧ allNarrower r owner T bs as = false := by
  simp [finer]

theorem finer_asymm (h : finer r owner T as bs = true) : finer r owner T bs as = false := by
  obtain ⟨hle, hnot⟩ := finer_iff.mp h
  simp [finer, hle, hnot]

theorem finer_trans (hwf : WellFormed T) (hl : Linked T) (hp : T.PlainParents)
    (has : AllClear r owner T as) (hbs : AllClear r owner T bs) (hcs : AllClear r owner T cs)
    (hlength : as.length ≤ bs.length ∨ cs.length ≤ bs.length)
    (hab : finer r owner T as bs = true) (hbc : finer r owner T bs cs = true) :
    finer r owner T as cs = true := by
  obtain ⟨hab, hba⟩ := finer_iff.mp hab
  obtain ⟨hbc, hcb⟩ := finer_iff.mp hbc
  refine finer_iff.mpr ⟨allNarrower_trans hwf hl hp has hbs hcs hlength hab hbc, ?_⟩
  -- otherwise the longer one of the two ends is between the other end and the middle
  by_contra hne
  have hca : allNarrower r owner T cs as = true := by simpa using hne
  rcases Nat.le_total as.length cs.length with hle | hle
  · have := allNarrower_trans hwf hl hp hbs hcs has (.inr hle) hbc hca
    exact absurd (this.symm.trans hba) nofun
  · have := allNarrower_trans hwf hl hp hcs has hbs (.inl hle) hca hab
    exact absurd (this.symm.trans hcb) nofun

end Overload

end TypeFlow
