import Mathlib.Data.Finset.Prod
import Mathlib.Data.List.Forall2
import Mathlib.Logic.Function.Iterate
import TypeFlow.Types.Equality
import TypeFlow.Proofs.Types.Representation

/-!
# Structural equality is the greatest simulation

Types may be cyclic through instance variables, so structural equality cannot be defined by recursion.
What it should be is coinductive: `Entry.Matches R` says that two entries have the same shape with
components related by `R`, a *simulation* is a relation all of whose pairs match up to the relation
itself, and two types are *similar* if some simulation relates them.

The comparison runs under assumptions instead. A pair under comparison is assumed equal, the assumptions
of a comparison that succeeded are kept, and what a failed attempt to match a member of a union assumed
is thrown away. `equal_iff_exists_simulation` says that this decides similarity on every table, whatever
its entries are, and that the depth granted to it is never used up.

* *Sound*: the assumptions that a comparison adds are accounted for by those it ends with
  (`Settles`), so those of a comparison that started with none form a simulation.
* *Complete*: a comparison never rejects a pair of a simulation, under whatever assumptions
  (`Comparison.Accepts`).
* *Terminating*: every step inwards assumes a pair of types that was not assumed before, and there are
  finitely many (`unassumed`).

Members of a union are matched in one direction only. Similarity is therefore reflexive and transitive on
every table (`Similar.refl`, `Similar.trans`), but it need not be symmetric.
-/

namespace TypeFlow

/-! ### Simulations -/

/-- Two objects of the same shape, with components related by `R`. -/
structure ObjectEntry.Matches (R : TypeId → TypeId → Prop) (x y : ObjectEntry) : Prop where
  name : x.name = y.name
  isModule : x.isModule = y.isModule
  /-- As many instance variables. -/
  count : x.ivars.length = y.ivars.length
  generic : x.generic = y.generic ∨ R x.generic y.generic
  /-- As many type arguments, one related to the other. -/
  typeArgs : List.Forall₂ R x.typeArgs y.typeArgs
  /-- Every instance variable has one of the same name. -/
  ivars : ∀ v ∈ x.ivars, ∃ u, y.ivar? v.1 = some u ∧ R v.2 u

/-- Two entries of the same shape, with components related by `R`. Primitives, type variables, foreign
structures, constants and libraries have no shape. -/
def Entry.Matches (R : TypeId → TypeId → Prop) : Entry → Entry → Prop
  | .object x, .object y => x.Matches R y
  | .pointer a, .pointer b => R a b
  | .metaclass a, .metaclass b => R a b
  | .hierarchy a, .hierarchy b => R a b
  | .union xs, .union ys => xs.length = ys.length ∧ ∀ m ∈ xs, ∃ n ∈ ys, R m n
  | _, _ => False

/-- An instance variable that is found is there. -/
theorem ObjectEntry.mem_of_ivar? {o : ObjectEntry} {name : String} {type : TypeId}
    (h : o.ivar? name = some type) : (name, type) ∈ o.ivars := by
  obtain ⟨⟨n, u⟩, hfind, rfl⟩ := Option.map_eq_some_iff.mp h
  have hn : n = name := by simpa using List.find?_some hfind
  exact hn ▸ List.mem_of_find?_eq_some hfind

/-- An instance variable that is there is found, if no name is used twice. -/
theorem ObjectEntry.ivar?_of_mem {o : ObjectEntry} (ho : (o.ivars.map Prod.fst).Nodup) {v : String × TypeId}
    (hv : v ∈ o.ivars) : o.ivar? v.1 = some v.2 := by
  cases hfind : o.ivar? v.1 with
  | none =>
    rw [ObjectEntry.ivar?, Option.map_eq_none_iff, List.find?_eq_none] at hfind
    exact absurd (beq_self_eq_true v.1) (hfind v hv)
  | some s =>
    have hs := List.inj_on_of_nodup_map ho (ObjectEntry.mem_of_ivar? hfind) hv rfl
    exact congrArg (some ∘ Prod.snd) hs

/-- Shapes that match up to `R` match up to `S`, if `S` holds of the components that `R` relates. -/
theorem Entry.Matches.imp {R S : TypeId → TypeId → Prop} {x y : Entry} (h : x.Matches R y)
    (hparts : ∀ a ∈ x.parts, ∀ b ∈ y.parts, R a b → S a b)
    (hgeneric : ∀ o p, x = .object o → y = .object p → R o.generic p.generic →
      o.generic = p.generic ∨ S o.generic p.generic) : x.Matches S y := by
  cases x <;> cases y <;> try exact h.elim
  case object.object x y =>
    refine { h with generic := ?_, typeArgs := ?_, ivars := fun v hv => ?_ }
    · exact h.generic.elim .inl (hgeneric x y rfl rfl)
    · refine List.forall₂_iff_zip.mpr ⟨h.typeArgs.length_eq, fun {a b} hab => ?_⟩
      obtain ⟨ha, hb⟩ := List.of_mem_zip hab
      refine hparts a (List.mem_append_left _ ha) b (List.mem_append_left _ hb) ?_
      exact (List.forall₂_iff_zip.mp h.typeArgs).2 hab
    · obtain ⟨u, hu, hvu⟩ := h.ivars v hv
      have hmem : (v.1, u) ∈ y.ivars := ObjectEntry.mem_of_ivar? hu
      refine ⟨u, hu, hparts _ (List.mem_append_right _ ?_) _ (List.mem_append_right _ ?_) hvu⟩
      · exact List.mem_map.mpr ⟨v, hv, rfl⟩
      · exact List.mem_map.mpr ⟨_, hmem, rfl⟩
  case union.union xs ys =>
    refine ⟨h.1, fun m hm => ?_⟩
    obtain ⟨n, hn, hmn⟩ := h.2 m hm
    exact ⟨n, hn, hparts m hm n hn hmn⟩
  all_goals exact hparts _ List.mem_cons_self _ List.mem_cons_self h

theorem Entry.Matches.mono {R S : TypeId → TypeId → Prop} (hRS : ∀ a b, R a b → S a b) {x y : Entry}
    (h : x.Matches R y) : x.Matches S y :=
  h.imp (fun a _ b _ => hRS a b) fun _ _ _ _ hR => .inr (hRS _ _ hR)

/-- Entries of one shape are of one sort. -/
theorem Entry.Matches.kind_eq {R : TypeId → TypeId → Prop} {x y : Entry} (h : x.Matches R y) :
    x.kind = y.kind := by
  cases x <;> cases y <;> first | rfl | exact h.elim

namespace Table

variable {t : Table} {R : TypeId → TypeId → Prop} {a b c : TypeId}

/-- What has to hold of a pair of types if components are compared by `R`: they are the same type, or
both exist and match. -/
def Accounts (t : Table) (R : TypeId → TypeId → Prop) (a b : TypeId) : Prop :=
  a = b ∨ ∃ x y, t.get? a = some x ∧ t.get? b = some y ∧ x.Matches R y

/-- A relation that accounts for all its pairs. -/
def Simulation (t : Table) (R : TypeId → TypeId → Prop) : Prop :=
  ∀ a b, R a b → t.Accounts R a b

/-- Two types that some simulation relates. -/
def Similar (t : Table) (a b : TypeId) : Prop :=
  ∃ R, t.Simulation R ∧ R a b

theorem Accounts.mono {S : TypeId → TypeId → Prop} (hRS : ∀ a b, R a b → S a b)
    (h : t.Accounts R a b) : t.Accounts S a b := by
  rcases h with rfl | ⟨x, y, hx, hy, hm⟩
  · exact .inl rfl
  · exact .inr ⟨x, y, hx, hy, hm.mono hRS⟩

/-- Similarity is the greatest simulation. -/
theorem simulation_similar (t : Table) : t.Simulation t.Similar := by
  rintro a b ⟨R, hR, hab⟩
  exact (hR a b hab).mono fun x y hxy => ⟨R, hR, hxy⟩

/-! ### Composition -/

theorem forall₂_comp {S : TypeId → TypeId → Prop} {xs ys zs : List TypeId}
    (h₁ : List.Forall₂ R xs ys) (h₂ : List.Forall₂ S ys zs) :
    List.Forall₂ (Relation.Comp R S) xs zs := by
  induction h₁ generalizing zs with
  | nil => cases h₂; exact .nil
  | cons hxy _ ih =>
    cases h₂ with
    | cons hyz h₂ => exact .cons ⟨_, hxy, hyz⟩ (ih h₂)

/-- Shapes that match up to `R` and then up to `S` match up to both in turn, if types that are the same
are related by both. -/
theorem matches_comp {S : TypeId → TypeId → Prop} (hR : ∀ a, R a a) (hS : ∀ a, S a a)
    {x y z : Entry} (h₁ : x.Matches R y) (h₂ : y.Matches S z) : x.Matches (Relation.Comp R S) z := by
  cases x <;> cases y <;> (try exact h₁.elim) <;> cases z <;> try exact h₂.elim
  case object.object.object x y z =>
    refine ⟨h₁.name.trans h₂.name, h₁.isModule.trans h₂.isModule, h₁.count.trans h₂.count, ?_,
      forall₂_comp h₁.typeArgs h₂.typeArgs, fun v hv => ?_⟩
    · rcases h₁.generic with hxy | hxy
      · rcases h₂.generic with hyz | hyz
        · exact .inl (hxy.trans hyz)
        · exact .inr ⟨_, hR _, hxy ▸ hyz⟩
      · rcases h₂.generic with hyz | hyz
        · exact .inr ⟨_, hxy, hyz ▸ hS _⟩
        · exact .inr ⟨_, hxy, hyz⟩
    · obtain ⟨u, hu, hvu⟩ := h₁.ivars v hv
      obtain ⟨w, hw, huw⟩ := h₂.ivars (v.1, u) (ObjectEntry.mem_of_ivar? hu)
      exact ⟨w, hw, u, hvu, huw⟩
  case union.union.union xs ys zs =>
    refine ⟨h₁.1.trans h₂.1, fun m hm => ?_⟩
    obtain ⟨n, hn, hmn⟩ := h₁.2 m hm
    obtain ⟨k, hk, hnk⟩ := h₂.2 n hn
    exact ⟨k, hk, n, hmn, hnk⟩
  all_goals exact ⟨_, h₁, h₂⟩

/-- Every type is similar to itself. -/
theorem Similar.refl (t : Table) (a : TypeId) : t.Similar a a :=
  ⟨Eq, fun _ _ h => .inl h, rfl⟩

/-- Similarity is transitive: simulations compose. -/
theorem Similar.trans (hab : t.Similar a b) (hbc : t.Similar b c) : t.Similar a c := by
  refine ⟨Relation.Comp t.Similar t.Similar, ?_, b, hab, hbc⟩
  rintro a c ⟨b, hab, hbc⟩
  have hleft : ∀ x y, t.Similar x y → Relation.Comp t.Similar t.Similar x y :=
    fun x y h => ⟨y, h, Similar.refl t y⟩
  rcases t.simulation_similar a b hab with rfl | ⟨x, y, hx, hy, hxy⟩
  · exact (t.simulation_similar a c hbc).mono hleft
  · rcases t.simulation_similar b c hbc with rfl | ⟨y', z, hy', hz, hyz⟩
    · exact .inr ⟨x, y, hx, hy, hxy.mono hleft⟩
    · obtain rfl : y = y' := Option.some.inj (hy.symm.trans hy')
      exact .inr ⟨x, z, hx, hz, matches_comp (Similar.refl t) (Similar.refl t) hxy hyz⟩

/-! ### Soundness -/

/-- The pairs that assumptions vouch for. -/
def Assumed (as : Assumptions) (a b : TypeId) : Prop :=
  a = b ∨ (a, b) ∈ as

/-- The assumptions `as` were extended to `as'`, and what was added is accounted for by `as'`. -/
structure Settles (t : Table) (as as' : Assumptions) : Prop where
  subset : as ⊆ as'
  added : ∀ p ∈ as', p ∉ as → t.Accounts (Assumed as') p.1 p.2

theorem Assumed.mono {as as' : Assumptions} (h : as ⊆ as') (hab : Assumed as a b) : Assumed as' a b :=
  hab.imp_right fun hmem => h hmem

theorem Settles.refl (t : Table) (as : Assumptions) : Settles t as as :=
  ⟨fun _ hp => hp, fun _ hp hnot => absurd hp hnot⟩

theorem Settles.trans {as as' as'' : Assumptions} (h : Settles t as as') (h' : Settles t as' as'') :
    Settles t as as'' := by
  refine ⟨fun p hp => h'.subset (h.subset hp), fun p hp hnot => ?_⟩
  by_cases hmid : p ∈ as'
  · exact (h.added p hmid hnot).mono fun x y hxy => hxy.mono h'.subset
  · exact h'.added p hp hmid

/-- From the assumptions `as` on, a comparison that succeeds vouches for the pair. -/
def Comparison.Sound (t : Table) (eq : Comparison) (as : Assumptions) : Prop :=
  ∀ bs bs' a b, as ⊆ bs → eq a b bs = (true, bs') → Settles t bs bs' ∧ Assumed bs' a b

section Sound

variable {eq : Comparison} {as as' : Assumptions}

theorem Comparison.Sound.mono (h : eq.Sound t as) (hsub : as ⊆ as') : eq.Sound t as' :=
  fun bs bs' a b hbs => h bs bs' a b fun _ hp => hbs (hsub hp)

/-- If all pairs are found equal, each of them is vouched for at the end. -/
theorem compareAll_sound (hs : eq.Sound t as) {ps : List (Option (TypeId × TypeId))}
    (h : compareAll eq ps as = (true, as')) :
    Settles t as as' ∧ ∀ p ∈ ps, ∃ a b, p = some (a, b) ∧ Assumed as' a b := by
  induction ps generalizing as with
  | nil =>
    obtain ⟨-, rfl⟩ := Prod.mk.inj h
    exact ⟨.refl t as, by simp⟩
  | cons p rest ih =>
    match p with
    | none => simp [compareAll] at h
    | some (a, b) =>
      rw [compareAll] at h
      split at h
      · rename_i bs heq
        obtain ⟨hset, hab⟩ := hs as bs a b (fun _ hp => hp) heq
        obtain ⟨hset', hrest⟩ := ih (hs.mono hset.subset) h
        refine ⟨hset.trans hset', List.forall_mem_cons.mpr ⟨⟨a, b, rfl, ?_⟩, hrest⟩⟩
        exact hab.mono hset'.subset
      · simp at h

theorem compareAny_sound (hs : eq.Sound t as) {ys : List TypeId} (h : compareAny eq a ys as = some as') :
    Settles t as as' ∧ ∃ b ∈ ys, Assumed as' a b := by
  induction ys with
  | nil => simp [compareAny] at h
  | cons y rest ih =>
    rw [compareAny] at h
    split at h
    · rename_i bs heq
      obtain rfl := Option.some.inj h
      obtain ⟨hset, hay⟩ := hs as bs a y (fun _ hp => hp) heq
      exact ⟨hset, y, List.mem_cons_self, hay⟩
    · obtain ⟨hset, b, hb, hab⟩ := ih h
      exact ⟨hset, b, List.mem_cons_of_mem y hb, hab⟩

theorem compareMembers_sound (hs : eq.Sound t as) {xs ys : List TypeId}
    (h : compareMembers eq ys xs as = (true, as')) :
    Settles t as as' ∧ ∀ m ∈ xs, ∃ n ∈ ys, Assumed as' m n := by
  induction xs generalizing as with
  | nil =>
    obtain ⟨-, rfl⟩ := Prod.mk.inj h
    exact ⟨.refl t as, by simp⟩
  | cons x rest ih =>
    rw [compareMembers] at h
    split at h
    · rename_i bs hany
      obtain ⟨hset, n, hn, hxn⟩ := compareAny_sound hs hany
      obtain ⟨hset', hrest⟩ := ih (hs.mono hset.subset) h
      refine ⟨hset.trans hset', List.forall_mem_cons.mpr ⟨⟨n, hn, ?_⟩, hrest⟩⟩
      exact hxn.mono hset'.subset
    · simp at h

/-- The components of two objects are related if all pairs are. -/
theorem matches_of_objectPairs {x y : ObjectEntry} (hname : x.name = y.name)
    (hmodule : x.isModule = y.isModule) (hargs : x.typeArgs.length = y.typeArgs.length)
    (hcount : x.ivars.length = y.ivars.length)
    (h : ∀ p ∈ objectPairs x y, ∃ a b, p = some (a, b) ∧ R a b) : x.Matches R y := by
  refine ⟨hname, hmodule, hcount, ?_, ?_, fun v hv => ?_⟩
  · by_cases hg : x.generic = y.generic
    · exact .inl hg
    · obtain ⟨a, b, hp, hab⟩ := h (some (x.generic, y.generic)) (by simp [objectPairs, hg])
      obtain ⟨rfl, rfl⟩ := Prod.mk.inj (Option.some.inj hp)
      exact .inr hab
  · refine List.forall₂_iff_zip.mpr ⟨hargs, fun {a b} hab => ?_⟩
    obtain ⟨a', b', hp, hab'⟩ := h (some (a, b)) (by simp [objectPairs, hab])
    obtain ⟨rfl, rfl⟩ := Prod.mk.inj (Option.some.inj hp)
    exact hab'
  · obtain ⟨a, b, hp, hab⟩ := h ((y.ivar? v.1).map fun u => (v.2, u)) (by
      simp only [objectPairs, List.mem_append, List.mem_map]
      exact .inr ⟨v, hv, rfl⟩)
    obtain ⟨u, hu, heq⟩ := Option.map_eq_some_iff.mp hp
    obtain ⟨rfl, rfl⟩ := Prod.mk.inj heq
    exact ⟨u, hu, hab⟩

theorem compareShapes_sound (hs : eq.Sound t as) {x y : Entry}
    (h : compareShapes eq x y as = (true, as')) :
    Settles t as as' ∧ x.Matches (Assumed as') y := by
  have hself : as ⊆ as := fun _ hp => hp
  cases x <;> cases y <;> try (simp [compareShapes] at h; done)
  case object.object x y =>
    rw [compareShapes] at h
    split at h
    · rename_i hcond
      obtain ⟨hname, hmodule, hargs, hcount⟩ := hcond
      obtain ⟨hset, hpairs⟩ := compareAll_sound hs h
      exact ⟨hset, matches_of_objectPairs hname hmodule hargs hcount hpairs⟩
    · simp at h
  case union.union xs ys =>
    rw [compareShapes] at h
    split at h
    · rename_i hlen
      obtain ⟨hset, hall⟩ := compareMembers_sound hs h
      exact ⟨hset, hlen, hall⟩
    · simp at h
  all_goals exact hs as as' _ _ hself h

end Sound

/-! ### Termination -/

/-- Equality of pairs of types is decided by one instance, whoever asks whether a pair is assumed. -/
instance : LawfulBEq (TypeId × TypeId) :=
  Prod.instLawfulBEq

/-- The pairs of types that are not assumed equal. -/
def unassumed (t : Table) (as : Assumptions) : Finset (TypeId × TypeId) :=
  (Finset.range t.size ×ˢ Finset.range t.size).filter (· ∉ as)

theorem card_unassumed_le (t : Table) (as : Assumptions) :
    (t.unassumed as).card ≤ t.size * t.size := by
  refine (Finset.card_filter_le _ _).trans ?_
  rw [Finset.card_product, Finset.card_range]

/-- To assume one pair more leaves fewer. -/
theorem card_unassumed_lt {as bs : Assumptions} {x y : Entry} (ha : t.get? a = some x)
    (hb : t.get? b = some y) (hnew : (a, b) ∉ as) (hsub : (a, b) :: as ⊆ bs) :
    (t.unassumed bs).card < (t.unassumed as).card := by
  refine Finset.card_lt_card (Finset.ssubset_iff_of_subset ?_ |>.mpr ⟨(a, b), ?_, ?_⟩)
  · refine Finset.monotone_filter_right _ fun p _ hp has => hp (hsub (List.mem_cons_of_mem _ has))
  · simp [unassumed, hnew, lt_size_of_get? ha, lt_size_of_get? hb]
  · have hmem : (a, b) ∈ bs := hsub List.mem_cons_self
    simp [unassumed, hmem]

/-- One step of a comparison, given the comparison of components. -/
def compareOnce (t : Table) (eq : Comparison) : Comparison := fun a b as =>
  if a = b then (true, as)
  else
    match t.get? a, t.get? b with
    | some x, some y =>
      if x.kind ≠ y.kind then (false, as)
      else if (a, b) ∈ as then (true, as)
      else
        match compareShapes eq x y ((a, b) :: as) with
        | (true, as') => (true, as')
        | (false, as') => (false, as'.erase (a, b))
    | _, _ => (false, as)

theorem compareUpTo_succ (t : Table) (fuel : Nat) :
    t.compareUpTo (fuel + 1) = t.compareOnce (t.compareUpTo fuel) :=
  rfl

/-- What a step does for two different types that exist. -/
theorem compareOnce_of_get? {eq : Comparison} {as : Assumptions} {x y : Entry} (hab : a ≠ b)
    (ha : t.get? a = some x) (hb : t.get? b = some y) :
    t.compareOnce eq a b as =
      if x.kind ≠ y.kind then (false, as)
      else if (a, b) ∈ as then (true, as)
      else
        match compareShapes eq x y ((a, b) :: as) with
        | (true, as') => (true, as')
        | (false, as') => (false, as'.erase (a, b)) := by
  simp only [compareOnce, if_neg hab, ha, hb]

/-- A type that does not exist equals itself only. -/
theorem compareOnce_of_missing {eq : Comparison} {as : Assumptions} (hab : a ≠ b)
    (hmissing : t.get? a = none ∨ t.get? b = none) : t.compareOnce eq a b as = (false, as) := by
  rw [compareOnce, if_neg hab]
  split
  · rename_i hx hy
    rcases hmissing with h | h
    · rw [hx] at h
      exact absurd h (by simp)
    · rw [hy] at h
      exact absurd h (by simp)
  · rfl

/-- **A step is sound** if the comparison of components is, from the assumed pair on. -/
theorem compareOnce_sound {eq : Comparison} {as as' : Assumptions}
    (hs : (t.get? a).isSome → (t.get? b).isSome → (a, b) ∉ as → eq.Sound t ((a, b) :: as))
    (h : t.compareOnce eq a b as = (true, as')) : Settles t as as' ∧ Assumed as' a b := by
  by_cases hab : a = b
  · rw [compareOnce, if_pos hab] at h
    obtain ⟨-, rfl⟩ := Prod.mk.inj h
    exact ⟨.refl t as, .inl hab⟩
  cases hx : t.get? a with
  | none => simp [compareOnce_of_missing hab (.inl hx)] at h
  | some x =>
    cases hy : t.get? b with
    | none => simp [compareOnce_of_missing hab (.inr hy)] at h
    | some y =>
      rw [compareOnce_of_get? hab hx hy] at h
      split at h
      · simp at h
      · split at h
        · rename_i hmem
          obtain ⟨-, rfl⟩ := Prod.mk.inj h
          exact ⟨.refl t as, .inr hmem⟩
        · rename_i hnew
          split at h
          · rename_i bs heq
            obtain ⟨-, rfl⟩ := Prod.mk.inj h
            have hs := hs (by rw [hx]; rfl) (by rw [hy]; rfl) hnew
            obtain ⟨hset, hm⟩ := compareShapes_sound hs heq
            have hmem : (a, b) ∈ bs := hset.subset List.mem_cons_self
            refine ⟨⟨fun p hp => hset.subset (List.mem_cons_of_mem _ hp), fun p hp hnot => ?_⟩, .inr hmem⟩
            -- the pair itself is accounted for by its shapes, the others were settled inside
            by_cases hpab : p = (a, b)
            · subst hpab
              exact .inr ⟨x, y, hx, hy, hm⟩
            · exact hset.added p hp (by simp [hpab, hnot])
          · simp at h

/-- From the assumptions `as` on, two comparisons give the same answers. -/
def Comparison.Agrees (eq eq' : Comparison) (as : Assumptions) : Prop :=
  ∀ bs a b, as ⊆ bs → eq a b bs = eq' a b bs

section Agrees

variable {eq eq' : Comparison} {as : Assumptions}

theorem Comparison.Agrees.mono {as' : Assumptions} (h : eq.Agrees eq' as) (hsub : as ⊆ as') :
    eq.Agrees eq' as' :=
  fun bs a b hbs => h bs a b fun _ hp => hbs (hsub hp)

theorem compareAll_congr (hs : eq.Sound t as) (h : eq.Agrees eq' as)
    (ps : List (Option (TypeId × TypeId))) : compareAll eq ps as = compareAll eq' ps as := by
  induction ps generalizing as with
  | nil => rfl
  | cons p rest ih =>
    match p with
    | none => rfl
    | some (a, b) =>
      rw [compareAll, compareAll, ← h as a b fun _ hp => hp]
      split
      · rename_i bs heq
        have hsub := (hs as bs a b (fun _ hp => hp) heq).1.subset
        exact ih (hs.mono hsub) (h.mono hsub)
      · rfl

theorem compareAny_congr (h : eq.Agrees eq' as) (a : TypeId) (ys : List TypeId) :
    compareAny eq a ys as = compareAny eq' a ys as := by
  induction ys with
  | nil => rfl
  | cons y rest ih => rw [compareAny, compareAny, ← h as a y fun _ hp => hp, ih]

theorem compareMembers_congr (hs : eq.Sound t as) (h : eq.Agrees eq' as) (ys xs : List TypeId) :
    compareMembers eq ys xs as = compareMembers eq' ys xs as := by
  induction xs generalizing as with
  | nil => rfl
  | cons x rest ih =>
    rw [compareMembers, compareMembers, ← compareAny_congr h x ys]
    split
    · rename_i bs hany
      have hsub := (compareAny_sound hs hany).1.subset
      exact ih (hs.mono hsub) (h.mono hsub)
    · rfl

theorem compareShapes_congr (hs : eq.Sound t as) (h : eq.Agrees eq' as) (x y : Entry) :
    compareShapes eq x y as = compareShapes eq' x y as := by
  have hself : as ⊆ as := fun _ hp => hp
  cases x <;> cases y <;> try rfl
  case object.object x y => simp only [compareShapes, compareAll_congr hs h]
  case union.union xs ys => simp only [compareShapes, compareMembers_congr hs h]
  all_goals exact h as _ _ hself

end Agrees

/-- Nested as deep as there are pairs left to assume, a comparison is sound, whatever is answered beyond
that depth. -/
theorem iterate_sound (t : Table) (cut : Comparison) {fuel : Nat} {as : Assumptions}
    (hfuel : (t.unassumed as).card < fuel) : Comparison.Sound t (t.compareOnce^[fuel] cut) as := by
  induction fuel generalizing as with
  | zero => exact absurd hfuel (Nat.not_lt_zero _)
  | succ fuel ih =>
    intro bs bs' a b hsub h
    rw [Function.iterate_succ_apply'] at h
    refine compareOnce_sound (fun ha hb hnew => ih ?_) h
    obtain ⟨x, hx⟩ := Option.isSome_iff_exists.mp ha
    obtain ⟨y, hy⟩ := Option.isSome_iff_exists.mp hb
    have hle : (t.unassumed bs).card ≤ (t.unassumed as).card := by
      refine Finset.card_le_card (Finset.monotone_filter_right _ fun p _ hp has => hp (hsub has))
    have hlt := card_unassumed_lt hx hy hnew fun _ hp => hp
    omega

/-- **A comparison never gets beyond the depth granted to it**: what is answered there does not count. -/
theorem iterate_agrees (t : Table) (cut cut' : Comparison) {fuel : Nat} {as : Assumptions}
    (hfuel : (t.unassumed as).card < fuel) :
    Comparison.Agrees (t.compareOnce^[fuel] cut) (t.compareOnce^[fuel] cut') as := by
  induction fuel generalizing as with
  | zero => exact absurd hfuel (Nat.not_lt_zero _)
  | succ fuel ih =>
    intro bs a b hsub
    rw [Function.iterate_succ_apply', Function.iterate_succ_apply']
    by_cases hab : a = b
    · rw [compareOnce, compareOnce, if_pos hab, if_pos hab]
    cases hx : t.get? a with
    | none => rw [compareOnce_of_missing hab (.inl hx), compareOnce_of_missing hab (.inl hx)]
    | some x =>
      cases hy : t.get? b with
      | none => rw [compareOnce_of_missing hab (.inr hy), compareOnce_of_missing hab (.inr hy)]
      | some y =>
        rw [compareOnce_of_get? hab hx hy, compareOnce_of_get? hab hx hy]
        by_cases hnew : (a, b) ∈ bs
        · simp only [hnew, if_true]
        · have hle : (t.unassumed bs).card ≤ (t.unassumed as).card := by
            refine Finset.card_le_card (Finset.monotone_filter_right _ fun p _ hp has => hp (hsub has))
          have hlt := card_unassumed_lt hx hy hnew fun _ hp => hp
          have hless : (t.unassumed ((a, b) :: bs)).card < fuel := by omega
          rw [compareShapes_congr (t.iterate_sound cut hless) (ih hless)]

theorem compareUpTo_eq_iterate (t : Table) (fuel : Nat) :
    t.compareUpTo fuel = t.compareOnce^[fuel] fun _ _ as => (true, as) := by
  induction fuel with
  | zero => rfl
  | succ fuel ih => rw [compareUpTo_succ, Function.iterate_succ_apply', ih]

/-! ### Completeness -/

/-- A comparison that rejects no pair of `R`, under whatever assumptions. -/
def Comparison.Accepts (eq : Comparison) (R : TypeId → TypeId → Prop) : Prop :=
  ∀ a b as, R a b → (eq a b as).1 = true

section Accepts

variable {eq : Comparison} {as : Assumptions}

theorem compareAll_accepts (h : eq.Accepts R) {ps : List (Option (TypeId × TypeId))}
    (hps : ∀ p ∈ ps, ∃ a b, p = some (a, b) ∧ R a b) : (compareAll eq ps as).1 = true := by
  induction ps generalizing as with
  | nil => rfl
  | cons p rest ih =>
    obtain ⟨⟨a, b, rfl, hab⟩, hrest⟩ := List.forall_mem_cons.mp hps
    have htrue := h a b as hab
    rw [compareAll]
    split
    · exact ih hrest
    · rename_i heq
      rw [heq] at htrue
      exact absurd htrue (by simp)

theorem compareAny_accepts (h : eq.Accepts R) {ys : List TypeId} (hys : ∃ b ∈ ys, R a b) :
    (compareAny eq a ys as).isSome := by
  induction ys with
  | nil => simp at hys
  | cons y rest ih =>
    rw [compareAny]
    split
    · rfl
    · rename_i heq
      obtain ⟨b, hb, hab⟩ := hys
      rcases List.mem_cons.mp hb with rfl | hb
      · have htrue := h a b as hab
        rw [heq] at htrue
        exact absurd htrue (by simp)
      · exact ih ⟨b, hb, hab⟩

theorem compareMembers_accepts (h : eq.Accepts R) {xs ys : List TypeId}
    (hxs : ∀ m ∈ xs, ∃ n ∈ ys, R m n) : (compareMembers eq ys xs as).1 = true := by
  induction xs generalizing as with
  | nil => rfl
  | cons x rest ih =>
    obtain ⟨hx, hrest⟩ := List.forall_mem_cons.mp hxs
    have hsome : (compareAny eq x ys as).isSome := compareAny_accepts h hx
    obtain ⟨bs, hbs⟩ := Option.isSome_iff_exists.mp hsome
    rw [compareMembers, hbs]
    exact ih hrest

/-- The pairs of components of two objects that match are related, except for equal generic classes,
which are no pair. -/
theorem objectPairs_of_matches {x y : ObjectEntry} (h : x.Matches R y) :
    ∀ p ∈ objectPairs x y, ∃ a b, p = some (a, b) ∧ R a b := by
  intro p hp
  simp only [objectPairs, List.mem_append, List.mem_map] at hp
  rcases hp with (hp | ⟨⟨a, b⟩, hab, rfl⟩) | ⟨v, hv, rfl⟩
  · split at hp
    · simp at hp
    · rename_i hne
      rw [List.mem_singleton.mp hp]
      exact ⟨_, _, rfl, h.generic.resolve_left hne⟩
  · exact ⟨a, b, rfl, (List.forall₂_iff_zip.mp h.typeArgs).2 hab⟩
  · obtain ⟨u, hu, hvu⟩ := h.ivars v hv
    exact ⟨v.2, u, by rw [hu]; rfl, hvu⟩

theorem compareShapes_accepts (h : eq.Accepts R) {x y : Entry} (hxy : x.Matches R y) :
    (compareShapes eq x y as).1 = true := by
  cases x <;> cases y <;> try exact hxy.elim
  case object.object x y =>
    rw [compareShapes, if_pos ⟨hxy.name, hxy.isModule, hxy.typeArgs.length_eq, hxy.count⟩]
    exact compareAll_accepts h (objectPairs_of_matches hxy)
  case union.union xs ys =>
    rw [compareShapes, if_pos hxy.1]
    exact compareMembers_accepts h hxy.2
  all_goals exact h _ _ as hxy

end Accepts

/-- **A comparison rejects no pair of a simulation**, however deep it looks. -/
theorem compareUpTo_accepts (hR : t.Simulation R) (fuel : Nat) :
    Comparison.Accepts (t.compareUpTo fuel) R := by
  induction fuel with
  | zero => exact fun a b as _ => rfl
  | succ fuel ih =>
    intro a b as hab
    rw [compareUpTo_succ]
    rcases hR a b hab with rfl | ⟨x, y, hx, hy, hm⟩
    · simp [compareOnce]
    by_cases heq : a = b
    · simp [compareOnce, heq]
    rw [compareOnce_of_get? heq hx hy, if_neg (not_not.mpr hm.kind_eq)]
    split
    · rfl
    · have htrue : (compareShapes (t.compareUpTo fuel) x y ((a, b) :: as)).1 = true :=
        compareShapes_accepts ih hm
      split
      · rfl
      · rename_i hfalse
        rw [hfalse] at htrue
        exact absurd htrue (by simp)

/-! ### The decision -/

/-- Structural equality decides similarity. -/
theorem equal_iff_similar : t.equal a b = true ↔ t.Similar a b := by
  have hfuel : (t.unassumed []).card < t.size * t.size + 1 :=
    Nat.lt_succ_of_le (t.card_unassumed_le [])
  constructor
  · intro h
    rw [equal, compareUpTo_eq_iterate] at h
    obtain ⟨as, has⟩ : ∃ as, t.compareOnce^[t.size * t.size + 1] (fun _ _ as => (true, as)) a b [] =
        (true, as) := ⟨_, Prod.ext h rfl⟩
    obtain ⟨hset, hab⟩ := t.iterate_sound _ hfuel [] as a b (fun _ hp => hp) has
    refine ⟨Assumed as, fun x y hxy => ?_, hab⟩
    rcases hxy with heq | hmem
    · exact .inl heq
    · exact hset.added (x, y) hmem (by simp)
  · rintro ⟨R, hR, hab⟩
    exact compareUpTo_accepts hR _ a b [] hab

/-- **Structural equality terminates and is the greatest simulation**, on every table. Whatever a
comparison would answer beyond the granted depth, the answer is the same, so that it never gets there; and
two types are equal if and only if some relation holds of them all of whose pairs are the same type or match
up to that relation. -/
theorem equal_iff_exists_simulation (t : Table) (a b : TypeId) :
    (∀ cut : Comparison,
      (t.compareOnce^[t.size * t.size + 1] cut a b []).1 = t.equal a b) ∧
    (t.equal a b = true ↔ ∃ R : TypeId → TypeId → Prop, R a b ∧ ∀ x y, R x y →
      x = y ∨ ∃ e f, t.get? x = some e ∧ t.get? y = some f ∧ e.Matches R f) := by
  have hfuel : (t.unassumed []).card < t.size * t.size + 1 :=
    Nat.lt_succ_of_le (t.card_unassumed_le [])
  refine ⟨fun cut => ?_, ?_⟩
  · rw [equal, compareUpTo_eq_iterate]
    exact congrArg Prod.fst (t.iterate_agrees cut _ hfuel [] a b fun _ hp => hp)
  · rw [equal_iff_similar]
    constructor
    · rintro ⟨R, hR, hab⟩
      exact ⟨R, hab, hR⟩
    · rintro ⟨R, hab, hR⟩
      exact ⟨R, hR, hab⟩

end Table

end TypeFlow
