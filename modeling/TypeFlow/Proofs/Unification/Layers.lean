import TypeFlow.Proofs.Unification.Visiting

/-!
# Unification of types that are not made of each other

If no two types are made of each other, every component has its representative before the type gets one.
So a representative is made of earlier ones, apart from objects that are made of themselves (`Settling`). This is a
discipline: the visited types form a chain, and a type whose component is visited would be made of a type that is
made of it (`discipline_settling`).
-/

namespace TypeFlow

namespace Table

/-- The types `D` come with all they are made of, and no two of them are made of each other. Only an object
is made of itself. -/
structure Layered (t : Table) (D : TypeId → Prop) : Prop where
  lt : ∀ {a : TypeId}, D a → a < t.size
  parts : ∀ {a b : TypeId}, D a → t.MadeOf a b → D b
  antisymm : ∀ {a b : TypeId}, D a → Relation.ReflTransGen t.MadeOf a b →
    Relation.ReflTransGen t.MadeOf b a → a = b
  object : ∀ {a : TypeId} {e : Entry}, D a → t.get? a = some e → a ∈ e.parts → ∃ o, e = .object o

end Table

namespace Unifier

open Table (Layered)

variable {t t₀ t' : Table} {u u' : Unifier} {id a c rep built : TypeId} {e : Entry}
  {under vs : List TypeId} {D : TypeId → Prop}

/-! ### The invariant -/

/-- A type is made of no types but `ids`, apart from an object that is made of itself. -/
def MadeWithin (ids : List TypeId) (id : TypeId) (e : Entry) : Prop :=
  ∀ c ∈ e.parts, c = 0 ∨ c ∈ ids ∨ c = id ∧ ∃ o, e = .object o

/-- **Representatives are made of earlier representatives**, where unification began with the table `t₀` and
the types `under` are dealt with. -/
structure Settling (t₀ : Table) (under : List TypeId) (t : Table) (u : Unifier) : Prop
    extends Underway t₀ under t u where
  made : ∀ l₁ p l₂, u.chosen = l₁ ++ p :: l₂ → ∀ e, t.get? p.2 = some e →
    MadeWithin (l₁.map Prod.snd) p.2 e

namespace Settling

/-- Before the first type. -/
theorem empty (h : Underway t [] t u) (hu : u.chosen = []) : Settling t [] t u where
  toUnderway := h
  made l₁ p l₂ hsplit := absurd (hu.symm.trans hsplit) (by simp)

/-- What a representative is made of is standing. -/
theorem standing_of_mem_parts (h : Settling t₀ under t u) (hid : id ∈ u.reps) (he : t.get? id = some e) :
    ∀ c ∈ e.parts, u.Standing c := by
  obtain ⟨p, hp, rfl⟩ := mem_reps_iff.mp hid
  obtain ⟨l₁, l₂, hsplit⟩ := List.append_of_mem hp
  intro c hc
  rcases h.made l₁ p l₂ hsplit e he c hc with hzero | hearlier | ⟨rfl, -⟩
  · exact .inl hzero
  · refine .inr ?_
    rw [reps, hsplit, List.map_append]
    exact List.mem_append_left _ hearlier
  · exact .inr hid

theorem standing_of_mem_members (h : Settling t₀ under t u) (hc : u.Standing c) :
    ∀ m ∈ t.members c, u.Standing m := by
  intro m hm
  rcases hc with rfl | hc
  · exact absurd hm (by simp)
  · by_cases hunion : ∃ ms, t.get? c = some (.union ms)
    · obtain ⟨ms, hms⟩ := hunion
      rw [Table.members_of_union hms] at hm
      exact h.standing_of_mem_parts hc hms m hm
    · rcases Nat.eq_zero_or_pos c with rfl | hpos
      · exact absurd hm (by simp)
      · rw [Table.members_of_not_union hpos.ne' (not_exists.mp hunion), List.mem_singleton] at hm
        exact .inr (hm ▸ hc)

/-! ### Steps -/

theorem mono {under' : List TypeId} (h : Settling t₀ under t u) (hsub : under ⊆ under')
    (hundone : ∀ v ∈ under', u.known? v = none) : Settling t₀ under' t u :=
  ⟨h.toUnderway.mono hsub hundone, h.made⟩

/-- The table changes, but representatives stay what they are. -/
theorem of_underway (h : Settling t₀ under t u) (h' : Underway t₀ under t' u)
    (hsame : ∀ a < t.size, a ∉ under → t'.get? a = t.get? a) : Settling t₀ under t' u where
  toUnderway := h'
  made l₁ p l₂ hsplit e he := by
    have hp : p ∈ u.chosen := by simp [hsplit]
    have hdone : p.2 ∉ under := fun hmem => h.seen p hp (h.undone _ hmem)
    rw [hsame p.2 (h.chosen_lt p hp) hdone] at he
    exact h.made l₁ p l₂ hsplit e he

theorem of_eq (h : Settling t₀ under t u) (hc : u'.chosen = u.chosen) (hk : u'.known = u.known) :
    Settling t₀ under t u' :=
  ⟨h.toUnderway.of_eq hc hk, hc ▸ h.made⟩

theorem folded (h : Settling t₀ (id :: under) t u) (hid : id ≠ 0) (hv : id ∉ under) (hrep : u.Standing rep) :
    Settling t₀ under t (u.folded id rep) :=
  ⟨h.toUnderway.folded hid hv hrep, h.made⟩

/-- A type that is made of representatives becomes one. -/
theorem withChosen (h : Settling t₀ (id :: under) t u) (he : t.get? id = some e) (hv : id ∉ under)
    (hmade : MadeWithin u.reps id e) (hfind : u.find? t id = none) :
    Settling t₀ under t (u.withChosen (t.fingerprint id) id) where
  toUnderway := h.toUnderway.withChosen he hv hfind
  made := by
    refine forall_split_snoc h.made fun x hx => ?_
    obtain rfl := Option.some.inj (hx.symm.trans he)
    exact hmade

end Settling

/-! ### The discipline -/

/-- No other component of a type is visited when the type is. -/
theorem Way.not_mem (h : Way t₀ (id :: vs)) (hl : Layered t₀ D) (hid : D id) (hnew : id ∉ vs)
    (hmade : t₀.MadeOf id c) (hne : c ≠ id) : c ∉ id :: vs := by
  intro hmem
  rcases List.mem_cons.mp hmem with rfl | hmem
  · exact hne rfl
  · have heq := hl.antisymm hid (.single hmade) (h.reaches hmem)
    exact hnew (heq ▸ hmem)

/-- A representative stands for a component, unless it is no type, or the type itself, if that is an object. -/
theorem Settling.standing_of_component (h : Settling t₀ under t u) (hl : Layered t₀ D) (hturn : Turn t₀ D vs id e)
    (ha : a ∈ e.parts) (hac : StandsFor (id :: vs) u a c) : u.Standing c ∨ c = id ∧ ∃ o, e = .object o := by
  rcases hac with hknown | ⟨rfl, rfl | hmem⟩
  · exact .inl (h.standing_of_known? hknown)
  · exact .inl (.inl rfl)
  · by_cases hid : c = id
    · subst hid
      exact .inr ⟨rfl, hl.object hturn.mem hturn.entry ha⟩
    · exact absurd hmem (hturn.way.not_mem hl hturn.mem hturn.new ⟨e, hturn.entry, ha⟩ hid)

/-- **A type is rebuilt from representatives.** -/
theorem Settling.rebuilt (h : Settling t₀ (id :: vs) t u) (hl : Layered t₀ D) (hturn : Turn t₀ D vs id e)
    (hb : Rebuilt (StandsFor (id :: vs) u) t id e built) :
    u.Standing built ∨ ∃ y, t.get? built = some y ∧ MadeWithin u.reps built y ∧
      (built ≠ id → y.IsDerived ∧ ∀ ms, y = .union ms → ms.Pairwise fun a b => t.equal a b = false) := by
  have hstands : ∀ a ∈ e.parts, (∀ o, e ≠ .object o) → ∀ c, StandsFor (id :: vs) u a c → u.Standing c :=
    fun a ha hobj c hac => (h.standing_of_component hl hturn ha hac).resolve_right fun ⟨_, o, ho⟩ => hobj o ho
  have hone : ∀ {a c y}, a ∈ e.parts → (∀ o, e ≠ .object o) → StandsFor (id :: vs) u a c → y.parts = [c] →
      MadeWithin u.reps built y := fun ha hobj hac hy d hd => by
    rw [hy] at hd
    exact (List.mem_singleton.mp hd ▸ hstands _ ha hobj _ hac).imp_right .inl
  cases hb with
  | @object o o' ho ho' =>
    refine .inr ⟨_, ho', fun c hc => ?_, fun hne => absurd rfl hne⟩
    obtain ⟨a, ha, hac⟩ := ho.exists_of_mem_parts hc
    rcases h.standing_of_component hl hturn ha hac with hstanding | ⟨hid, -⟩
    · exact hstanding.imp_right .inl
    · exact .inr (.inr ⟨hid, o', rfl⟩)
  | pointer hac hy => exact .inr ⟨_, hy, hone List.mem_cons_self nofun hac rfl, fun _ => ⟨trivial, nofun⟩⟩
  | metaclass hac hy => exact .inr ⟨_, hy, hone List.mem_cons_self nofun hac rfl, fun _ => ⟨trivial, nofun⟩⟩
  | hierarchy hac hy => exact .inr ⟨_, hy, hone List.mem_cons_self nofun hac rfl, fun _ => ⟨trivial, nofun⟩⟩
  | @union ms cs _ hall hy =>
    have hmember : ∀ m ∈ t.flatten cs, u.Standing m := by
      intro m hm
      obtain ⟨c, hc, hmc⟩ := Table.exists_of_mem_flatten hm
      obtain ⟨a, ha, hac⟩ := exists_of_mem_right hall hc
      exact h.standing_of_mem_members (hstands a ha nofun c hac) m hmc
    rcases hy with ⟨-, hzero⟩ | hone | hy
    · exact .inl (.inl hzero)
    · exact .inl (hmember built (hone ▸ List.mem_cons_self))
    · refine .inr ⟨_, hy, fun m hm => (hmember m hm).imp_right .inl, fun _ => ⟨trivial, ?_⟩⟩
      rintro ms ⟨⟩
      exact t.flatten_pairwise cs
  | lone hlone he =>
    refine .inr ⟨e, he, fun c hc => ?_, fun hne => absurd rfl hne⟩
    exact absurd (hlone.parts_eq ▸ hc) List.not_mem_nil

/-- **Representatives stay made of earlier representatives** if no two types are made of each other. -/
theorem discipline_settling (hl : Layered t₀ D) : Discipline t₀ D (Settling t₀) where
  lt := hl.lt
  parts := hl.parts
  underway h := h.toUnderway
  of_eq h := h.of_eq
  of_enlarges h hlarge ht hc := h.of_underway (h.toUnderway.of_enlarges hlarge ht hc) fun _ ha _ => hlarge.get?_eq ha
  enter hturn h hnew _ := h.mono (List.subset_cons_self _ _) (List.forall_mem_cons.mpr ⟨hnew, h.undone⟩)
  change {vs id e t u f} hturn h hf := by
    refine h.of_underway (h.toUnderway.exchange hturn hf) fun a _ hmem => ?_
    rw [Table.get?_modifyObject, if_neg (by rintro rfl; exact hmem List.mem_cons_self)]
  found hturn h hnew hfind := by
    have hmore := h.mono (List.subset_cons_self _ _) (List.forall_mem_cons.mpr ⟨hnew, h.undone⟩)
    exact hmore.folded hturn.ne_zero hturn.new (.inr (mem_reps_of_find? hfind))
  kept_found hturn h _ hfind := h.folded hturn.ne_zero hturn.new (.inr (mem_reps_of_find? hfind))
  kept_chosen hturn h hb hfind := by
    have hnot := not_or.mpr ⟨hturn.ne_zero, h.not_mem_reps List.mem_cons_self⟩
    obtain ⟨y, hy, hmade, -⟩ := (h.rebuilt hl hturn hb).resolve_left hnot
    exact h.withChosen hy hturn.new hmade hfind
  made hturn h hb hne := by
    refine (h.rebuilt hl hturn hb).imp_right fun ⟨y, hy, hmade, hother⟩ => ?_
    obtain ⟨hderived, hpairs⟩ := hother hne
    refine ⟨y, hy, hderived, fun c hc => (hmade c hc).imp_right (·.resolve_right ?_), hpairs⟩
    rintro ⟨-, o, rfl⟩
    exact hderived
  made_found _ h _ hpos hunder hnew hfind := by
    have hmore := h.mono (List.subset_cons_self _ _) (List.forall_mem_cons.mpr ⟨hnew, h.undone⟩)
    exact hmore.folded hpos hunder (.inr (mem_reps_of_find? hfind))
  made_chosen hturn h _ hunder hnew hy hparts hfind := by
    have hmore := h.mono (List.subset_cons_self _ _) (List.forall_mem_cons.mpr ⟨hnew, h.undone⟩)
    exact hmore.withChosen hy hunder (fun c hc => (hparts c hc).imp_right .inl) hfind
  passed hturn h _ _ hc := h.folded hturn.ne_zero hturn.new (h.standing_of_standsFor hc)

end Unifier

end TypeFlow
