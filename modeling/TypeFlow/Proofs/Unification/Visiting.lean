import Mathlib.Data.List.Chain
import TypeFlow.Proofs.Unification.Components

/-!
# Visits of types under unification

A type that is new is entered, rebuilt from what stands for its components, and left; then it gets a
representative, or what was built gets one that stands for the type, too. The types that are visited form a chain,
each made of the next, and the last one made of the type whose turn it is (`Way`).

What one visit has to respect is a `Discipline`: an invariant of table and unifier that survives each of these steps.
Then every type is unified within the steps that are granted, and the invariant holds afterwards
(`Discipline.settles`).
-/

namespace TypeFlow

namespace Table

/-- The first type is made of the second: the second is one of its components. -/
def MadeOf (t : Table) (a b : TypeId) : Prop :=
  ∃ e, t.get? a = some e ∧ b ∈ e.parts

end Table

namespace Unifier

open Table (Tidy Contained Rewrites Enlarges)

variable {t t₀ t₁ t' : Table} {u u₁ u' : Unifier} {id a b c rep built : TypeId} {e : Entry}
  {under vs : List TypeId} {D : TypeId → Prop} {α β : Type} {I : List TypeId → Table → Unifier → Prop}

/-! ### What holds whatever is visited -/

/-- No type, or a representative. -/
def Standing (u : Unifier) (c : TypeId) : Prop :=
  c = 0 ∨ c ∈ u.reps

/-- **Unification is under way**: it began with the table `t₀`, and the types `under` are dealt with. -/
structure Underway (t₀ : Table) (under : List TypeId) (t : Table) (u : Unifier) : Prop extends Sane t u where
  begun : Rewrites t₀ t
  /-- A representative stands for itself. -/
  self : ∀ p ∈ u.chosen, u.known? p.2 = some p.2
  /-- What stands for a type is a representative. -/
  stands : ∀ p ∈ u.known, u.Standing p.2
  zero : u.known? 0 = none
  undone : ∀ v ∈ under, u.known? v = none
  /-- A type is what it was at the begin until its turn comes. -/
  untouched : ∀ a < t₀.size, u.known? a = none → a ∉ under → t.get? a = t₀.get? a

theorem Standing.mono (hc : u.Standing c) (h : Grows t u t' u') : u'.Standing c :=
  hc.imp_right h.mem_reps

theorem mem_reps_iff : id ∈ u.reps ↔ ∃ p ∈ u.chosen, p.2 = id :=
  List.mem_map

/-- What is known of a type was noted. -/
theorem mem_of_known? (h : u.known? a = some b) : (a, b) ∈ u.known := by
  obtain ⟨⟨x, y⟩, hfind, rfl⟩ := Option.map_eq_some_iff.mp h
  obtain rfl : x = a := by simpa using List.find?_some hfind
  exact List.mem_of_find?_eq_some hfind

/-- The type equals what is found. -/
theorem similar_of_find? (h : u.find? t id = some rep) : t.Similar id rep := by
  obtain ⟨p, hfind, rfl⟩ := Option.map_eq_some_iff.mp h
  have hboth := List.find?_some hfind
  simp only [Bool.and_eq_true] at hboth
  exact Table.equal_iff_similar.mp hboth.2

/-- What is found is a representative. -/
theorem mem_reps_of_find? (h : u.find? t id = some rep) : rep ∈ u.reps := by
  obtain ⟨p, hfind, rfl⟩ := Option.map_eq_some_iff.mp h
  exact mem_reps_iff.mpr ⟨p, List.mem_of_find?_eq_some hfind, rfl⟩

namespace Underway

/-- Before the first type, if the table is fit. -/
theorem empty (ht : Tidy t) (hc : Contained t) (hq : t.Qualified) (digest : Fingerprint → UInt64) :
    Underway t [] t { digest } where
  tidy := ht
  closed := hc
  qualified := hq
  known_lt := by simp
  chosen_lt := by simp
  seen := by simp
  prints := by simp
  apart l₁ p l₂ h := absurd h (by simp)
  begun := .refl t
  self := by simp
  stands := by simp
  zero := rfl
  undone := by simp
  untouched _ _ _ _ := rfl

theorem standing_of_known? (h : Underway t₀ under t u) (hb : u.known? a = some b) : u.Standing b :=
  h.stands _ (mem_of_known? hb)

/-- While no type is dealt with, what is given for a type is a representative. -/
theorem standing_of_standsFor (h : Underway t₀ under t u) (hac : StandsFor [] u a c) : u.Standing c := by
  rcases hac with hknown | ⟨rfl, hzero | hnil⟩
  · exact h.standing_of_known? hknown
  · exact .inl hzero
  · exact absurd hnil List.not_mem_nil

theorem known?_of_mem (h : Underway t₀ under t u) (hid : id ∈ u.reps) : u.known? id = some id := by
  obtain ⟨p, hp, rfl⟩ := mem_reps_iff.mp hid
  exact h.self p hp

/-- A type that is dealt with is no representative. -/
theorem not_mem_reps (h : Underway t₀ under t u) (hid : id ∈ under) : id ∉ u.reps := fun hmem =>
  absurd ((h.known?_of_mem hmem).symm.trans (h.undone id hid)) nofun

theorem lt_size (h : Underway t₀ under t u) (hc : u.Standing c) : c < t.size := by
  rcases hc with rfl | hc
  · exact t.size_pos
  · obtain ⟨p, hp, rfl⟩ := mem_reps_iff.mp hc
    exact h.chosen_lt p hp

/-! ### Changes of the table -/

/-- More types are dealt with. -/
theorem mono {under' : List TypeId} (h : Underway t₀ under t u) (hsub : under ⊆ under')
    (hundone : ∀ v ∈ under', u.known? v = none) : Underway t₀ under' t u :=
  { h with
    undone := hundone
    untouched := fun a ha hn hmem => h.untouched a ha hn fun hin => hmem (hsub hin) }

/-- A rewriting that changes no types but those that are dealt with. -/
theorem of_rewrites (h : Underway t₀ under t u) (hr : Rewrites t t') (hs : Sane t' u)
    (hsame : ∀ a < t.size, a ∉ under → t'.get? a = t.get? a) : Underway t₀ under t' u where
  toSane := hs
  begun := h.begun.trans hr
  self := h.self
  stands := h.stands
  zero := h.zero
  undone := h.undone
  untouched a ha hn hmem := (hsame a (h.begun.lt_size ha) hmem).trans (h.untouched a ha hn hmem)

theorem of_enlarges (h : Underway t₀ under t u) (hl : Enlarges t t') (ht : Tidy t') (hc : Contained t') :
    Underway t₀ under t' u :=
  h.of_rewrites hl.rewrites (h.toSane.of_enlarges hl ht hc) fun _ ha _ => hl.get?_eq ha

theorem modifyObject (h : Underway t₀ under t u) (hid : id ∈ under) {f : ObjectEntry → ObjectEntry}
    (hshape : ∀ o, t.get? id = some (.object o) → o.SameShape (f o))
    (hlt : ∀ o, t.get? id = some (.object o) → ∀ c ∈ (Entry.object (f o)).compared, c < t.size) :
    Underway t₀ under ((Table.modifyObject id f).run t).2 u := by
  have hs := h.toSane.modifyObject (h.undone id hid) hshape hlt
  refine h.of_rewrites (Table.rewrites_modifyObject hshape) hs fun a _ hmem => ?_
  rw [Table.get?_modifyObject, if_neg (by rintro rfl; exact hmem hid)]

/-! ### Changes of the unifier -/

theorem of_eq (h : Underway t₀ under t u) (hc : u'.chosen = u.chosen) (hk : u'.known = u.known) :
    Underway t₀ under t u' := by
  have hs := h.toSane.of_eq hc hk
  obtain ⟨digest, chosen, known, visiting, stats⟩ := u
  obtain ⟨digest', chosen', known', visiting', stats'⟩ := u'
  obtain rfl : chosen' = chosen := hc
  obtain rfl : known' = known := hk
  exact ⟨hs, h.begun, h.self, h.stands, h.zero, h.undone, h.untouched⟩

/-- A type that is dealt with gets a representative. -/
theorem folded (h : Underway t₀ (id :: under) t u) (hid : id ≠ 0) (hv : id ∉ under) (hrep : u.Standing rep) :
    Underway t₀ under t (u.folded id rep) where
  toSane := h.toSane.folded (h.lt_size hrep)
  begun := h.begun
  self p hp := by
    have hnew := h.undone id List.mem_cons_self
    rw [known?_folded, if_neg (by rintro rfl; exact h.seen p hp hnew)]
    exact h.self p hp
  stands := List.forall_mem_cons.mpr ⟨hrep, h.stands⟩
  zero := by rw [known?_folded, if_neg hid, h.zero]
  undone v hmem := by
    rw [known?_folded, if_neg (by rintro rfl; exact hv hmem)]
    exact h.undone v (List.mem_cons_of_mem _ hmem)
  untouched a ha hn hmem := by
    rw [known?_folded] at hn
    split at hn
    · exact absurd hn nofun
    · rename_i hne
      exact h.untouched a ha hn fun hin => (List.mem_cons.mp hin).elim (fun heq => hne heq.symm) hmem

/-- A type that is dealt with becomes a representative, if none equals it. -/
theorem withChosen (h : Underway t₀ (id :: under) t u) (he : t.get? id = some e) (hv : id ∉ under)
    (hfind : u.find? t id = none) : Underway t₀ under t (u.withChosen (t.fingerprint id) id) where
  toSane := h.toSane.withChosen (Table.lt_size_of_get? he) hfind
  begun := h.begun
  self := by
    refine List.forall_mem_append.mpr ⟨fun p hp => ?_, List.forall_mem_singleton.mpr ?_⟩
    · rw [known?_withChosen]
      split
      · rename_i heq
        exact congrArg some heq
      · exact h.self p hp
    · rw [known?_withChosen, if_pos rfl]
  stands := by
    refine List.forall_mem_cons.mpr ⟨.inr ?_, fun p hp => (h.stands p hp).imp_right fun hmem => ?_⟩
    · simp [reps, Unifier.withChosen]
    · exact (List.map_append (f := Prod.snd) ▸ List.mem_append_left _ hmem :)
  zero := by
    rw [known?_withChosen, if_neg (Nat.ne_of_gt (Table.pos_of_get? he)), h.zero]
  undone v hmem := by
    rw [known?_withChosen, if_neg (by rintro rfl; exact hv hmem)]
    exact h.undone v (List.mem_cons_of_mem _ hmem)
  untouched a ha hn hmem := by
    rw [known?_withChosen] at hn
    split at hn
    · exact absurd hn nofun
    · rename_i hne
      exact h.untouched a ha hn fun hin => (List.mem_cons.mp hin).elim (fun heq => hne heq.symm) hmem

end Underway

/-! ### The chain of visited types -/

/-- The type whose turn it is, followed by the visited types, each made of the one before it. -/
def Way (t₀ : Table) (ids : List TypeId) : Prop :=
  ids.IsChain fun a b => t₀.MadeOf b a

theorem ne_zero_of_madeOf (h : t.MadeOf a b) : a ≠ 0 := by
  obtain ⟨e, he, -⟩ := h
  exact Nat.ne_of_gt (Table.pos_of_get? he)

/-- A visited type is made, in the end, of the one whose turn it is. -/
theorem Way.reaches (h : Way t₀ (id :: vs)) (hv : a ∈ vs) : Relation.ReflTransGen t₀.MadeOf a id := by
  induction vs generalizing id with
  | nil => simp at hv
  | cons v vs ih =>
    obtain ⟨hmade, hrest⟩ := List.isChain_cons_cons.mp h
    rcases List.mem_cons.mp hv with rfl | hv
    · exact .single hmade
    · exact (ih hrest hv).tail hmade

/-- A visited type is made of another one, or of the type whose turn it is. -/
theorem Way.exists_madeOf (h : Way t₀ (id :: vs)) (hid : id ≠ 0) (hv : a ∈ vs) :
    ∃ c ∈ id :: vs, c ≠ 0 ∧ t₀.MadeOf a c := by
  induction vs generalizing id with
  | nil => simp at hv
  | cons v vs ih =>
    obtain ⟨hmade, hrest⟩ := List.isChain_cons_cons.mp h
    rcases List.mem_cons.mp hv with rfl | hv
    · exact ⟨id, List.mem_cons_self, hid, hmade⟩
    · obtain ⟨c, hc, hne, hac⟩ := ih hrest (ne_zero_of_madeOf hmade) hv
      exact ⟨c, List.mem_cons_of_mem _ hc, hne, hac⟩

/-- A derived type that is made of representatives is not visited. -/
theorem Underway.not_visited (h : Underway t₀ (id :: vs) t u) (hway : Way t₀ (id :: vs)) (hid : id ≠ 0)
    (he : t.get? a = some e) (hd : e.IsDerived) (hparts : ∀ c ∈ e.parts, u.Standing c) : a ∉ vs := by
  intro hmem
  obtain ⟨c, hc, hpos, x, hx, hcx⟩ := hway.exists_madeOf hid hmem
  -- the entry of a derived type is what it was at the begin
  have hobj : ∀ o, x ≠ .object o := by
    rintro o rfl
    obtain ⟨o', ho', -⟩ := h.begun.object hx
    obtain rfl := Option.some.inj (he.symm.trans ho')
    exact hd
  obtain rfl := Option.some.inj (he.symm.trans (h.begun.entry hx hobj))
  have hstanding := (hparts c hcx).resolve_left hpos
  exact absurd ((h.known?_of_mem hstanding).symm.trans (h.undone c hc)) nofun

/-! ### Runs -/

theorem runs_fold (t : Table) (u : Unifier) (id rep : TypeId) :
    Runs t u (fold id rep) rep (u.folded id rep) :=
  rfl

theorem runs_choose (t : Table) (u : Unifier) (id : TypeId) :
    Runs t u (choose id) id (u.withChosen (t.fingerprint id) id) :=
  rfl

theorem runs_foldOrChoose_of_some (hq : t.Qualified) (h : u.find? t id = some rep) :
    Runs t u (foldOrChoose id).run (some rep) (u.folded id rep) := by
  refine (runs_search u (hq.fingerprint?_eq id)).bounded ?_
  rw [h]
  exact (runs_fold t u id rep).lift

theorem runs_foldOrChoose_of_none (hq : t.Qualified) (h : u.find? t id = none) :
    Runs t u (foldOrChoose id).run (some id) (u.withChosen (t.fingerprint id) id) := by
  refine (runs_search u (hq.fingerprint?_eq id)).bounded ?_
  rw [h]
  exact (runs_choose t u id).lift

theorem runs_mapM {canonical : TypeId → Bounded TypeId} {ids : List TypeId}
    (h : ∀ c ∈ ids, Runs t u (canonical c).run (some c) u) :
    Runs t u (ids.mapM canonical).run (some ids) u := by
  induction ids with
  | nil => rfl
  | cons c ids ih =>
    obtain ⟨hc, hids⟩ := List.forall_mem_cons.mp h
    rw [List.mapM_cons]
    have hend : Runs t u (pure (c :: ids) : Bounded (List TypeId)).run (some (c :: ids)) u := rfl
    exact hc.bounded ((ih hids).bounded hend)

/-- A derived type whose components stand for themselves is rebuilt as it is. -/
theorem runs_rebuild {canonical : TypeId → Bounded TypeId} (ht : Tidy t) (he : t.get? id = some e)
    (hd : e.IsDerived) (hne : ∀ ms, e = .union ms → ms.Pairwise fun a b => t.equal a b = false)
    (hcanon : ∀ c ∈ e.parts, Runs t u (canonical c).run (some c) u) :
    Runs t u (rebuild canonical id).run (some id) u := by
  refine (runs_types t u).lift.bounded ?_
  rw [he]
  cases e with
  | pointer p => exact (hcanon p List.mem_cons_self).bounded (.onTable (ht.run_intern he hd))
  | metaclass p => exact (hcanon p List.mem_cons_self).bounded (.onTable (ht.run_intern he hd))
  | hierarchy p => exact (hcanon p List.mem_cons_self).bounded (.onTable (ht.run_intern he hd))
  | union ms => exact (runs_mapM hcanon).bounded (.onTable (ht.run_unionOf he (hne ms rfl)))
  | typeVar v => rfl
  | _ => exact hd.elim

theorem runs_canonicalUpTo_of_known (fuel : Nat) (h : u.known? id = some c) :
    Runs t u (canonicalUpTo (fuel + 1) id).run (some c) u := by
  refine (runs_get t u).lift.bounded ?_
  simp only [h]
  rfl

theorem runs_canonicalUpTo_of_visiting (fuel : Nat) (h : u.known? id = none) (hv : id = 0 ∨ id ∈ u.visiting) :
    Runs t u (canonicalUpTo (fuel + 1) id).run (some id) u := by
  refine (runs_get t u).lift.bounded ?_
  simp only [h, if_pos hv]
  rfl

theorem runs_canonicalUpTo_of_find? (fuel : Nat) (hq : t.Qualified) (h : u.known? id = none) (hid : id ≠ 0)
    (hv : id ∉ u.visiting) (hfind : u.find? t id = some rep) :
    Runs t u (canonicalUpTo (fuel + 1) id).run (some rep) (u.folded id rep) := by
  refine (runs_get t u).lift.bounded ?_
  simp only [h, if_neg (not_or.mpr ⟨hid, hv⟩)]
  refine (runs_search u (hq.fingerprint?_eq id)).bounded ?_
  simp only [hfind]
  exact (runs_fold t u id rep).lift

/-- What is a representative, or no type, stands for itself. -/
theorem Underway.runs_canonicalUpTo (h : Underway t₀ under t u) (hc : u.Standing c) (fuel : Nat) :
    Runs t u (canonicalUpTo (fuel + 1) c).run (some c) u := by
  rcases hc with rfl | hc
  · exact runs_canonicalUpTo_of_visiting fuel h.zero (.inl rfl)
  · exact runs_canonicalUpTo_of_known fuel (h.known?_of_mem hc)

/-- A type that is new is resolved. -/
theorem keeps_canonicalUpTo_of_new {J : Table → Unifier → Prop} {P : Table → Unifier → TypeId → Prop}
    {fuel : Nat} (hq : t.Qualified) (h : u.known? id = none) (hid : id ≠ 0) (hv : id ∉ u.visiting)
    (hfind : u.find? t id = none) (hx : Keeps J t u (resolve (canonicalUpTo fuel) id) P) :
    Keeps J t u (canonicalUpTo (fuel + 1) id) P := by
  refine (runs_get t u).lift.keeps_bind (.refl t u) ?_
  simp only [h, if_neg (not_or.mpr ⟨hid, hv⟩)]
  refine (runs_search u (hq.fingerprint?_eq id)).keeps_bind (.refl t u) ?_
  simp only [hfind]
  exact hx

/-- A type is resolved: it is entered and rebuilt, then left, and what was built gets a representative. -/
theorem keeps_resolve {I J : Table → Unifier → Prop} {P Q : Table → Unifier → TypeId → Prop}
    {canonical : TypeId → Bounded TypeId}
    (hbuild : Keeps I t { u with visiting := id :: u.visiting } (rebuild canonical id) P)
    (hbuilt : ∀ built t' u', I t' u' → P t' u' built →
      let left := { u' with visiting := u'.visiting.filter (· ≠ id) }
      (built = id → Keeps J t' left (foldOrChoose id) Q) ∧
      (built ≠ id → Keeps J t' left (canonical built >>= fun rep => liftM (fold id rep)) Q)) :
    Keeps J t u (resolve canonical id) Q := by
  have henter : Runs t u (modify fun u => { u with visiting := id :: u.visiting } :
      Bounded PUnit).run (some ⟨⟩) { u with visiting := id :: u.visiting } := rfl
  refine henter.keeps_bind ⟨.refl t, List.prefix_refl _, fun h => h⟩ (hbuild.bind fun built t' u' _ hI hP => ?_)
  have hleave : Runs t' u' (modify fun u => { u with visiting := u.visiting.filter (· ≠ id) } :
      Bounded PUnit).run (some ⟨⟩) { u' with visiting := u'.visiting.filter (· ≠ id) } := rfl
  refine hleave.keeps_bind ⟨.refl t', List.prefix_refl _, fun h => h⟩ ?_
  obtain ⟨hsame, hother⟩ := hbuilt built t' u' hI hP
  split
  · rename_i heq
    exact hsame heq
  · rename_i hne
    exact hother hne

/-! ### Stages -/

/-- A stage of dealing with types: from the table `t₁` and the unifier `u₁` it has come to `t` and `u`, the
types `under` are dealt with, and the types `vs` are visited. -/
structure Stage (I : List TypeId → Table → Unifier → Prop) (under vs : List TypeId) (t₁ : Table) (u₁ : Unifier)
    (t : Table) (u : Unifier) : Prop extends Follows t₁ u₁ t u where
  inv : I under t u
  visiting_eq : u.visiting = vs

namespace Stage

theorem refl (h : I under t u) : Stage I under u.visiting t u t u :=
  ⟨.refl t u, h, rfl⟩

/-- A type that is new now was new at the begin. -/
theorem new (h : Stage I under vs t₁ u₁ t u) (hn : u.known? id = none) : u₁.known? id = none := by
  cases hk : u₁.known? id with
  | none => rfl
  | some b => exact absurd (hn.symm.trans (h.known hk)) nofun

theorem folded {under' : List TypeId} (h : Stage I under vs t₁ u₁ t u) (hnew : u.known? id = none)
    (hv₁ : id ∉ u₁.visiting) (hI : I under' t (u.folded id rep)) : Stage I under' vs t₁ u₁ t (u.folded id rep) :=
  ⟨h.toFollows.folded (h.new hnew) hv₁ rep, hI, h.visiting_eq⟩

theorem withChosen {under' : List TypeId} {f : Fingerprint} (h : Stage I under vs t₁ u₁ t u)
    (hnew : u.known? id = none) (hv₁ : id ∉ u₁.visiting) (hI : I under' t (u.withChosen f id)) :
    Stage I under' vs t₁ u₁ t (u.withChosen f id) :=
  ⟨h.toFollows.withChosen (h.new hnew) hv₁ f, hI, h.visiting_eq⟩

end Stage

/-! ### The recursion -/

/-- It is the turn of the type `id`, which is new, while the types `vs` are visited. -/
structure Turn (t₀ : Table) (D : TypeId → Prop) (vs : List TypeId) (id : TypeId) (e : Entry) : Prop where
  mem : D id
  way : Way t₀ (id :: vs)
  new : id ∉ vs
  entry : t₀.get? id = some e

theorem Turn.ne_zero (h : Turn t₀ D vs id e) : id ≠ 0 :=
  Nat.ne_of_gt (Table.pos_of_get? h.entry)

theorem Turn.lt_size (h : Turn t₀ D vs id e) : ∀ v ∈ id :: vs, v < t₀.size := by
  intro v hv
  rcases List.mem_cons.mp hv with rfl | hv
  · exact Table.lt_size_of_get? h.entry
  · obtain ⟨c, -, -, x, hx, -⟩ := h.way.exists_madeOf h.ne_zero hv
    exact Table.lt_size_of_get? hx

/-- What stands for a type is in the table. -/
theorem Turn.lt_of_standsFor (hturn : Turn t₀ D vs id e) (h : Underway t₀ under t u)
    (hac : StandsFor (id :: vs) u a c) : c < t.size := by
  rcases hac with hknown | ⟨rfl, rfl | hmem⟩
  · exact h.known_lt _ (mem_of_known? hknown)
  · exact t.size_pos
  · exact h.begun.lt_size (hturn.lt_size c hmem)

/-- Components of the type are exchanged for what stands for them. -/
theorem Underway.exchange (h : Underway t₀ (id :: vs) t u) (hturn : Turn t₀ D vs id e)
    {f : ObjectEntry → ObjectEntry} (hf : ∀ o, t.get? id = some (.object o) →
      o.Exchanges (fun a c => a = c ∨ StandsFor (id :: vs) u a c) (f o)) :
    Underway t₀ (id :: vs) ((Table.modifyObject id f).run t).2 u := by
  refine h.modifyObject List.mem_cons_self (fun o ho => (hf o ho).sameShape) fun o ho c hc => ?_
  have hold := h.closed id _ ho
  rcases List.mem_cons.mp hc with rfl | hc
  · exact (hf o ho).sameShape.generic ▸ hold _ List.mem_cons_self
  · obtain ⟨a, ha, rfl | hac⟩ := (hf o ho).exists_of_mem_parts hc
    · exact hold a (List.mem_cons_of_mem _ ha)
    · exact hturn.lt_of_standsFor h hac

/-- **What an invariant has to survive**, to hold after the unification of types `D` that come with all they are made
of: that types are added, entered and changed, and that they get representatives. What a type is built to either is
the type itself, or made of representatives. -/
structure Discipline (t₀ : Table) (D : TypeId → Prop) (I : List TypeId → Table → Unifier → Prop) : Prop where
  lt : ∀ {a}, D a → a < t₀.size
  parts : ∀ {a b}, D a → t₀.MadeOf a b → D b
  underway : ∀ {under t u}, I under t u → Underway t₀ under t u
  of_eq : ∀ {under t u u'}, I under t u → u'.chosen = u.chosen → u'.known = u.known → I under t u'
  of_enlarges : ∀ {under t t' u}, I under t u → Enlarges t t' → Tidy t' → Contained t' → I under t' u
  enter : ∀ {vs id e t u}, Turn t₀ D vs id e → I vs t u → u.known? id = none → u.find? t id = none → I (id :: vs) t u
  change : ∀ {vs id e t u} {f : ObjectEntry → ObjectEntry}, Turn t₀ D vs id e → I (id :: vs) t u →
    (∀ o, t.get? id = some (.object o) → o.Exchanges (fun a c => a = c ∨ StandsFor (id :: vs) u a c) (f o)) →
    I (id :: vs) ((Table.modifyObject id f).run t).2 u
  found : ∀ {vs id e t u rep}, Turn t₀ D vs id e → I vs t u → u.known? id = none → u.find? t id = some rep →
    I vs t (u.folded id rep)
  kept_found : ∀ {vs id e t u rep}, Turn t₀ D vs id e → I (id :: vs) t u →
    Rebuilt (StandsFor (id :: vs) u) t id e id → u.find? t id = some rep → I vs t (u.folded id rep)
  kept_chosen : ∀ {vs id e t u}, Turn t₀ D vs id e → I (id :: vs) t u →
    Rebuilt (StandsFor (id :: vs) u) t id e id → u.find? t id = none →
    I vs t (u.withChosen (t.fingerprint id) id)
  made : ∀ {vs id e t u built}, Turn t₀ D vs id e → I (id :: vs) t u →
    Rebuilt (StandsFor (id :: vs) u) t id e built → built ≠ id →
    u.Standing built ∨ ∃ y, t.get? built = some y ∧ y.IsDerived ∧ (∀ c ∈ y.parts, u.Standing c) ∧
      ∀ ms, y = .union ms → ms.Pairwise fun a b => t.equal a b = false
  made_found : ∀ {vs id e t u built rep}, Turn t₀ D vs id e → I (id :: vs) t u →
    Rebuilt (StandsFor (id :: vs) u) t id e built → built ≠ 0 → built ∉ id :: vs → u.known? built = none →
    u.find? t built = some rep → I (id :: vs) t (u.folded built rep)
  made_chosen : ∀ {vs id e t u built y}, Turn t₀ D vs id e → I (id :: vs) t u →
    Rebuilt (StandsFor (id :: vs) u) t id e built → built ∉ id :: vs → u.known? built = none →
    t.get? built = some y → (∀ c ∈ y.parts, u.Standing c) → u.find? t built = none →
    I (id :: vs) t (u.withChosen (t.fingerprint built) built)
  passed : ∀ {vs id e t u built c}, Turn t₀ D vs id e → I (id :: vs) t u →
    Rebuilt (StandsFor (id :: vs) u) t id e built → built ≠ id → StandsFor [] u built c → I vs t (u.folded id c)

/-- Granted `fuel` steps, a type of `D` is unified, as long as these are at least three more than there are types that
are not visited. -/
def Settles (t₀ : Table) (D : TypeId → Prop) (I : List TypeId → Table → Unifier → Prop) (fuel : Nat) : Prop :=
  ∀ id t u, D id → Way t₀ (id :: u.visiting) → id ∉ u.visiting → I u.visiting t u →
    t₀.unseen u.visiting + 2 < fuel →
    Keeps (Stage I u.visiting u.visiting t u) t u (canonicalUpTo fuel id) fun _ u' c => StandsFor [] u' id c

namespace Discipline

variable {fuel : Nat}

/-- While a type is visited, its components may be exchanged. -/
theorem regime (hd : Discipline t₀ D I) (hturn : Turn t₀ D vs id e) (hnew : u₁.known? id = none)
    (hv₁ : id ∉ u₁.visiting) : Regime (id :: vs) id (Stage I (id :: vs) (id :: vs) t₁ u₁) where
  sane h := (hd.underway h.inv).toSane
  add h hl ht hc := ⟨h.toFollows.of_enlarges hl, hd.of_enlarges h.inv hl ht hc, h.visiting_eq⟩
  change h hf :=
    ⟨h.toFollows.modifyObject hnew hv₁ fun o ho => (hf o ho).sameShape, hd.change hturn h.inv hf, h.visiting_eq⟩
  lt h hac := hturn.lt_of_standsFor (hd.underway h.inv) hac

/-- The components of a visited type are replaced. -/
theorem replaces (hd : Discipline t₀ D I) (hs : Settles t₀ D I fuel) (hturn : Turn t₀ D vs id e)
    (he : t.get? id = some e) (hfuel : t₀.unseen (id :: vs) + 2 < fuel) :
    ∀ a ∈ e.parts, Replaces (id :: vs) id (Stage I (id :: vs) (id :: vs) t u) (canonicalUpTo fuel) a := by
  intro a ha t' u' hI
  have hv := hI.visiting_eq
  by_cases hmem : a ∈ id :: vs
  · obtain ⟨n, rfl⟩ : ∃ n, fuel = n + 1 := ⟨fuel - 1, by omega⟩
    have hunknown := (hd.underway hI.inv).undone a hmem
    exact .of_runs (runs_canonicalUpTo_of_visiting n hunknown (.inr (hv ▸ hmem))) (.refl t' u') hI
      ⟨.inr ⟨rfl, .inr hmem⟩, rfl⟩
  · have hmade : t₀.MadeOf id a := ⟨e, hturn.entry, ha⟩
    have hstage := hs a t' u' (hd.parts hturn.mem hmade)
      (hv ▸ List.isChain_cons_cons.mpr ⟨hmade, hturn.way⟩) (hv ▸ hmem) (hv ▸ hI.inv) (hv ▸ hfuel)
    rw [hv] at hstage
    refine hstage.imp (fun t₂ u₂ _ hI₂ => ?_) fun t₂ u₂ c _ hI₂ hc => ⟨hc.imp_right ?_, ?_⟩
    · exact ⟨hI.toFollows.trans hI₂.toFollows, hI₂.inv, hI₂.visiting_eq⟩
    · rintro ⟨rfl, hzero | hnil⟩
      · exact ⟨rfl, .inl hzero⟩
      · exact absurd hnil List.not_mem_nil
    · have hlt := hI.rewrites.lt_size (Table.lt_size_of_get? he)
      exact hI₂.frozen hlt (.inr (hv ▸ List.mem_cons_self))

/-- A type is left. -/
theorem left (hd : Discipline t₀ D I) (h : Stage I under (id :: u₁.visiting) t₁ u₁ t u) (hnew : id ∉ u₁.visiting) :
    Stage I under u₁.visiting t₁ u₁ t { u with visiting := u.visiting.filter (· ≠ id) } := by
  have hback : u.visiting.filter (· ≠ id) = u₁.visiting := by
    rw [h.visiting_eq, filter_entered hnew]
  refine ⟨⟨⟨h.rewrites, h.chosen, h.known⟩, h.frozen, fun v hv => ?_, h.unknown⟩, ?_, hback⟩
  · exact hback ▸ hv
  · exact hd.of_eq h.inv rfl rfl

/-- A type that is what it was built to gets a representative. -/
theorem keeps_kept (hd : Discipline t₀ D I) (hturn : Turn t₀ D u₁.visiting id e)
    (h : Stage I (id :: u₁.visiting) u₁.visiting t₁ u₁ t u)
    (hb : Rebuilt (StandsFor (id :: u₁.visiting) u) t id e id) :
    Keeps (Stage I u₁.visiting u₁.visiting t₁ u₁) t u (foldOrChoose id) fun _ u' c => StandsFor [] u' id c := by
  have hnew := (hd.underway h.inv).undone id List.mem_cons_self
  have hq := (hd.underway h.inv).qualified
  cases hfind : u.find? t id with
  | some rep =>
    exact .of_runs (runs_foldOrChoose_of_some hq hfind) (.folded hnew rep)
      (h.folded hnew hturn.new (hd.kept_found hturn h.inv hb hfind)) (.inl (by rw [known?_folded, if_pos rfl]))
  | none =>
    exact .of_runs (runs_foldOrChoose_of_none hq hfind) (.withChosen hnew _)
      (h.withChosen hnew hturn.new (hd.kept_chosen hturn h.inv hb hfind))
      (.inl (by rw [known?_withChosen, if_pos rfl]))

/-- **A derived type that was made of representatives gets a representative.** -/
theorem keeps_made (hd : Discipline t₀ D I) (hturn : Turn t₀ D u₁.visiting id e)
    (h : Stage I (id :: u₁.visiting) u₁.visiting t₁ u₁ t u)
    (hb : Rebuilt (StandsFor (id :: u₁.visiting) u) t id e built) (hne : built ≠ id) (fuel : Nat) :
    Keeps (fun t' u' => t' = t ∧ Stage I (id :: u₁.visiting) u₁.visiting t₁ u₁ t' u') t u
      (canonicalUpTo (fuel + 2) built) fun _ u' c => StandsFor [] u' built c := by
  have hu := hd.underway h.inv
  cases hknown : u.known? built with
  | some c => exact .of_runs (runs_canonicalUpTo_of_known _ hknown) (.refl t u) ⟨rfl, h⟩ (.inl hknown)
  | none =>
  rcases hd.made hturn h.inv hb hne with hstanding | ⟨y, hy, hdy, hparts, hpairs⟩
  · obtain rfl : built = 0 := hstanding.resolve_right fun hmem =>
      absurd ((hu.known?_of_mem hmem).symm.trans hknown) nofun
    exact .of_runs (runs_canonicalUpTo_of_visiting _ hknown (.inl rfl)) (.refl t u) ⟨rfl, h⟩ (.inr ⟨rfl, .inl rfl⟩)
  have hpos : built ≠ 0 := Nat.ne_of_gt (Table.pos_of_get? hy)
  have hnot := hu.not_visited hturn.way hturn.ne_zero hy hdy hparts
  have hunder : built ∉ id :: u₁.visiting := fun hmem => (List.mem_cons.mp hmem).elim hne hnot
  have hv : built ∉ u.visiting := h.visiting_eq ▸ hnot
  cases hfind : u.find? t built with
  | some rep =>
    exact .of_runs (runs_canonicalUpTo_of_find? _ hu.qualified hknown hpos hv hfind) (.folded hknown rep)
      ⟨rfl, h.folded hknown hnot (hd.made_found hturn h.inv hb hpos hunder hknown hfind)⟩
      (.inl (by rw [known?_folded, if_pos rfl]))
  | none =>
    refine keeps_canonicalUpTo_of_new hu.qualified hknown hpos hv hfind ?_
    have hentered : Underway t₀ (id :: u₁.visiting) t { u with visiting := built :: u.visiting } := hu.of_eq rfl rfl
    have hrun := runs_rebuild hu.tidy hy hdy hpairs fun c hc => hentered.runs_canonicalUpTo (hparts c hc) fuel
    have hbuild : Keeps (fun t' u' => t' = t ∧ u' = { u with visiting := built :: u.visiting }) t _
        (rebuild (canonicalUpTo (fuel + 1)) built) fun _ _ built' => built' = built :=
      .of_runs hrun (.refl _ _) ⟨rfl, rfl⟩ rfl
    refine keeps_resolve hbuild ?_
    rintro _ _ _ ⟨rfl, rfl⟩ rfl
    refine ⟨fun _ => ?_, fun hne => absurd rfl hne⟩
    simp only [filter_entered hv]
    exact .of_runs (runs_foldOrChoose_of_none hu.qualified hfind) (.withChosen hknown _)
      ⟨rfl, h.withChosen hknown hnot (hd.made_chosen hturn h.inv hb hunder hknown hy hparts hfind)⟩
      (.inl (by rw [known?_withChosen, if_pos rfl]))

/-- What a type was built to gets a representative, which then stands for the type. -/
theorem keeps_finish (hd : Discipline t₀ D I) (hturn : Turn t₀ D u₁.visiting id e)
    (h : Stage I (id :: u₁.visiting) u₁.visiting t₁ u₁ t u)
    (hb : Rebuilt (StandsFor (id :: u₁.visiting) u) t id e built) :
    (built = id → Keeps (Stage I u₁.visiting u₁.visiting t₁ u₁) t u (foldOrChoose id)
      fun _ u' c => StandsFor [] u' id c) ∧
    (built ≠ id → Keeps (Stage I u₁.visiting u₁.visiting t₁ u₁) t u
      (canonicalUpTo (fuel + 2) built >>= fun rep => liftM (fold id rep)) fun _ u' c => StandsFor [] u' id c) := by
  refine ⟨?_, fun hne => ?_⟩
  · rintro rfl
    exact hd.keeps_kept hturn h hb
  · refine (hd.keeps_made hturn h hb hne fuel).bind ?_
    rintro c t' u' hg ⟨rfl, h'⟩ hc
    have hnew := (hd.underway h'.inv).undone id List.mem_cons_self
    have hb' : Rebuilt (StandsFor (id :: u₁.visiting) u') t' id e built := hb.imp fun a c hac => hac.mono hg
    exact .of_runs (runs_fold _ _ _ _).lift (.folded hnew c)
      (h'.folded hnew hturn.new (hd.passed hturn h'.inv hb' hne hc)) (.inl (by rw [known?_folded, if_pos rfl]))

/-- With one more step, a type is unified if its components are. -/
theorem settles_succ (hd : Discipline t₀ D I) (hs : Settles t₀ D I fuel) : Settles t₀ D I (fuel + 1) := by
  intro id t u hid hway hnew h hfuel
  have hu := hd.underway h
  have hstart : Stage I u.visiting u.visiting t u t u := .refl h
  cases hknown : u.known? id with
  | some c => exact .of_runs (runs_canonicalUpTo_of_known fuel hknown) (.refl t u) hstart (.inl hknown)
  | none =>
  rcases eq_or_ne id 0 with rfl | hpos
  · exact .of_runs (runs_canonicalUpTo_of_visiting fuel hknown (.inl rfl)) (.refl t u) hstart (.inr ⟨rfl, .inl rfl⟩)
  have hlt := hd.lt hid
  obtain ⟨e, he₀⟩ := Table.exists_get?_of_lt (Nat.pos_of_ne_zero hpos) hlt
  have hturn : Turn t₀ D u.visiting id e := ⟨hid, hway, hnew, he₀⟩
  cases hfind : u.find? t id with
  | some rep =>
    exact .of_runs (runs_canonicalUpTo_of_find? fuel hu.qualified hknown hpos hnew hfind) (.folded hknown rep)
      (hstart.folded hknown hnew (hd.found hturn h hknown hfind)) (.inl (by rw [known?_folded, if_pos rfl]))
  | none =>
  refine keeps_canonicalUpTo_of_new hu.qualified hknown hpos hnew hfind ?_
  have he : t.get? id = some e := (hu.untouched id hlt hknown hnew).trans he₀
  have hless := Table.unseen_cons_lt hlt hnew
  have hentered : Stage I (id :: u.visiting) (id :: u.visiting) t u t { u with visiting := id :: u.visiting } := by
    refine ⟨⟨⟨.refl t, List.prefix_refl _, fun hk => hk⟩, fun _ _ => rfl, fun v hv => ?_, fun _ _ hn => hn⟩, ?_, rfl⟩
    · exact List.mem_cons_of_mem _ hv
    · exact hd.of_eq (hd.enter hturn h hknown hfind) rfl rfl
  obtain ⟨n, rfl⟩ : ∃ n, fuel = n + 2 := ⟨fuel - 2, by omega⟩
  refine keeps_resolve (keeps_rebuild (hd.regime hturn hknown hnew) he
    (hd.replaces hs hturn he (by omega)) hentered) fun built t' u' hI hb => ?_
  exact hd.keeps_finish hturn (hd.left hI hnew) hb

/-- **Every type is unified within the steps that are granted**, and the invariant holds afterwards. -/
theorem settles (hd : Discipline t₀ D I) (fuel : Nat) : Settles t₀ D I fuel := by
  induction fuel with
  | zero => exact fun _ _ _ _ _ _ _ hfuel => absurd hfuel (Nat.not_lt_zero _)
  | succ fuel ih => exact hd.settles_succ ih

end Discipline

end Unifier

end TypeFlow
