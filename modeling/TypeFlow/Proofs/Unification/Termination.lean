import Mathlib
import TypeFlow.Proofs.Unification.Chains

/-!
# Unification ends on every table

No type is entered again while it is visited, so only as many calls are nested as there were types at the begin
(`Sound.ends_canonicalUpTo`); at the innermost of them a chain of types that are made anew may follow, which is no
longer than that either (`Upcoming.ends`). Twice as many steps as there are types suffice.

`Reached` is every table and unifier that there can be when a call begins, also a call that is nested in another:
whatever was done to the table before, and between the calls. The main statement is `Reached.canonical_ends`.
-/

namespace TypeFlow.Unifier

open Table (Retains Rewrites Grounded Arises Alters Endless)

variable {t t₀ t₁ t₂ t' : Table} {u u₁ u₂ u' : Unifier} {id c : TypeId} {e : Entry} {vs cs : List TypeId}
  {canonical : Nat → TypeId → Bounded TypeId}

/-! ### Components of a type under visit -/

theorem Going.trans {L : List TypeId} (h : Going t₀ L vs t u t₁ u₁) (h' : Going t₀ L vs t₁ u₁ t₂ u₂) :
    Going t₀ L vs t u t₂ u₂ :=
  ⟨h'.sound, h'.covered, h.proceeds.trans h'.proceeds, h'.visiting⟩

/-- From where it has come, the same holds. -/
theorem Going.self {L : List TypeId} (h : Going t₀ L vs t u t₁ u₁) : Going t₀ L vs t₁ u₁ t₁ u₁ :=
  ⟨h.sound, h.covered, .refl t₁ u₁, h.visiting⟩

/-- What answers for a type keeps answering for it. -/
theorem Going.answered (h : Going t₀ [] vs t u t₁ u₁) (h' : Going t₀ [] vs t₁ u₁ t₂ u₂)
    (hc : u₁.Answered c) : u₂.Answered c ∧ u₂.answer c = u₁.answer c := by
  cases hk : u₁.known? c with
  | some v =>
    have hk' := h'.proceeds.known? hk
    exact ⟨.inr (.inl (by rw [hk']; exact nofun)), by rw [answer_of_known hk, answer_of_known hk']⟩
  | none =>
    rcases hc with rfl | hne | hv
    · exact ⟨.inl rfl, by rw [answer_of_unknown hk, answer_of_unknown h'.sound.zero]⟩
    · exact absurd hk hne
    · have hv' : c ∈ u₂.visiting := by rwa [h'.visiting, ← h.visiting]
      exact ⟨.inr (.inr hv'), by rw [answer_of_unknown hk, answer_of_unknown (h'.sound.visited c hv').1]⟩

/-- A change of an object. -/
theorem Going.alter (h : Going t₀ [] vs t u t₁ u₁) (ha : Alters t₁ t₂) (hsize : t₂.size = t₁.size) :
    Going t₀ [] vs t u t₂ u₁ := by
  obtain ⟨hr, hle⟩ := ha.retains h.sound.arises.grounded
  refine ⟨h.sound.of_table (h.sound.arises.step ha) hr hle, fun x hx hx' => h.covered x hx (hsize ▸ hx'), ?_,
    h.visiting⟩
  exact h.proceeds.trans (.of_table (d := 0) hr hle hsize.le u₁)

/-- Wherever unification has come, the type can be unified. -/
def Serves (t₀ : Table) (vs : List TypeId) (t : Table) (u : Unifier) (canonical : Nat → TypeId → Bounded TypeId)
    (c : TypeId) : Prop :=
  ∀ t' u', Going t₀ [] vs t u t' u' → Ends t' u' (fun k => canonical k c) (Resolved t₀ [] vs t' u' c)

theorem Serves.later (h : Serves t₀ vs t u canonical c) (hg : Going t₀ [] vs t u t₁ u₁) :
    Serves t₀ vs t₁ u₁ canonical c :=
  fun t' u' h' => h t' u' (hg.trans h')

/-- Components are unified one after the other. -/
theorem ends_mapM (h : Going t₀ [] vs t u t u) (hcan : ∀ c ∈ cs, Serves t₀ vs t u canonical c) :
    Ends t u (fun k => cs.mapM (canonical k)) fun t' u' ds =>
      Going t₀ [] vs t u t' u' ∧ (∀ c ∈ cs, u'.Answered c) ∧ ds = cs.map u'.answer := by
  induction cs generalizing t u with
  | nil => exact .pure ⟨h, by simp, rfl⟩
  | cons c cs ih =>
    obtain ⟨hc, hcan⟩ := List.forall_mem_cons.mp hcan
    simp only [List.mapM_cons]
    refine (hc t u h).bind fun v t₁ u₁ _ hres => ?_
    have hg : Going t₀ [] vs t u t₁ u₁ := hres.toGoing
    refine (ih hg.self fun c hc => (hcan c hc).later hg).bind fun ds t₂ u₂ _ ⟨hg', hcs, hds⟩ => ?_
    obtain ⟨hc', hsame⟩ := hg.answered hg' hres.answered
    refine .pure ⟨hg.trans hg', List.forall_mem_cons.mpr ⟨hc', hcs⟩, ?_⟩
    rw [List.map_cons, hsame, ← hres.answer, hds]

/-- Type arguments are replaced one after the other. -/
theorem ends_unifyArgs {i : Nat} (h : Going t₀ [] vs t u t u) (hcan : ∀ c ∈ cs, Serves t₀ vs t u canonical c)
    (hlt : ∀ c ∈ cs, c < t.size) :
    Ends t u (fun k => unifyArgs (canonical k) id i cs) fun t' u' _ => Going t₀ [] vs t u t' u' := by
  induction cs generalizing t u i with
  | nil => exact .pure h
  | cons c cs ih =>
    obtain ⟨hc, hcan⟩ := List.forall_mem_cons.mp hcan
    obtain ⟨hclt, hlt⟩ := List.forall_mem_cons.mp hlt
    refine (hc t u h).bind fun v t₁ u₁ _ hres => ?_
    have hg : Going t₀ [] vs t u t₁ u₁ := hres.toGoing
    have hv : v < t₁.size :=
      hres.answer ▸ hg.sound.answer_lt (Nat.lt_of_lt_of_le hclt hg.proceeds.size_le)
    have hset := hg.alter (.setTypeArg id i v hv) (t₁.size_setTypeArg id i v)
    refine .bind (Q := fun t' u' _ => t' = ((Table.setTypeArg id i v).run t₁).2 ∧ u' = u₁)
      (.onTable rfl (Table.rewrites_modifyObject fun o _ => ⟨rfl, List.length_set, rfl⟩) ⟨rfl, rfl⟩) ?_
    rintro _ _ _ - ⟨rfl, rfl⟩
    refine (ih hset.self (fun c hc => (hcan c hc).later hset) fun c hc => ?_).imp fun t' u' _ hg' => hset.trans hg'
    exact Nat.lt_of_lt_of_le (hlt c hc) hset.proceeds.size_le

/-- The types of instance variables are replaced one after the other. -/
theorem ends_unifyIVars {o : ObjectEntry} {ivars : List (String × TypeId)} (h : Going t₀ [] vs t u t u)
    (ho : t.get? id = some (.object o)) (hnames : ∀ v ∈ ivars, v.1 ∈ o.ivars.map Prod.fst)
    (hcan : ∀ v ∈ ivars, Serves t₀ vs t u canonical v.2) (hlt : ∀ v ∈ ivars, v.2 < t.size) :
    Ends t u (fun k => unifyIVars (canonical k) id ivars) fun t' u' _ => Going t₀ [] vs t u t' u' := by
  induction ivars generalizing t u o with
  | nil => exact .pure h
  | cons x ivars ih =>
    obtain ⟨name, type⟩ := x
    obtain ⟨hc, hcan⟩ := List.forall_mem_cons.mp hcan
    obtain ⟨hclt, hlt⟩ := List.forall_mem_cons.mp hlt
    obtain ⟨hname, hnames⟩ := List.forall_mem_cons.mp hnames
    refine (hc t u h).bind fun v t₁ u₁ hr hres => ?_
    have hg : Going t₀ [] vs t u t₁ u₁ := hres.toGoing
    have hle := hg.proceeds.size_le
    obtain ⟨o₁, ho₁, hshape⟩ := hr.object ho
    -- the variable is there, so that setting it adds none
    have hset : ∀ p, t₁.get? id = some (.object p) → p.SameShape (p.setIVar name v) := by
      intro p hp
      obtain rfl := Entry.object.inj (Option.some.inj (hp.symm.trans ho₁))
      refine ⟨rfl, rfl, ?_⟩
      rw [ObjectEntry.setIVar, Table.names_setIVar, if_pos (hshape.names ▸ hname)]
    have hr' := Table.rewrites_modifyObject hset
    have hids : ∀ x ∈ (Table.Operation.setIVar id name v).ids, x < t₁.size :=
      List.forall_mem_cons.mpr ⟨Table.lt_size_of_get? ho₁, List.forall_mem_singleton.mpr
        (hres.answer ▸ hg.sound.answer_lt (Nat.lt_of_lt_of_le hclt hle))⟩
    have hset := hg.alter (.operation (.setIVar id name v) hids) (t₁.size_modifyObject id _)
    refine .bind (Q := fun t' u' _ => t' = ((Table.Operation.setIVar id name v).run.run t₁).2 ∧ u' = u₁)
      (.onTable rfl hr' ⟨rfl, rfl⟩) ?_
    rintro _ _ _ - ⟨rfl, rfl⟩
    have hle' := hset.proceeds.size_le
    obtain ⟨o₂, ho₂, hshape'⟩ := hr'.object ho₁
    refine (ih hset.self ho₂ (fun v hv => ?_) (fun v hv => (hcan v hv).later hset) fun v hv => ?_).imp
      fun t' u' _ hg' => hset.trans hg'
    · rw [hshape'.names, hshape.names]
      exact hnames v hv
    exact Nat.lt_of_lt_of_le (hlt v hv) hle'

/-- A type that is not made anew is rebuilt in place. -/
theorem ends_rebuild_inPlace (h : Going t₀ [] vs t u t u) (he : t.get? id = some e) (hm : ¬ e.IsMade)
    (hcan : ∀ c ∈ e.parts, Serves t₀ vs t u canonical c) :
    Ends t u (fun k => rebuild (canonical k) id) fun t' u' built => Going t₀ [] vs t u t' u' ∧ built = id := by
  refine .runs_bind (fun _ => (runs_types t u).lift) ?_
  rw [he]
  cases e with
  | object o =>
    have hclosed := h.sound.arises.grounded.closed id _ he
    have hargs : ∀ c ∈ o.typeArgs, c ∈ (Entry.object o).parts := fun c hc => List.mem_append_left _ hc
    have hivars : ∀ v ∈ o.ivars, v.2 ∈ (Entry.object o).parts := fun v hv =>
      List.mem_append_right _ (List.mem_map_of_mem hv)
    have hlt : ∀ c ∈ (Entry.object o).parts, c < t.size := fun c hc => hclosed c (List.mem_cons_of_mem _ hc)
    refine (ends_unifyArgs h (fun c hc => hcan c (hargs c hc)) fun c hc => hlt c (hargs c hc)).bind
      fun _ t₁ u₁ hr hg => ?_
    have hle := hg.proceeds.size_le
    obtain ⟨o₁, ho₁, hshape⟩ := hr.object he
    refine (ends_unifyIVars hg.self ho₁ (fun v hv => hshape.names ▸ List.mem_map_of_mem hv)
      (fun v hv => (hcan v.2 (hivars v hv)).later hg)
      fun v hv => Nat.lt_of_lt_of_le (hlt v.2 (hivars v hv)) hle).bind fun _ t₂ u₂ _ hg' => ?_
    exact .pure ⟨hg.trans hg', rfl⟩
  | pointer _ | union _ | metaclass _ | hierarchy _ => exact absurd trivial hm
  | _ => exact .pure ⟨h, rfl⟩

/-! ### Nested calls -/

/-- What was resolved while the type was visited was resolved since. -/
theorem Going.proceeds_of_entered (h : Going t₀ [] vs t (u.entered id) t₁ u₁) : Proceeds 0 t u t₁ u₁ := by
  have hentered : Proceeds 0 t u t (u.entered id) := (Proceeds.refl t u).of_eq rfl rfl
  exact hentered.trans h.proceeds

/-- **A call ends** if there are enough steps for all types that can be entered, and for the types that are made anew
at the innermost of them. -/
theorem Sound.ends_canonicalUpTo {fuel : Nat} (h : Sound t₀ [] t u) (hcov : Covered t₀ [] t u)
    (hid : id < t₀.size ∨ u.Answered id ∨ t.get? id = none)
    (hfuel : t₀.unseen u.visiting + t₀.size + 3 ≤ fuel) :
    Ends t u (fun k => canonicalUpTo (k + fuel) id) (Resolved t₀ [] u.visiting t u id) := by
  induction fuel generalizing t u id with
  | zero => exact absurd hfuel (Nat.not_le.mpr (Nat.succ_pos _))
  | succ fuel ih =>
    by_cases ha : u.Answered id
    · exact .of_runs (fun k => runs_canonicalUpTo_of_answered ha (k + fuel)) ⟨⟨h, hcov, .refl t u, rfl⟩, ha, rfl⟩
    obtain ⟨h0, hor⟩ := not_or.mp ha
    obtain ⟨hk, hv⟩ := not_or.mp hor
    have hk : u.known? id = none := not_ne_iff.mp hk
    have hleft : u.left id = u := left_of_not_mem hv
    -- how the call ends once the type stands for itself or for what was found
    have hnoted : ∀ {t₁ u₁ u₂ v}, Proceeds 0 t u t₁ u₁ → Sound t₀ [] t₁ u₂ → Covered t₀ [] t₁ u₁ →
        u₁.known? id = none → u₁.reps ⊆ u₂.reps → u₂.known = (id, v) :: u₁.known → u₂.visiting = u.visiting →
        Resolved t₀ [] u.visiting t u id t₁ u₂ v := by
      intro t₁ u₁ u₂ v hp hs hc hnone hreps hknown hvis
      have hv : u₂.known? id = some v := by rw [known?_noted hknown, if_pos rfl]
      refine ⟨⟨hs, Covered.noted (fun x hx hx' => .inr ((hc x hx hx').resolve_left (by simp))) hknown,
        (hp.mono (Nat.zero_le 1)).noted hnone hreps hknown, hvis⟩, .inr (.inl (by rw [hv]; exact nofun)), ?_⟩
      rw [answer_of_known hv]
    refine ends_canonicalUpTo_of_new (· + fuel) ha (fun rep hfind => ?_) fun _ => ?_
    · have hs := h.found hk h0 (by simp) hfind
      rw [hleft] at hs
      exact hnoted (.refl t u) hs hcov hk (List.Subset.refl _) rfl rfl
    cases hget : t.get? id with
    | none =>
      refine ends_resolve (P := fun t' u' built => t' = t ∧ u' = u.entered id ∧ built = id) ?_ ?_
      · refine .runs_bind (fun _ => (runs_types t (u.entered id)).lift) ?_
        rw [hget]
        exact .pure ⟨rfl, rfl, rfl⟩
      · rintro _ _ _ ⟨rfl, rfl, rfl⟩
        rw [left_entered hv]
        simp only [↓reduceIte]
        have hend := h.ends_foldOrChoose hk h0 (by simp)
        rw [hleft] at hend
        refine hend.imp ?_
        rintro _ u₂ v ⟨rfl, hs, hvis, hreps, hknown⟩
        exact hnoted (.refl _ u) hs hcov hk hreps hknown hvis
    | some e =>
      have hlt : id < t₀.size := hid.resolve_right fun hor => hor.elim ha fun hnone =>
        absurd (hnone.symm.trans hget) nofun
      have hunseen := Table.unseen_cons_lt (t := t₀) hlt hv
      have hstart : Going t₀ [] (id :: u.visiting) t (u.entered id) t (u.entered id) :=
        ⟨h.entered hk hlt, hcov, .refl _ _, rfl⟩
      have hserve : ∀ c ∈ e.parts, Serves t₀ (id :: u.visiting) t (u.entered id) (fun k => canonicalUpTo (k + fuel)) c := by
        intro c hc t' u' hg
        have hclt := h.arises.grounded.closed id e hget c (Entry.mem_compared_of_mem_parts hc)
        have hor : c < t₀.size ∨ u'.Answered c ∨ t'.get? c = none := by
          rcases Nat.lt_or_ge c t₀.size with hlt | hge
          · exact .inl hlt
          · obtain ⟨v, hv⟩ := Option.ne_none_iff_exists'.mp ((hcov c hge hclt).resolve_left (by simp))
            have hv' := hg.proceeds.known? (u := u.entered id) hv
            exact .inr (.inl (.inr (.inl (by rw [hv']; exact nofun))))
        have hend := ih hg.sound hg.covered hor (by rw [hg.visiting]; omega)
        rwa [hg.visiting] at hend
      have hunknown : ∀ {t₁ u₁}, Going t₀ [] (id :: u.visiting) t (u.entered id) t₁ u₁ →
          u₁.known? id = none ∧ (u₁.left id).visiting = u.visiting := by
        intro t₁ u₁ hg
        refine ⟨(hg.sound.visited id (hg.visiting ▸ List.mem_cons_self)).1, ?_⟩
        have hfilter : (u₁.left id).visiting = u₁.visiting.filter (· ≠ id) := rfl
        rw [hfilter, hg.visiting, filter_entered hv]
      by_cases hm : e.IsMade
      · refine ends_resolve (P := fun t' u' built => ∃ t₁, Going t₀ [] (id :: u.visiting) t (u.entered id) t₁ u' ∧
          (∀ c ∈ e.parts, u'.Answered c) ∧ Remade (u'.left id) [] id e t₁ t' built) ?_ ?_
        · refine ends_rebuild_made hget hm ((ends_mapM hstart hserve).bind ?_)
          rintro ds t₁ u₁ - ⟨hg, hcs, rfl⟩
          obtain ⟨built, t', hrun, hr⟩ := exists_remade (hg.sound.left (hunknown hg).1)
            (hg.proceeds.retains.get_derived hget hm.isDerived) hm
          exact .onTable hrun hr.rewrites ⟨t₁, hg, hcs, hr⟩
        · rintro t' u₁ built ⟨t₁, hg, hcs, hr⟩
          obtain ⟨hnone, hvis⟩ := hunknown hg
          have hcov₁ : Covered t₀ [id] t₁ u₁ := fun x hx hx' =>
            .inr ((hg.covered x hx hx').resolve_left (by simp))
          have hget₁ := hg.proceeds.retains.get_derived hget hm.isDerived
          have hleft₁ := hg.sound.left hnone
          have hrest := hg.sound.ends_rest hcov₁ hnone h0 (by simp) hr (fun k => canonicalUpTo (k + fuel)) fun hne => ?_
          · rw [hvis] at hrest
            refine hrest.imp fun t₂ u₂ v hres => ⟨⟨hres.sound, hres.covered, ?_, hres.visiting⟩, hres.answered,
              hres.answer⟩
            exact hg.proceeds_of_entered.trans hres.proceeds
          · refine (hr.upcoming (n := t₀.size) hleft₁ hcov₁ hget₁ hm (by simp) (fun c hc => ⟨?_, ?_⟩) hne).ends
              (by omega)
            · refine answered_left (hcs c hc) (Nat.ne_of_lt ?_)
              exact h.arises.grounded.older hget hm.isDerived c hc
            · exact hleft₁.steady c
      · refine ends_resolve (ends_rebuild_inPlace hstart hget hm hserve) ?_
        rintro t₁ u₁ built ⟨hg, rfl⟩
        obtain ⟨hnone, hvis⟩ := hunknown hg
        simp only [↓reduceIte]
        refine (hg.sound.ends_foldOrChoose hnone h0 (by simp)).imp ?_
        rintro _ u₂ v ⟨rfl, hs, hvis', hreps, hknown⟩
        exact hnoted hg.proceeds_of_entered hs hg.covered hnone hreps hknown (hvis'.trans hvis)

/-! ### Every state -/

/-- The tables and unifiers that there are when a call begins: whatever was done to the table before unification
began and between two calls; and inside a call, when the components of a type are about to be unified. -/
inductive Reached : Table → Unifier → Prop
  | start {t : Table} (digest : Fingerprint → UInt64) : Arises t → Reached t { digest }
  | alter {t t' : Table} {u : Unifier} : Reached t u → Alters t t' → Reached t' u
  | counted {t : Table} {u : Unifier} (stats : Stats) : Reached t u → Reached t { u with stats }
  | enter {t : Table} {u : Unifier} {id : TypeId} : Reached t u → id ≠ 0 → id < t.size →
      u.known? id = none → id ∉ u.visiting → Reached t (u.entered id)
  | canonical {t t' : Table} {u u' : Unifier} {id v : TypeId} : Reached t u →
      ((Unifier.canonical id).run.run u).run t = ((some v, u'), t') → Reached t' u'

/-- Nothing was seen at the begin. -/
theorem sound_empty (h : Arises t) (digest : Fingerprint → UInt64) : Sound t [] t { digest } where
  arises := h
  rep := by simp [reps]
  self h := absurd h nofun
  becomes h := absurd h nofun
  settled h := absurd h nofun
  early h := absurd h nofun
  inside h := absurd h nofun
  zero := rfl
  visited := by simp
  pending := by simp
  size_le := Nat.le_refl _

/-- A call ends, unless there is no end to what some type shows. -/
theorem Sound.ends_canonical (h : Sound t [] t u) (id : TypeId) :
    Ends t u (fun k => canonicalUpTo (k + (2 * t.size + 8)) id) (Resolved t [] u.visiting t u id) := by
  have hcov : Covered t [] t u := fun x hx hx' => absurd hx (Nat.not_le.mpr hx')
  have hid : id < t.size ∨ u.Answered id ∨ t.get? id = none := by
    cases he : t.get? id with
    | none => exact .inr (.inr rfl)
    | some e => exact .inl (Table.lt_size_of_get? he)
  have hfuel : t.unseen u.visiting + t.size + 3 ≤ 2 * t.size + 8 := by
    have hle := t.unseen_le u.visiting
    omega
  exact h.ends_canonicalUpTo hcov hid hfuel

theorem Reached.sound (h : Reached t u) : Sound t [] t u := by
  induction h with
  | start digest ht => exact sound_empty ht digest
  | alter _ ha ih =>
    obtain ⟨hr, hle⟩ := ha.retains ih.arises.grounded
    exact (ih.of_table (ih.arises.step ha) hr hle).rebase hle (Nat.le_refl _)
  | counted stats _ ih => exact { ih with }
  | enter _ _ hlt hk _ ih => exact ih.entered hk hlt
  | @canonical t t' u u' id v _ hrun ih =>
    obtain ⟨o, u₁, t₁, hall, -, hres, -⟩ := ih.ends_canonical id
    rw [run_canonical_eq, show 2 * t.size + 8 = 0 + (2 * t.size + 8) from (Nat.zero_add _).symm, hall 0] at hrun
    obtain ⟨hpair, rfl⟩ := Prod.mk.inj hrun
    obtain ⟨rfl, rfl⟩ := Prod.mk.inj hpair
    have hres := hres v rfl
    exact hres.sound.rebase hres.proceeds.size_le (Nat.le_refl _)

/-- **Unification ends, unless it asks for a name without end**, on every table, for every type, in every state. Any
number of steps from twice as many as there are types on does the same. When it ends, the types under visit are what
they were, no type was resolved that was resolved before or is resolved again, and at most as many types were added as
were resolved. It always ends if constants and foreign structures are declared in types without type arguments; and if
it does not, then there is a type for which not even a fingerprint can be made. -/
theorem Reached.canonical_ends (h : Reached t u) (id : TypeId) :
    ∃ o u' t', (∀ fuel ≥ 2 * t.size + 8, ((canonicalUpTo fuel id).run.run u).run t = ((o, u'), t')) ∧
      ((Unifier.canonical id).run.run u).run t = ((o, u'), t') ∧
      (∀ v, o = some v → u'.visiting = u.visiting ∧ ∃ new, u'.known = new ++ u.known ∧ (new.map Prod.fst).Nodup ∧
        (∀ p ∈ new, u.known? p.1 = none) ∧ t'.size ≤ t.size + new.length) ∧
      (t.Qualified → o ≠ none) ∧ (o = none → ∃ c, t'.fingerprint? c = none) := by
  obtain ⟨o, u', t', hall, hr, hres, hnone⟩ := h.sound.ends_canonical id
  have hfuel : ∀ fuel ≥ 2 * t.size + 8, ((canonicalUpTo fuel id).run.run u).run t = ((o, u'), t') := by
    intro fuel hle
    obtain ⟨k, rfl⟩ := Nat.exists_eq_add_of_le' hle
    exact hall k
  refine ⟨o, u', t', hfuel, (run_canonical_eq id u t).trans (hfuel _ (Nat.le_refl _)), fun v hv => ?_, fun hq ho => ?_,
    hnone⟩
  · have hres := hres v hv
    obtain ⟨new, hknown, hnodup, hnew, hsize⟩ := hres.proceeds.resolved
    exact ⟨hres.visiting, new, hknown, hnodup, hnew, hsize⟩
  · exact (hr.qualified hq).not_endless (hnone ho)

/-- The array 14 of pointers, 15, to this array. -/
def coil : Table :=
  ((Table.setTypeArg 14 0 15).run (Table.Operation.runAll [
    .instantiate Builtin.array [Builtin.bool],
    .pointerOf 14] Table.initial)).2

/-- A call for the pointers that is nested in one for the array: the array stands for itself, and the pointers are
resolved. -/
theorem canonical_ends_coil :
    coil.get? 15 = some (.pointer 14) ∧ (coil.object? 14).map ObjectEntry.typeArgs = some [15] ∧
    ∃ u' t' new, ((Unifier.canonical 15).run.run (Unifier.entered {} 14)).run coil = ((some 15, u'), t') ∧
      u'.visiting = [14] ∧ u'.known = new ∧ t'.size ≤ coil.size + new.length := by
  have harises : Arises coil :=
    (((Arises.initial.step (.operation (.instantiate Builtin.array [Builtin.bool]) (by decide))).step
      (.operation (.pointerOf 14) (by decide +kernel))).step (.setTypeArg 14 0 15 (by decide +kernel)))
  have hreached : Reached coil (Unifier.entered {} 14) :=
    .enter (.start _ harises) (by decide) (by decide +kernel) rfl (by simp)
  obtain ⟨o, u', t', -, hrun, hends, -⟩ := Reached.canonical_ends hreached 15
  have hsome : (((Unifier.canonical 15).run.run (Unifier.entered {} 14)).run coil).1.1 = some 15 := by
    decide +kernel
  rw [hrun] at hsome
  obtain ⟨hvisiting, new, hknown, -, -, hsize⟩ := hends 15 hsome
  exact ⟨by decide +kernel, by decide +kernel, u', t', new, hrun.trans (by rw [← hsome]), hvisiting,
    hknown.trans (List.append_nil new), hsize⟩

/-- The twins, 14 and 15, which differ until their union, 16, is made; a generic class of the same name, 17, and an
instance of it, 19, for a type, 18, that leads back to the instance by a union, 20, and for the union of the twins; a
constant, 21, that is declared in the instance; and a type, 22, that holds the instance and the constant. -/
def tangle : Table :=
  Table.Operation.runAll [
    .setIVar 15 "@v" Builtin.bool,
    .unionOf [14, 15],
    .setIVar 14 "@v" Builtin.bool,
    .defineClass "Twin" Builtin.object ["S", "T"],
    .defineClass "Knot" Builtin.object [],
    .instantiate 17 [18, 16],
    .unionOf [14, 19],
    .setIVar 18 "@rest" 20,
    .defineConst 19 "K" 1,
    .defineClass "Hook" Builtin.object [],
    .setIVar 22 "@a" 19,
    .setIVar 22 "@k" 21] Table.twins

set_option maxRecDepth 4000 in
/-- **Unification need not end**, however many steps are granted. All names end at the begin. But one twin comes to stand
for both, and so the second type argument of the instance becomes the union of this twin and the instance. Then the
constant, which is declared in the instance, has a name without end. -/
theorem canonical_endless_tangle :
    Reached tangle {} ∧ (∀ id < tangle.size, (tangle.name? id).isSome) ∧
    ∀ fuel ≥ 2 * tangle.size + 8, (((canonicalUpTo fuel 22).run.run {}).run tangle).1.1 = none := by
  have hreached : Reached tangle {} :=
    .start _ (Table.Reaches.arises (Table.reaches_twins.runAll (by decide +kernel)))
  refine ⟨hreached, by decide +kernel, fun fuel hfuel => ?_⟩
  obtain ⟨k, rfl⟩ := Nat.exists_eq_add_of_le' hfuel
  obtain ⟨o, u', t', hall, -⟩ := hreached.sound.ends_canonical 22
  -- more steps change nothing
  have hzero : (((Unifier.canonical 22).run.run {}).run tangle).1.1 = none := by
    cbv
  rw [run_canonical_eq, ← Nat.zero_add (2 * tangle.size + 8)] at hzero
  have ho : o = none := (congrArg (fun s => s.1.1) (hall 0)).symm.trans hzero
  exact (congrArg (fun s => s.1.1) (hall k)).trans ho

end TypeFlow.Unifier
