import Mathlib
import TypeFlow.Proofs.Flow.Nodes
import TypeFlow.Proofs.Unification.Circles
import TypeFlow.Proofs.Unification.Layers

/-!
# Unification reaches a canonical form

After a unification no two types that the nodes lead to are equal, and a second unification finds nothing to do
(`Table.Reaches.unification_canonical`). Types that are made of each other are what endangers this, for a type
that is met again while its own components are rewritten stands for itself. The theorem has two cases:

* no two types that the nodes lead to are made of each other (`Layers`). When a representative was chosen it
  equalled no earlier one, even up to simulations that are only about the representatives of that time; and
  since a representative is made of earlier ones, equality among representatives is such a simulation
  (`Settling.distinct`). Equality is not symmetric, but it is here: derived types with equal components are the
  same, as long as equal components are, and objects have no members;
* there are cycles, and they are not twisted (`Circles`): what a type on a cycle leads to contains no second
  type that equals it.

A generic class is no component of its instances, but instances are compared through it. So the classes of
instances that look alike have to be the same (`Table.InstancesByName`).
-/

namespace TypeFlow

namespace Table

variable {t : Table} {a b : TypeId} {x y : Entry}

/-- Derived types with the same components are the same. -/
theorem Tidy.eq_of_matches (h : Tidy t) (ha : t.get? a = some x) (hb : t.get? b = some y)
    (hd : x.IsDerived) (hm : x.Matches Eq y) : a = b := by
  suffices hxy : x = y from h.interned ha (hxy ▸ hb) hd
  cases x <;> cases y <;> try exact hm.elim
  case object.object x y => exact hd.elim
  case union.union xs ys =>
    obtain ⟨hlen, hmem⟩ := hm
    have hsub : xs ⊆ ys := fun m hmx => by
      obtain ⟨n, hn, rfl⟩ := hmem m hmx
      exact hn
    have hx := (h.union ha).increasing
    have hy := (h.union hb).increasing
    have hperm := (List.subperm_of_subset (nodup_of_increasing hx) hsub).perm_of_length_le (le_of_eq hlen.symm)
    exact congrArg Entry.union (eq_of_increasing hx hy fun c => hperm.mem_iff)
  case pointer.pointer p q => exact congrArg Entry.pointer hm
  case metaclass.metaclass p q => exact congrArg Entry.metaclass hm
  case hierarchy.hierarchy p q => exact congrArg Entry.hierarchy hm

end Table

namespace Unifier

open Relation (ReflTransGen)
open Table (InstancesByName)

variable {t t₀ : Table} {u : Unifier} {under : List TypeId} {a b : TypeId} {x y : Entry}

/-! ### Equality among representatives -/

/-- One of the two is similar to the other, and both are among `ids`; or they are the same. -/
def Alike (t : Table) (ids : List TypeId) (a b : TypeId) : Prop :=
  a = b ∨ (a ∈ ids ∧ b ∈ ids) ∧ (t.Similar a b ∨ t.Similar b a)

theorem Alike.symm {ids : List TypeId} (h : Alike t ids a b) : Alike t ids b a :=
  h.imp Eq.symm fun ⟨hmem, hsim⟩ => ⟨hmem.symm, hsim.symm⟩

/-- Components that are similar are alike, if they are no types or among `ids`. -/
theorem alike_of_similar {ids : List TypeId} (ha : a = 0 ∨ a ∈ ids) (hb : b = 0 ∨ b ∈ ids)
    (h : t.Similar a b ∨ t.Similar b a) : Alike t ids a b := by
  rcases ha with rfl | ha
  · exact .inl (h.elim (·.eq_of_zero (.inl rfl)) fun hba => (hba.eq_of_zero (.inr rfl)).symm)
  · rcases hb with rfl | hb
    · exact .inl (h.elim (·.eq_of_zero (.inr rfl)) fun hba => (hba.eq_of_zero (.inl rfl)).symm)
    · exact .inr ⟨⟨ha, hb⟩, h⟩

section Chosen

variable {l l₂ : List (Fingerprint × TypeId)} {p q : Fingerprint × TypeId}

/-- Representatives up to one are made of such. -/
theorem Settling.mem_of_mem_parts (h : Settling t₀ under t u) (hsplit : u.chosen = l ++ p :: l₂)
    (ha : a ∈ (l ++ [p]).map Prod.snd) (hx : t.get? a = some x) :
    ∀ c ∈ x.parts, c = 0 ∨ c ∈ (l ++ [p]).map Prod.snd ∧ (x.IsDerived → c ∈ l.map Prod.snd) := by
  obtain ⟨q, hq, rfl⟩ := List.mem_map.mp ha
  intro c hc
  rcases List.mem_append.mp hq with hq | hq
  · obtain ⟨l₁, l₃, rfl⟩ := List.append_of_mem hq
    have hmade := h.made l₁ q (l₃ ++ p :: l₂) (by rw [hsplit]; simp) x hx c hc
    refine hmade.imp_right fun hmem => ?_
    have hin : c ∈ (l₁ ++ q :: l₃).map Prod.snd := by
      rcases hmem with hmem | ⟨rfl, -⟩
      · rw [List.map_append]
        exact List.mem_append_left _ hmem
      · exact List.mem_map.mpr ⟨q, hq, rfl⟩
    exact ⟨List.map_append (f := Prod.snd) ▸ List.mem_append_left _ hin, fun _ => hin⟩
  · obtain rfl := List.mem_singleton.mp hq
    refine (h.made l q l₂ hsplit x hx c hc).imp_right fun hmem => ?_
    rcases hmem with hmem | ⟨rfl, o, rfl⟩
    · exact ⟨List.map_append (f := Prod.snd) ▸ List.mem_append_left _ hmem, fun _ => hmem⟩
    · exact ⟨ha, False.elim⟩

/-- Derived representatives up to one are the same if they are similar, if this holds of all the earlier
ones. -/
theorem Settling.eq_of_similar_derived (h : Settling t₀ under t u) (hsplit : u.chosen = l ++ p :: l₂)
    (ih : ∀ a ∈ l.map Prod.snd, ∀ b ∈ l.map Prod.snd, t.Similar a b → a = b)
    (ha : a ∈ (l ++ [p]).map Prod.snd) (hb : b ∈ (l ++ [p]).map Prod.snd) (hx : t.get? a = some x)
    (hy : t.get? b = some y) (hd : x.IsDerived) (hm : x.Matches t.Similar y) : a = b := by
  have hdy : y.IsDerived := by
    cases x <;> cases y <;> first | exact hm.elim | exact hd
  refine h.tidy.eq_of_matches hx hy hd (hm.imp (fun c hc d hdc hcd => ?_) ?_)
  · rcases h.mem_of_mem_parts hsplit ha hx c hc with hzero | ⟨-, hcl⟩
    · exact hcd.eq_of_zero (.inl hzero)
    · rcases h.mem_of_mem_parts hsplit hb hy d hdc with hzero | ⟨-, hdl⟩
      · exact hcd.eq_of_zero (.inr hzero)
      · exact ih c (hcl hd) d (hdl hdy) hcd
  · rintro o - rfl
    exact hd.elim

/-- Being alike is a simulation among the representatives up to one. -/
theorem Settling.simulation_alike (h : Settling t₀ under t u) (hi : InstancesByName t)
    (hsplit : u.chosen = l ++ p :: l₂)
    (ih : ∀ a ∈ l.map Prod.snd, ∀ b ∈ l.map Prod.snd, t.Similar a b → a = b) :
    t.Simulation (Alike t ((l ++ [p]).map Prod.snd)) := by
  have hparts : ∀ {a x}, a ∈ (l ++ [p]).map Prod.snd → t.get? a = some x → ∀ c ∈ x.parts,
      c = 0 ∨ c ∈ (l ++ [p]).map Prod.snd := fun ha hx c hc =>
    (h.mem_of_mem_parts hsplit ha hx c hc).imp_right And.left
  rintro a b (heq | ⟨⟨ha, hb⟩, hab | hba⟩)
  · exact .inl heq
  · rcases t.simulation_similar a b hab with heq | ⟨x, y, hx, hy, hm⟩
    · exact .inl heq
    · refine .inr ⟨x, y, hx, hy, hm.imp (fun c hc d hd hcd => ?_) ?_⟩
      · exact alike_of_similar (hparts ha hx c hc) (hparts hb hy d hd) (.inl hcd)
      · rintro o o' hx' hy' -
        exact .inl (InstancesByName.generic_eq hi hx hy hm hx' hy')
  · rcases t.simulation_similar b a hba with heq | ⟨y, x, hy, hx, hm⟩
    · exact .inl heq.symm
    · by_cases hd : y.IsDerived
      · exact .inl (h.eq_of_similar_derived hsplit ih hb ha hy hx hd hm).symm
      · have hseparated : t.Separated b := Table.separated_of_not_union fun ms hms => by
          obtain rfl := Option.some.inj (hy.symm.trans hms)
          exact hd trivial
        have hflip := Table.matches_flip h.tidy hy hx hseparated hm
        refine .inr ⟨x, y, hx, hy, hflip.imp (fun c hc d hdc hcd => ?_) ?_⟩
        · exact alike_of_similar (hparts ha hx c hc) (hparts hb hy d hdc) (.inr hcd.1)
        · rintro o o' hx' hy' -
          exact .inl (InstancesByName.generic_eq hi hy hx hm hy' hx').symm

/-- A representative is similar to no earlier one, and no earlier one to it, if no two earlier ones are
similar. -/
theorem Settling.not_alike (h : Settling t₀ under t u) (hi : InstancesByName t)
    (hsplit : u.chosen = l ++ p :: l₂)
    (ih : ∀ a ∈ l.map Prod.snd, ∀ b ∈ l.map Prod.snd, t.Similar a b → a = b) (hq : q ∈ l)
    (halike : Alike t ((l ++ [p]).map Prod.snd) p.2 q.2) : p.2 = q.2 := by
  have hp : p ∈ u.chosen := by simp [hsplit]
  have hq' : q ∈ u.chosen := by simp [hsplit, hq]
  have hsim := h.simulation_alike hi hsplit ih
  have hamong : Among ((l ++ [p]).map Prod.snd) (Alike t ((l ++ [p]).map Prod.snd)) :=
    fun a b hab => hab.imp_right And.left
  by_contra hne
  -- types that are similar have the same fingerprint, and so the later one was compared with the earlier
  have hprint : ∀ {a b}, t.Similar a b → a ∈ (l ++ [p]).map Prod.snd → b ∈ (l ++ [p]).map Prod.snd →
      a ≠ b → t.fingerprint a = t.fingerprint b := by
    intro a b hab ha hb hne
    obtain ⟨x, y, hx, hy, hm⟩ := hab.exists_get? hne
    refine hab.fingerprint_eq h.tidy (Table.separated_of_not_union fun ms hms => hne ?_)
    obtain rfl := Option.some.inj (hx.symm.trans hms)
    exact h.eq_of_similar_derived hsplit ih ha hb hx hy trivial hm
  obtain ⟨⟨hpl, hql⟩, hpq | hqp⟩ := halike.resolve_left hne
  · refine h.apart l p l₂ hsplit _ hsim hamong q hq ?_ halike
    rw [h.prints q hq', h.prints p hp, hprint hpq hpl hql hne]
  · refine h.apart l p l₂ hsplit _ hsim hamong q hq ?_ halike
    rw [h.prints q hq', h.prints p hp, hprint hqp hql hpl (Ne.symm hne)]

end Chosen

/-- **No representative equals another one.** -/
theorem Settling.eq_of_similar (h : Settling t₀ under t u) (hi : InstancesByName t) (ha : a ∈ u.reps)
    (hb : b ∈ u.reps) (hab : t.Similar a b) : a = b := by
  have hprefix : ∀ l l₂, u.chosen = l ++ l₂ → ∀ a ∈ l.map Prod.snd, ∀ b ∈ l.map Prod.snd,
      t.Similar a b → a = b := by
    intro l
    induction l using List.reverseRecOn with
    | nil => simp
    | append_singleton l p ih =>
      intro l₂ hl a ha b hb hab
      have hsplit : u.chosen = l ++ p :: l₂ := by simpa using hl
      have ih := ih (p :: l₂) hsplit
      have halike : Alike t ((l ++ [p]).map Prod.snd) a b := .inr ⟨⟨ha, hb⟩, .inl hab⟩
      rw [List.map_append, List.mem_append] at ha hb
      rcases ha with ha | ha <;> rcases hb with hb | hb
      · exact ih a ha b hb hab
      · obtain rfl : b = p.2 := by simpa using hb
        obtain ⟨q, hq, rfl⟩ := List.mem_map.mp ha
        exact (h.not_alike hi hsplit ih hq halike.symm).symm
      · obtain rfl : a = p.2 := by simpa using ha
        obtain ⟨q, hq, rfl⟩ := List.mem_map.mp hb
        exact h.not_alike hi hsplit ih hq halike
      · simp only [List.map_cons, List.map_nil, List.mem_singleton] at ha hb
        exact ha.trans hb.symm
  exact hprefix u.chosen [] (by simp) a ha b hb hab

/-- Representatives come with all they are made of, and no two of them are equal. -/
theorem Settling.distinct (h : Settling t₀ under t u) (hi : InstancesByName t) : t.Distinct u.Standing where
  shown _ := h.qualified.fingerprint?_eq _
  parts {id e} hid he := by
    rcases hid with rfl | hid
    · exact absurd he nofun
    · exact h.standing_of_mem_parts hid he
  eq_of_equal {a b} ha hb heq := by
    have hab := Table.equal_iff_similar.mp heq
    rcases ha with hzero | ha
    · exact hab.eq_of_zero (.inl hzero)
    · rcases hb with hzero | hb
      · exact hab.eq_of_zero (.inr hzero)
      · exact h.eq_of_similar hi ha hb hab

/-! ### Graphs -/

section Graphs

variable {D : TypeId → Prop} {I : List TypeId → Table → Unifier → Prop} {g : Graph} {id : TypeId}

/-- The types that nodes lead to are unified: a type has a representative, or is no type, afterwards. -/
theorem Discipline.run_canonical (hd : Discipline t₀ D I) (h : I [] t u) (hv : u.visiting = []) (hid : D id) :
    ∃ c u' t', ((canonical id).run.run u).run t = ((some c, u'), t') ∧ Grows t u t' u' ∧ I [] t' u' ∧
      u'.visiting = [] ∧ u'.Standing c := by
  have hfuel : t₀.unseen u.visiting + 2 < 2 * t.size + 8 := by
    have hle := t₀.unseen_le u.visiting
    have hgrown := (hd.underway h).begun.size_le
    omega
  obtain ⟨c, u', t', hrun, hg, hstage, hc⟩ := hd.settles (2 * t.size + 8) id t u hid
    (hv ▸ .singleton id) (by simp [hv]) (hv ▸ h) hfuel
  have hI : I [] t' u' := hv ▸ hstage.inv
  exact ⟨c, u', t', (run_canonical_eq id u t).trans hrun, hg, hI, hstage.visiting_eq.trans hv,
    (hd.underway hI).standing_of_standsFor hc⟩

/-- The node gets a type that has a representative, or none, and other nodes keep theirs. -/
theorem Discipline.run_unifyNode (hd : Discipline t₀ D I) (h : I [] t u) (hv : u.visiting = [])
    (hnode : 0 < id ∧ id < g.size) (hid : D (g.typeOf id)) :
    ∃ g' u' t', ((unifyNode g id).run.run u).run t = ((some g', u'), t') ∧ Grows t u t' u' ∧ I [] t' u' ∧
      u'.visiting = [] ∧ g'.size = g.size ∧ u'.Standing (g'.typeOf id) ∧
      ∀ n, n ≠ id → g'.typeOf n = g.typeOf n := by
  obtain ⟨c, u', t', hrun, hg, hI, hv', hc⟩ := hd.run_canonical h hv hid
  have hnext : ((unifyNode g id).run.run u).run t = (((if c = g.typeOf id then return g
      else do
        modify fun u => { u with stats := { u.stats with nodes := u.stats.nodes + 1 } }
        return g.retype id c : Bounded Graph)).run.run u').run t' := by
    rw [unifyNode, OptionT.run_bind]
    exact run_bind hrun
  by_cases hsame : c = g.typeOf id
  · refine ⟨g, u', t', hnext.trans ?_, hg, hI, hv', rfl, hsame ▸ hc, fun _ _ => rfl⟩
    rw [if_pos hsame]
    rfl
  · have htype := Graph.typeOf_retype (Graph.isSome_view_iff.mpr hnode) c
    refine ⟨g.retype id c, { u' with stats := { u'.stats with nodes := u'.stats.nodes + 1 } }, t',
      hnext.trans ?_, ⟨hg.rewrites, hg.chosen, hg.known⟩, hd.of_eq hI rfl rfl, hv', ?_, ?_, fun n hn => ?_⟩
    · rw [if_neg hsame]
      rfl
    · exact Graph.size_modify _ _ _
    · rw [htype, if_pos rfl]
      exact hc
    · rw [htype, if_neg hn]

/-- **Every node gets a representative for its type**, or has no type. -/
theorem Discipline.run_unifyNodes (hd : Discipline t₀ D I) (h : I [] t u) (hv : u.visiting = [])
    {ids : List NodeId} (hids : ids.Nodup) (hnodes : ∀ n ∈ ids, 0 < n ∧ n < g.size)
    (hD : ∀ n ∈ ids, D (g.typeOf n)) (hdone : ∀ n, n ∉ ids → u.Standing (g.typeOf n)) :
    ∃ g' u' t', ((ids.foldlM unifyNode g).run.run u).run t = ((some g', u'), t') ∧ I [] t' u' ∧
      ∀ n, u'.Standing (g'.typeOf n) := by
  induction ids generalizing g t u with
  | nil => exact ⟨g, u, t, rfl, h, fun n => hdone n (by simp)⟩
  | cons id ids ih =>
    obtain ⟨hid, hids⟩ := List.nodup_cons.mp hids
    obtain ⟨hnode, hnodes⟩ := List.forall_mem_cons.mp hnodes
    obtain ⟨hDid, hD⟩ := List.forall_mem_cons.mp hD
    obtain ⟨g₁, u₁, t₁, hrun₁, hg₁, hI₁, hv₁, hsize, hc, hother⟩ := hd.run_unifyNode h hv hnode hDid
    have hne : ∀ n ∈ ids, n ≠ id := fun n hn heq => hid (heq ▸ hn)
    obtain ⟨g₂, u₂, t₂, hrun₂, hI₂, hall⟩ := ih hI₁ hv₁ hids (hsize ▸ hnodes)
      (fun n hn => hother n (hne n hn) ▸ hD n hn) fun n hn => by
        rcases eq_or_ne n id with rfl | hnid
        · exact hc
        · rw [hother n hnid]
          exact (hdone n fun hmem => (List.mem_cons.mp hmem).elim hnid hn).mono hg₁
    refine ⟨g₂, u₂, t₂, ?_, hI₂, hall⟩
    rw [List.foldlM_cons, OptionT.run_bind]
    exact (run_bind hrun₁).trans hrun₂

/-- All nodes of a graph get representatives for their types. -/
theorem Discipline.run_unifyGraph (hd : Discipline t₀ D I) (h : I [] t u) (hv : u.visiting = [])
    (hD : ∀ n, D (g.typeOf n)) :
    ∃ g' u' t', ((unifyGraph g).run.run u).run t = ((some g', u'), t') ∧ I [] t' u' ∧
      ∀ n, u'.Standing (g'.typeOf n) := by
  have hmem : ∀ n, n ∈ (List.range g.nodes.size).map (· + 1) ↔ 0 < n ∧ n < g.size := by
    intro n
    simp only [List.mem_map, List.mem_range, Graph.size]
    constructor
    · rintro ⟨k, hk, rfl⟩
      omega
    · rintro ⟨hpos, hlt⟩
      exact ⟨n - 1, by omega, by omega⟩
  have hnodup : ((List.range g.nodes.size).map (· + 1)).Nodup :=
    List.nodup_range.map fun a b => Nat.succ.inj
  refine hd.run_unifyNodes h hv hnodup (fun n hn => (hmem n).mp hn) (fun n _ => hD n) fun n hn => .inl ?_
  -- what is no node has no type
  have hnone : g.view n = none := by
    rw [← Option.not_isSome_iff_eq_none, Graph.isSome_view_iff]
    exact fun hnode => hn ((hmem n).mpr hnode)
  rw [Graph.typeOf_eq, hnone]
  rfl

/-- What the nodes of a graph lead to is in canonical form: no two types that they lead to are equal, and a new
unifier leaves all nodes and the table as they are and folds nothing. -/
def Canonical (digest : Fingerprint → UInt64) (t : Table) (g : Graph) : Prop :=
  (∀ m n a b, ReflTransGen t.MadeOf (g.typeOf m) a → ReflTransGen t.MadeOf (g.typeOf n) b →
    t.equal a b = true → a = b) ∧
  ∃ u, ((unifyGraph g).run.run { digest }).run t = ((some g, u), t) ∧ u.stats.nodes = 0 ∧ u.stats.folded = 0

/-- Unification reaches a canonical form if representatives are distinct in the end. -/
theorem Discipline.canonical_unifyGraph (hd : Discipline t₀ D I) (digest : Fingerprint → UInt64)
    (h : I [] t₀ { digest }) (hD : ∀ n, D (g.typeOf n)) (hdistinct : ∀ t u, I [] t u → t.Distinct u.Standing) :
    ∃ g' u t', ((unifyGraph g).run.run { digest }).run t₀ = ((some g', u), t') ∧ Canonical digest t' g' := by
  obtain ⟨g', u, t', hrun, hI, hstanding⟩ := hd.run_unifyGraph h rfl hD
  have hdist := hdistinct t' u hI
  have hreached : ∀ n a, ReflTransGen t'.MadeOf (g'.typeOf n) a → u.Standing a := by
    intro n a ha
    induction ha with
    | refl => exact hstanding n
    | tail _ hab ih =>
      obtain ⟨e, he, hmem⟩ := hab
      exact hdist.parts ih he _ hmem
  obtain ⟨u', hrun', hidle, -⟩ :=
    gives_unifyGraph (hd.underway hI).tidy hdist (idle_empty digest) hstanding
  refine ⟨g', u, t', hrun, fun m n a b ha hb heq => ?_, u', hrun', hidle.nodes, hidle.folded⟩
  exact hdist.eq_of_equal (hreached m a ha) (hreached n b hb) heq

end Graphs

end Unifier

namespace Table

open Relation (ReflTransGen)

variable {t : Table} {g : Graph}

/-- What the nodes of a graph lead to. -/
def Led (t : Table) (g : Graph) (a : TypeId) : Prop :=
  ∃ n, ReflTransGen t.MadeOf (g.typeOf n) a

theorem Regular.lt_of_led (h : Regular t) (hg : ∀ n, g.typeOf n < t.size) {a : TypeId} (ha : Led t g a) :
    a < t.size := by
  obtain ⟨n, ha⟩ := ha
  rcases ha.cases_tail with rfl | ⟨b, -, e, he, hmem⟩
  · exact hg n
  · exact h.closed b e he a (Entry.mem_compared_of_mem_parts hmem)

/-- Only an object is made of itself: a derived type is made of older types. -/
theorem Regular.object_of_mem_parts (h : Regular t) {a : TypeId} {e : Entry} (he : t.get? a = some e)
    (hmem : a ∈ e.parts) : ∃ o, e = .object o := by
  have hd : ¬ e.IsDerived := fun hd => Nat.lt_irrefl a (h.older he hd a hmem)
  cases e with
  | object o => exact ⟨o, rfl⟩
  | pointer p | union ms | metaclass c | hierarchy c => exact absurd trivial hd
  | _ => simp [Entry.parts] at hmem

/-- What the nodes of a graph lead to is layered, if no two types of it are made of each other. -/
theorem Regular.layered (h : Regular t) (hg : ∀ n, g.typeOf n < t.size)
    (hcycles : ∀ a b, Led t g a → ReflTransGen t.MadeOf a b → ReflTransGen t.MadeOf b a → a = b) :
    Layered t (Led t g) where
  lt := h.lt_of_led hg
  parts := by
    rintro a b ⟨n, ha⟩ hab
    exact ⟨n, ha.tail hab⟩
  antisymm := hcycles _ _
  object _ := h.object_of_mem_parts

/-- What the nodes of a graph lead to may be unified if its cycles are not twisted. -/
theorem Regular.loops (h : Regular t) (hi : InstancesByName t) (hg : ∀ n, g.typeOf n < t.size)
    (hcycles : Untwisted t (Led t g)) : Loops t (Led t g) where
  tidy := h.toTidy
  instances := hi
  lt := h.lt_of_led hg
  parts := by
    rintro a x ⟨n, ha⟩ hx b hb
    exact ⟨n, ha.tail ⟨x, hx, hb⟩⟩
  separated := hcycles.separated
  unrepeated ha hcyclic hab hsim := hcycles.unrepeated ha hcyclic hab (equal_iff_similar.mpr hsim)
  firm := hcycles.firm
  object _ := h.object_of_mem_parts
  noReturn := ⟨_, h.grounded.noReturn, trivial⟩

/-- **Unification reaches a canonical form in one pass** if no two types that the nodes lead to are made of
each other, or if cycles among them are not twisted. Afterwards no two types that the nodes lead to are equal, and a
new unifier leaves all nodes and the table as they are and folds nothing. -/
theorem Reaches.unification_canonical (h : Reaches initial t) (hq : Qualified t) (hi : InstancesByName t)
    (hg : ∀ n, g.typeOf n < t.size)
    (hcycles : (∀ a b, Led t g a → ReflTransGen t.MadeOf a b → ReflTransGen t.MadeOf b a → a = b) ∨
      Untwisted t (Led t g)) (digest : Fingerprint → UInt64) :
    ∃ g' u t', ((Unifier.unifyGraph g).run.run { digest }).run t = ((some g', u), t') ∧
      Unifier.Canonical digest t' g' := by
  have hr := (h.lasts kept_regular regular_initial).1
  have hbegin := Unifier.Underway.empty hr.toTidy hr.closed hq digest
  rcases hcycles with hcycles | hcycles
  · exact (Unifier.discipline_settling (hr.layered hg hcycles)).canonical_unifyGraph digest (.empty hbegin rfl)
      (fun n => ⟨n, .refl⟩) fun t' u hs => hs.distinct (hs.begun.instancesByName hi)
  · have hl := hr.loops hi hg hcycles
    exact (Unifier.discipline_circling hl).canonical_unifyGraph digest ⟨id, .empty hbegin rfl rfl id⟩
      (fun n => ⟨n, .refl⟩) fun t' u ⟨src, hs⟩ => hs.distinct hl

/-- A list of types that comes with all its types are made of holds whatever they lead to. -/
theorem mem_of_reaches {xs : List TypeId} (hclosed : ∀ a ∈ xs, ∀ e ∈ t.get? a, ∀ b ∈ e.parts, b ∈ xs)
    {a b : TypeId} (ha : a ∈ xs) (hab : ReflTransGen t.MadeOf a b) : b ∈ xs := by
  induction hab with
  | refl => exact ha
  | tail _ hbc ih =>
    obtain ⟨e, he, hc⟩ := hbc
    exact hclosed _ ih e he _ hc

/-- Two objects of one name, 14 and 15, each of which leads to nil or itself, 16 and 17, and pointers to the
latter, 18. -/
def links : Table :=
  Operation.runAll [.pointerOf 17] chains

/-- Nodes for pointers, the unions, and the second of the objects. -/
def linksGraph : Graph :=
  ⟨#[{ label := "at", type := 18 }, { label := "one", type := 16 }, { label := "other", type := 17 },
    { label := "twin", type := 15 }]⟩

/-- The cycles of the linked objects are not twisted. -/
theorem untwisted_links : links.Untwisted (links.Led linksGraph) := by
  let below (a : TypeId) : List TypeId :=
    if a = 14 ∨ a = 16 then [Builtin.nil, 14, 16]
    else if a = 15 ∨ a = 17 then [Builtin.nil, 15, 17]
    else if a = 18 then [Builtin.nil, 15, 17, 18]
    else [a]
  have hbelow : ∀ a < links.size, a ∈ below a ∧
      (∀ c ∈ below a, ∀ e ∈ links.get? c, ∀ b ∈ e.parts, b ∈ below a) ∧
      ∀ b ∈ below a, links.equal a b = true → a = b := by
    decide +kernel
  have hlt : ∀ a, links.Led linksGraph a → a < links.size := by
    rintro a ⟨n, ha⟩
    have hall : ∀ a ∈ List.range links.size, ∀ e ∈ links.get? a, ∀ b ∈ e.parts, b ∈ List.range links.size := by
      decide +kernel
    refine List.mem_range.mp (mem_of_reaches hall (List.mem_range.mpr ?_) ha)
    rcases n with _ | _ | _ | _ | _ | n
    case succ.succ.succ.succ.succ => exact links.size_pos
    all_goals decide +kernel
  refine ⟨fun {a} ha => ?_, fun {a b} ha _ hab heq => ?_, fun {a m} ha _ hm => ?_⟩
  · exact (by decide +kernel : ∀ a < links.size, links.Separated a) a (hlt a ha)
  · obtain ⟨hself, hclosed, hdiffer⟩ := hbelow a (hlt a ha)
    exact hdiffer b (mem_of_reaches hclosed hself hab) heq
  · have hmember : ∀ a < links.size, ∀ m ∈ links.members a,
        m = a ∨ (∃ e ∈ links.get? m, a ∈ e.parts) ∨ m = Builtin.nil := by
      decide +kernel
    rcases hmember a (hlt a ha) m hm with rfl | ⟨e, he, hmem⟩ | rfl
    · exact .inl .refl
    · exact .inl (.single ⟨e, he, hmem⟩)
    · refine .inr fun b c hb hc heq => ?_
      obtain ⟨hself, hclosed, -⟩ := hbelow Builtin.nil (by decide +kernel)
      obtain rfl := List.mem_singleton.mp (mem_of_reaches hclosed hself hb)
      exact (by decide +kernel : ∀ c < links.size, links.equal Builtin.nil c = true → Builtin.nil = c) c (hlt c hc) heq

/-- Two cyclic types that were made apart become one: a pair of types on a cycle each. -/
theorem unification_canonical_links :
    links.MadeOf 14 16 ∧ links.MadeOf 16 14 ∧ links.equal 16 17 = true ∧
    ∃ g' u t', ((Unifier.unifyGraph linksGraph).run.run {}).run links = ((some g', u), t') ∧
      Unifier.Canonical Fingerprint.digest t' g' := by
  have hentries : ∀ id < links.size, (∀ e ∈ links.get? id, e.kind ≠ .struct ∧ e.kind ≠ .const) ∧
      ∀ o ∈ links.object? id, o.generic = 0 := by
    decide +kernel
  have hentry : ∀ {id e}, links.get? id = some e → e.kind ≠ .struct ∧ e.kind ≠ .const :=
    fun he => (hentries _ (lt_size_of_get? he)).1 _ he
  have hgeneric : ∀ {id o}, links.get? id = some (.object o) → o.generic = 0 := fun {id o} ho =>
    (hentries id (lt_size_of_get? ho)).2 o (object?_eq_some_iff.mpr ho)
  have hmade : (∃ e ∈ links.get? 14, 16 ∈ e.parts) ∧ ∃ e ∈ links.get? 16, 14 ∈ e.parts := by
    decide +kernel
  have hchains : Reaches initial chains := reaches_twins.runAll (by decide +kernel)
  refine ⟨hmade.1, hmade.2, by decide +kernel, Reaches.unification_canonical (hchains.runAll (by decide +kernel))
    ⟨fun hs => absurd rfl (hentry hs).1, fun hc => absurd rfl (hentry hc).2⟩
    (fun ha _ _ hne => absurd (hgeneric ha) hne) ?_ (.inr untwisted_links) _⟩
  intro n
  rcases n with _ | _ | _ | _ | _ | n
  case succ.succ.succ.succ.succ => exact links.size_pos
  all_goals decide +kernel

/-- The twins, 14 and 15, each of which leads to the other. -/
def knot : Table :=
  Operation.runAll [.setIVar 14 "@other" 15, .setIVar 15 "@other" 14] twins

/-- A node for the first of the twins. -/
def knotGraph : Graph :=
  ⟨#[{ label := "twin", type := 14 }]⟩

/-- Types that are made of each other may need a second unification: the second twin is made of the first, which
stands for itself while it is visited, but gets the second for its representative afterwards. -/
theorem unification_repeats_knot :
    Reaches initial knot ∧ knot.MadeOf 14 15 ∧ knot.MadeOf 15 14 ∧
    ∃ g' u t', ((Unifier.unifyGraph knotGraph).run.run {}).run knot = ((some g', u), t') ∧
      (((Unifier.unifyGraph g').run.run {}).run t').1.2.stats = { canonical := 1, folded := 1, nodes := 1 } := by
  refine ⟨reaches_twins.runAll (by decide +kernel), ⟨_, rfl, by decide⟩, ⟨_, rfl, by decide⟩,
    ⟨#[{ label := "twin", type := 15 }]⟩, (((Unifier.unifyGraph knotGraph).run.run {}).run knot).1.2,
    (((Unifier.unifyGraph knotGraph).run.run {}).run knot).2, Prod.ext (Prod.ext ?_ rfl) rfl, ?_⟩
  · cbv
  · cbv

end Table

end TypeFlow
