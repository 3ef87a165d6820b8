import TypeFlow.Proofs.Unification
import TypeFlow.Proofs.Unification.Likeness
import TypeFlow.Proofs.Unification.Representatives

/-!
# Components under unification

A type is rebuilt from what stands for its components. Here this is followed for whatever may be known of
the components (`keeps_rebuild`): if an invariant of table and unifier survives the unification of each
component, and what stands for a component has a property that lasts, then the type that is built has
components with this property, or has the property itself.

`Keeps I t u x Q` is the common form of the statements: run with the unifier `u` on the table `t`, the
computation `x` does not run out of steps, it ends in a state with the invariant `I`, and its result has the
property `Q`.
-/

namespace TypeFlow

namespace Table

variable {t : Table}

/-- Of equal members one is kept. -/
theorem dropEqual_pairwise (kept ids : List TypeId)
    (h : kept.reverse.Pairwise fun a b => t.equal a b = false) :
    (t.dropEqual kept ids).Pairwise fun a b => t.equal a b = false := by
  induction ids generalizing kept with
  | nil => rwa [dropEqual]
  | cons id rest ih =>
    rw [dropEqual]
    split
    · exact ih kept h
    · rename_i hany
      refine ih _ ?_
      rw [List.reverse_cons, List.pairwise_append]
      refine ⟨h, List.pairwise_singleton _ _, fun a ha b hb => ?_⟩
      obtain rfl := List.mem_singleton.mp hb
      simp only [List.any_eq_true, not_exists, not_and, Bool.not_eq_true] at hany
      exact hany a ha

/-- No two flattened members are equal. -/
theorem flatten_pairwise (t : Table) (ids : List TypeId) :
    (t.flatten ids).Pairwise fun a b => t.equal a b = false := by
  unfold flatten
  have hkept := t.dropEqual_pairwise [] (sortedUnique ((ids.flatMap t.members).filter
    (· ≠ Builtin.noReturn))) List.Pairwise.nil
  simp only
  split
  · split
    · exact List.pairwise_singleton _ _
    · exact List.Pairwise.nil
  · exact hkept

/-- A flattened member is a member of one of the types. -/
theorem exists_of_mem_flatten {ids : List TypeId} {m : TypeId} (h : m ∈ t.flatten ids) :
    ∃ id ∈ ids, m ∈ t.members id := by
  unfold flatten at h
  simp only at h
  rw [← List.mem_flatMap]
  split at h
  · split at h
    · rename_i hin
      exact List.mem_singleton.mp h ▸ hin
    · simp at h
  · have hrest := (t.dropEqual_sublist [] _).subset h
    rw [List.reverse_nil, List.nil_append, mem_sortedUnique, List.mem_filter] at hrest
    exact hrest.1

/-- Flat members stay what they are if types are added. -/
theorem Enlarges.flatten_eq (hl : Enlarges t t') (hc : Contained t) {ids : List TypeId} (hids : ∀ c ∈ ids, c < t.size) :
    t'.flatten ids = t.flatten ids := by
  have hmembers : ∀ c ∈ ids, t'.members c = t.members c := fun c hmem => by
    rw [members, members, hl.get?_eq (hids c hmem)]
  have hlt : ∀ m ∈ ids.flatMap t.members, m < t.size := by
    intro m hm
    obtain ⟨c, hmem, hm⟩ := List.mem_flatMap.mp hm
    rw [members] at hm
    split at hm
    · rename_i ms hms
      exact hc c _ hms m (Entry.mem_compared_of_mem_parts hm)
    · split at hm
      · cases hm
      · exact List.mem_singleton.mp hm ▸ hids c hmem
  have hkept : ∀ xs kept : List TypeId, (∀ x ∈ xs, x < t.size) → (∀ x ∈ kept, x < t.size) →
      t'.dropEqual kept xs = t.dropEqual kept xs := by
    intro xs
    induction xs with
    | nil => exact fun _ _ _ => rfl
    | cons x xs ih =>
      intro kept hxs hkept
      obtain ⟨hx, hxs⟩ := List.forall_mem_cons.mp hxs
      have hany : kept.reverse.any (t'.equal · x) = kept.reverse.any (t.equal · x) := by
        rw [Bool.eq_iff_iff, List.any_eq_true, List.any_eq_true]
        refine exists_congr fun k => and_congr_right fun hk => ?_
        rw [hl.equal_eq hc (hkept k (List.mem_reverse.mp hk)) hx]
      rw [dropEqual, dropEqual, hany, ih kept hxs hkept,
        ih (x :: kept) hxs (List.forall_mem_cons.mpr ⟨hx, hkept⟩)]
  unfold flatten
  simp only
  rw [List.flatMap_congr hmembers, hkept _ [] (fun x hx => hlt x ?_) (List.forall_mem_nil _)]
  exact (List.mem_filter.mp (mem_sortedUnique.mp hx)).1

/-- What holds of instance variables item by item when the type of one of them is set. -/
theorem forall₂_setIVar {P S : String × TypeId → String × TypeId → Prop} {vs ws : List (String × TypeId)}
    {name : String} {type : TypeId} (h : List.Forall₂ P vs ws) (hnames : ∀ v w, P v w → v.1 = w.1)
    (hnodup : (vs.map Prod.fst).Nodup) (hname : name ∈ vs.map Prod.fst)
    (hset : ∀ v ∈ vs, v.1 = name → S v (name, type)) (hkeep : ∀ v ∈ vs, ∀ w, v.1 ≠ name → P v w → S v w) :
    List.Forall₂ S vs (ObjectEntry.setIVar.set name type ws) := by
  induction h with
  | nil => cases hname
  | @cons v w vs ws hvw h ih =>
    obtain ⟨hnew, hnodup⟩ := List.nodup_cons.mp hnodup
    obtain ⟨hsetv, hset⟩ := List.forall_mem_cons.mp hset
    obtain ⟨hkeepv, hkeep⟩ := List.forall_mem_cons.mp hkeep
    rw [ObjectEntry.setIVar.set]
    by_cases hv : v.1 = name
    · rw [if_pos (by simp [← hnames v w hvw, hv])]
      refine .cons (by rw [← hnames v w hvw, hv]; exact hsetv hv) ?_
      -- no other one has the name
      have hmem := (List.forall₂_and_left (p := fun v' => v' ∈ vs) vs ws).mpr ⟨fun _ hv' => hv', h⟩
      refine hmem.imp fun v' w' h' => hkeep v' h'.1 w' (fun heq => hnew ?_) h'.2
      rw [hv, ← heq]
      exact List.mem_map_of_mem h'.1
    · rw [if_neg (by simpa [← hnames v w hvw] using hv)]
      have hrest : name ∈ vs.map Prod.fst := (List.mem_cons.mp hname).resolve_left (Ne.symm hv)
      exact .cons (hkeepv w hv hvw) (ih hnodup hrest hset hkeep)

end Table

namespace Unifier

open Table (Tidy Contained Rewrites Enlarges)

variable {t t' : Table} {u u' : Unifier} {id : TypeId} {α β : Type} {I J : Table → Unifier → Prop}

/-! ### Computations that keep an invariant -/

/-- Run with `u` on `t`, the computation does not run out of steps; it ends in a state with the invariant `I`,
and its result has the property `Q`. -/
def Keeps (I : Table → Unifier → Prop) (t : Table) (u : Unifier) (x : Bounded α)
    (Q : Table → Unifier → α → Prop) : Prop :=
  ∃ a u' t', (x.run.run u).run t = ((some a, u'), t') ∧ Grows t u t' u' ∧ I t' u' ∧ Q t' u' a

namespace Keeps

variable {P : Table → Unifier → α → Prop} {Q : Table → Unifier → β → Prop}

theorem pure (hI : I t u) {a : α} (ha : P t u a) : Keeps I t u (pure a) P :=
  ⟨a, u, t, rfl, .refl t u, hI, ha⟩

theorem bind {x : Bounded α} {f : α → Bounded β} (hx : Keeps I t u x P)
    (hf : ∀ a t' u', Grows t u t' u' → I t' u' → P t' u' a → Keeps J t' u' (f a) Q) :
    Keeps J t u (x >>= f) Q := by
  obtain ⟨a, u₁, t₁, hrun, hgrows, hI, ha⟩ := hx
  obtain ⟨b, u₂, t₂, hrun₂, hgrows₂, hJ, hb⟩ := hf a t₁ u₁ hgrows hI ha
  refine ⟨b, u₂, t₂, ?_, hgrows.trans hgrows₂, hJ, hb⟩
  rw [OptionT.run_bind]
  exact (run_bind hrun).trans hrun₂

theorem imp {P' : Table → Unifier → α → Prop} {x : Bounded α} (hx : Keeps I t u x P)
    (hI : ∀ t' u', Grows t u t' u' → I t' u' → J t' u')
    (hP : ∀ t' u' a, Grows t u t' u' → I t' u' → P t' u' a → P' t' u' a) : Keeps J t u x P' := by
  obtain ⟨a, u', t', hrun, hgrows, hI', ha⟩ := hx
  exact ⟨a, u', t', hrun, hgrows, hI t' u' hgrows hI', hP t' u' a hgrows hI' ha⟩

/-- A computation on the table. -/
theorem onTable {x : TableM α} {a : α} (hx : x.run t = (a, t')) (hr : Rewrites t t') (hI : I t' u)
    (ha : P t' u a) : Keeps I t u (liftM x) P := by
  have hlift : ((liftM x : Bounded α).run.run u).run t = ((some (x.run t).1, u), (x.run t).2) := rfl
  rw [hx] at hlift
  exact ⟨a, u, t', hlift, .of_rewrites hr, hI, ha⟩

/-- A computation on the unifier. -/
theorem of_runs {x : Bounded α} {a : α} (hx : Runs t u x.run (some a) u') (hg : Grows t u t u')
    (hI : I t u') (ha : P t u' a) : Keeps I t u x P :=
  ⟨a, u', t, hx, hg, hI, ha⟩

end Keeps

/-- What is kept after a computation on the unifier. -/
theorem Runs.keeps_bind {P : Table → Unifier → β → Prop} {x : Bounded α} {f : α → Bounded β} {a : α}
    (hx : Runs t u x.run (some a) u') (hg : Grows t u t u') (hf : Keeps J t u' (f a) P) :
    Keeps J t u (x >>= f) P := by
  have hstart : Keeps (fun t'' u'' => t'' = t ∧ u'' = u') t u x fun _ _ b => b = a :=
    .of_runs hx hg ⟨rfl, rfl⟩ rfl
  refine hstart.bind ?_
  rintro _ _ _ - ⟨rfl, rfl⟩ rfl
  exact hf

/-! ### Components -/

/-- What the unifier gives for a type while the types `under` are dealt with: what was noted for it, or the type
itself if it is no type or one of `under`. -/
def StandsFor (under : List TypeId) (u : Unifier) (a c : TypeId) : Prop :=
  u.known? a = some c ∨ c = a ∧ (a = 0 ∨ a ∈ under)

theorem StandsFor.mono {under : List TypeId} {a c : TypeId} (h : StandsFor under u a c) (hg : Grows t u t' u') :
    StandsFor under u' a c :=
  h.imp_left hg.known

/-- What unifying the components of a type has to respect: the invariant `I` allows for derived types to be
added, and for components of the type to be exchanged for what stands for them. -/
structure Regime (under : List TypeId) (id : TypeId) (I : Table → Unifier → Prop) : Prop where
  sane : ∀ {t u}, I t u → Sane t u
  add : ∀ {t t' u}, I t u → Enlarges t t' → Tidy t' → Contained t' → I t' u
  change : ∀ {t u} {f : ObjectEntry → ObjectEntry}, I t u →
    (∀ o, t.get? id = some (.object o) → o.Exchanges (fun a c => a = c ∨ StandsFor under u a c) (f o)) →
    I ((Table.modifyObject id f).run t).2 u
  lt : ∀ {t u a c}, I t u → StandsFor under u a c → c < t.size

/-- What a type is rebuilt to from what `P` gives for its components: an object gets other components, and a derived
type is replaced by the one that is made of them. -/
inductive Rebuilt (P : TypeId → TypeId → Prop) (t : Table) (id : TypeId) : Entry → TypeId → Prop
  | object {o o' : ObjectEntry} : o.Exchanges P o' → t.get? id = some (.object o') → Rebuilt P t id (.object o) id
  | pointer {a c built : TypeId} : P a c → t.get? built = some (.pointer c) → Rebuilt P t id (.pointer a) built
  | metaclass {a c built : TypeId} : P a c → t.get? built = some (.metaclass c) →
    Rebuilt P t id (.metaclass a) built
  | hierarchy {a c built : TypeId} : P a c → t.get? built = some (.hierarchy c) →
    Rebuilt P t id (.hierarchy a) built
  | union {ms cs : List TypeId} {built : TypeId} : List.Forall₂ P ms cs →
    ((t.flatten cs = [] ∧ built = 0) ∨ t.flatten cs = [built] ∨ t.get? built = some (.union (t.flatten cs))) →
    Rebuilt P t id (.union ms) built
  | lone {e : Entry} : e.Lone → t.get? id = some e → Rebuilt P t id e id

theorem Rebuilt.imp {P S : TypeId → TypeId → Prop} {e : Entry} {built : TypeId} (hPS : ∀ a c, P a c → S a c)
    (h : Rebuilt P t id e built) : Rebuilt S t id e built := by
  cases h with
  | object ho ho' => exact .object (ho.imp hPS) ho'
  | pointer hac hb => exact .pointer (hPS _ _ hac) hb
  | metaclass hac hb => exact .metaclass (hPS _ _ hac) hb
  | hierarchy hac hb => exact .hierarchy (hPS _ _ hac) hb
  | union hall hb => exact .union (hall.imp hPS) hb
  | lone hl he => exact .lone hl he

section Components

variable {canonical : TypeId → Bounded TypeId} {under : List TypeId}

/-- While a component is unified, the type stays as it is. -/
def Replaces (under : List TypeId) (id : TypeId) (I : Table → Unifier → Prop) (canonical : TypeId → Bounded TypeId)
    (a : TypeId) : Prop :=
  ∀ t u, I t u → Keeps I t u (canonical a) fun t' u' c => StandsFor under u' a c ∧ t'.get? id = t.get? id

/-- Components of the type are exchanged. -/
theorem keeps_modifyObject (hr : Regime under id I) (hI : I t u) {o : ObjectEntry}
    (ho : t.get? id = some (.object o)) {f : ObjectEntry → ObjectEntry}
    (hf : o.Exchanges (fun a c => a = c ∨ StandsFor under u a c) (f o)) :
    Keeps I t u (liftM (Table.modifyObject id f)) fun t' _ _ => t'.get? id = some (.object (f o)) := by
  have hthis : ∀ p, t.get? id = some (.object p) → p.Exchanges (fun a c => a = c ∨ StandsFor under u a c) (f p) := by
    intro p hp
    obtain rfl := Entry.object.inj (Option.some.inj (hp.symm.trans ho))
    exact hf
  refine .onTable rfl (Table.rewrites_modifyObject fun p hp => (hthis p hp).sameShape) (hr.change hI hthis) ?_
  have hget := t.get?_modifyObject id id f
  rwa [if_pos rfl, ho] at hget

/-- Type arguments `as` are replaced one after the other, those from `i` on at last. -/
theorem keeps_unifyArgs (hr : Regime under id I) {o : ObjectEntry} {i : Nat} {as rest : List TypeId}
    (hcanon : ∀ a ∈ rest, Replaces under id I canonical a) (hI : I t u) (ho : t.get? id = some (.object o))
    (hrest : o.typeArgs.drop i = rest) (has : as.drop i = rest)
    (hdone : List.Forall₂ (StandsFor under u) (as.take i) (o.typeArgs.take i)) :
    Keeps I t u (unifyArgs canonical id i rest) fun t' u' _ =>
      ∃ o', t'.get? id = some (.object o') ∧ o'.ivars = o.ivars ∧
        List.Forall₂ (StandsFor under u') as o'.typeArgs := by
  induction rest generalizing i t u o with
  | nil =>
    refine .pure hI ⟨o, ho, rfl, ?_⟩
    rwa [List.take_of_length_le (List.drop_eq_nil_iff.mp hrest),
      List.take_of_length_le (List.drop_eq_nil_iff.mp has)] at hdone
  | cons a rest ih =>
    obtain ⟨ha, hcanon⟩ := List.forall_mem_cons.mp hcanon
    have hi : i < o.typeArgs.length := by
      have hlen := congrArg List.length hrest
      simp only [List.length_drop, List.length_cons] at hlen
      omega
    have hi' : i < as.length := by
      have hlen := congrArg List.length has
      simp only [List.length_drop, List.length_cons] at hlen
      omega
    rw [List.drop_eq_getElem_cons hi] at hrest
    rw [List.drop_eq_getElem_cons hi'] at has
    obtain ⟨hat, hrest⟩ := List.cons.inj hrest
    obtain ⟨hat', has⟩ := List.cons.inj has
    refine (ha t u hI).bind fun c t₁ u₁ hg₁ hI₁ ⟨hc, hsame⟩ => ?_
    have hset : List.Forall₂ (fun a c => a = c ∨ StandsFor under u₁ a c) o.typeArgs (o.typeArgs.set i c) := by
      refine List.forall₂_iff_get.mpr ⟨List.length_set.symm, fun k hk hk' => ?_⟩
      rw [List.get_eq_getElem, List.get_eq_getElem, List.getElem_set]
      split
      · rename_i heq
        subst heq
        exact .inr (hat ▸ hc)
      · exact .inl rfl
    refine (keeps_modifyObject hr hI₁ (hsame.trans ho)
      ⟨rfl, hset, List.forall₂_same.mpr fun v _ => ⟨rfl, .inl rfl⟩⟩).bind fun _ t₂ u₂ hg₂ hI₂ ho₂ => ?_
    refine ih (o := { o with typeArgs := o.typeArgs.set i c }) hcanon hI₂ ho₂ ?_ has ?_
    · rw [List.drop_set_of_lt (Nat.lt_succ_self i)]
      exact hrest
    · rw [List.take_succ_eq_append_getElem hi', List.take_succ_eq_append_getElem (by simpa using hi),
        List.take_set_of_le (Nat.le_refl i), List.getElem_set_self, hat']
      have hlast : List.Forall₂ (StandsFor under u₂) [a] [c] := .cons (hc.mono hg₂) .nil
      exact List.rel_append (hdone.imp fun _ _ hac => hac.mono (hg₁.trans hg₂)) hlast

/-- The types of the instance variables `vs` are replaced one after the other, those of `rest` at last. -/
theorem keeps_unifyIVars (hr : Regime under id I) {o : ObjectEntry} {l rest : List (String × TypeId)}
    (hcanon : ∀ v ∈ rest, Replaces under id I canonical v.2) (hI : I t u) (ho : t.get? id = some (.object o))
    (hsub : rest ⊆ l) (hnodup : (l.map Prod.fst).Nodup) (hrest : rest.Nodup)
    (hdone : List.Forall₂ (fun v w => v.1 = w.1 ∧ if v ∈ rest then v = w else StandsFor under u v.2 w.2) l o.ivars) :
    Keeps I t u (unifyIVars canonical id rest) fun t' u' _ =>
      ∃ o', t'.get? id = some (.object o') ∧ o'.typeArgs = o.typeArgs ∧
        List.Forall₂ (fun v w => v.1 = w.1 ∧ StandsFor under u' v.2 w.2) l o'.ivars := by
  induction rest generalizing t u o with
  | nil =>
    refine .pure hI ⟨o, ho, rfl, hdone.imp fun v w ⟨hname, hw⟩ => ⟨hname, ?_⟩⟩
    rwa [if_neg List.not_mem_nil] at hw
  | cons x rest ih =>
    obtain ⟨name, type⟩ := x
    obtain ⟨htype, hcanon⟩ := List.forall_mem_cons.mp hcanon
    obtain ⟨hx, hsub⟩ := List.cons_subset.mp hsub
    obtain ⟨hnew, hrest⟩ := List.nodup_cons.mp hrest
    have honly : ∀ v ∈ l, v.1 = name → v = (name, type) := fun v hv heq =>
      List.inj_on_of_nodup_map hnodup hv hx heq
    refine (htype t u hI).bind fun c t₁ u₁ hg₁ hI₁ ⟨hc, hsame⟩ => ?_
    have ho₁ := hsame.trans ho
    have hchange : o.Exchanges (fun a c => a = c ∨ StandsFor under u₁ a c) (o.setIVar name c) := by
      refine ⟨rfl, List.forall₂_same.mpr fun _ _ => .inl rfl, ?_⟩
      have hset : (o.ivars.map Prod.fst) = l.map Prod.fst := by
        refine (List.forall₂_eq_eq_eq ▸ List.forall₂_map_left_iff.mpr (List.forall₂_map_right_iff.mpr ?_) :)
        exact hdone.flip.imp fun _ _ hvw => hvw.1.symm
      refine Table.forall₂_setIVar (P := Eq) (List.forall₂_same.mpr fun _ _ => rfl) (fun v w hvw => hvw ▸ rfl)
        (hset ▸ hnodup) (hset ▸ List.mem_map_of_mem hx) (fun w hw heq => ⟨heq, .inr ?_⟩)
        fun v _ w _ hvw => hvw ▸ ⟨rfl, .inl rfl⟩
      -- the variable has had no other type until now
      obtain ⟨v, hv, hname, hvw⟩ := exists_of_mem_right hdone hw
      obtain rfl := honly v hv (hname.trans heq)
      rw [if_pos List.mem_cons_self] at hvw
      exact hvw ▸ hc
    refine (keeps_modifyObject hr hI₁ ho₁ hchange).bind fun _ t₂ u₂ hg₂ hI₂ ho₂ => ?_
    refine ih (o := o.setIVar name c) hcanon hI₂ ho₂ hsub hrest ?_
    refine Table.forall₂_setIVar hdone (fun v w hvw => hvw.1) hnodup (List.mem_map_of_mem hx) (fun v hv heq => ?_)
      fun v hv w hne ⟨hname, hw⟩ => ⟨hname, ?_⟩
    · obtain rfl := honly v hv heq
      rw [if_neg hnew]
      exact ⟨rfl, hc.mono hg₂⟩
    · have hother : v ≠ (name, type) := by
        rintro rfl
        exact hne rfl
      simp only [List.mem_cons, or_iff_right hother] at hw
      split at hw
      · rwa [if_pos ‹_›]
      · rw [if_neg ‹_›]
        exact hw.mono (hg₁.trans hg₂)

/-- Members are replaced one after the other. -/
theorem keeps_mapM {ms : List TypeId}
    (hcanon : ∀ m ∈ ms, Replaces under id I canonical m) (hI : I t u) :
    Keeps I t u (ms.mapM canonical) fun _ u' cs => List.Forall₂ (StandsFor under u') ms cs := by
  induction ms generalizing t u with
  | nil => exact .pure hI .nil
  | cons m ms ih =>
    obtain ⟨hm, hcanon⟩ := List.forall_mem_cons.mp hcanon
    rw [List.mapM_cons]
    refine (hm t u hI).bind fun c t₁ u₁ hg₁ hI₁ ⟨hc, _⟩ => ?_
    exact (ih hcanon hI₁).bind fun cs t₂ u₂ hg₂ hI₂ hcs => .pure hI₂ (.cons (hc.mono hg₂) hcs)

/-- A derived type with one component is interned. -/
theorem keeps_intern (hr : Regime under id I) (hI : I t u) {e : Entry} (hd : e.IsDerived)
    (hu : ∀ ms, e ≠ .union ms) (hlt : ∀ c ∈ e.parts, c < t.size) :
    Keeps I t u (liftM (Table.intern e)) fun t' _ built => t'.get? built = some e := by
  have hs := hr.sane hI
  obtain ⟨built, t', hrun, hl, ht, hc, he⟩ := hs.tidy.enlarges_intern hs.closed hd
    (fun ms hms => absurd hms (hu ms)) fun c hc => hlt c (hd.compared_eq ▸ hc)
  exact .onTable hrun hl.rewrites (hr.add hI hl ht hc) he

theorem keeps_unionOf (hr : Regime under id I) (hI : I t u) {cs : List TypeId} (hlt : ∀ c ∈ cs, c < t.size) :
    Keeps I t u (liftM (Table.unionOf cs)) fun t' _ built =>
      (t'.flatten cs = [] ∧ built = 0) ∨ t'.flatten cs = [built] ∨
        t'.get? built = some (.union (t'.flatten cs)) := by
  have hs := hr.sane hI
  obtain ⟨built, t', hrun, hl, ht, hc, hbuilt⟩ := hs.tidy.enlarges_unionOf hs.closed hlt
  refine .onTable hrun hl.rewrites (hr.add hI hl ht hc) ?_
  rwa [hl.flatten_eq hs.closed hlt]

/-- **A type is rebuilt from what stands for its components.** -/
theorem keeps_rebuild (hr : Regime under id I) {e : Entry} (he : t.get? id = some e)
    (hcanon : ∀ a ∈ e.parts, Replaces under id I canonical a) (hI : I t u) :
    Keeps I t u (rebuild canonical id) fun t' u' built => Rebuilt (StandsFor under u') t' id e built := by
  refine (runs_types t u).lift.keeps_bind (.refl t u) ?_
  rw [he]
  cases e with
  | object o =>
    refine (keeps_unifyArgs hr (i := 0) (fun a ha => hcanon a (List.mem_append_left _ ha)) hI he List.drop_zero
      List.drop_zero .nil).bind fun _ t₁ u₁ hg₁ hI₁ ⟨o₁, ho₁, hivars, hargs⟩ => ?_
    refine (keeps_unifyIVars hr (l := o.ivars) (fun v hv => hcanon v.2 (List.mem_append_right _ ?_)) hI₁ ho₁
      (List.Subset.refl _) ((hr.sane hI).tidy.ivars he) ((hr.sane hI).tidy.ivars he).of_map ?_).bind
      fun _ t₂ u₂ hg₂ hI₂ ⟨o₂, ho₂, hsame, hdone⟩ => .pure hI₂ (.object ⟨?_, ?_, hdone⟩ ho₂)
    · exact List.mem_map_of_mem hv
    · exact hivars ▸ List.forall₂_same.mpr fun v hv => ⟨rfl, by rw [if_pos hv]⟩
    · obtain ⟨o', ho', hshape⟩ := (hg₁.trans hg₂).rewrites.object he
      obtain rfl := Entry.object.inj (Option.some.inj (ho'.symm.trans ho₂))
      exact hshape.rest
    · exact hsame ▸ hargs.imp fun _ _ hac => hac.mono hg₂
  | pointer p =>
    refine (hcanon p List.mem_cons_self t u hI).bind fun c t₁ u₁ hg hI₁ ⟨hc, _⟩ => ?_
    exact (keeps_intern hr hI₁ (e := .pointer c) trivial nofun
      (List.forall_mem_singleton.mpr (hr.lt hI₁ hc))).imp (fun _ _ _ h => h) fun _ _ _ hg _ hb =>
        .pointer (hc.mono hg) hb
  | metaclass p =>
    refine (hcanon p List.mem_cons_self t u hI).bind fun c t₁ u₁ hg hI₁ ⟨hc, _⟩ => ?_
    exact (keeps_intern hr hI₁ (e := .metaclass c) trivial nofun
      (List.forall_mem_singleton.mpr (hr.lt hI₁ hc))).imp (fun _ _ _ h => h) fun _ _ _ hg _ hb =>
        .metaclass (hc.mono hg) hb
  | hierarchy p =>
    refine (hcanon p List.mem_cons_self t u hI).bind fun c t₁ u₁ hg hI₁ ⟨hc, _⟩ => ?_
    exact (keeps_intern hr hI₁ (e := .hierarchy c) trivial nofun
      (List.forall_mem_singleton.mpr (hr.lt hI₁ hc))).imp (fun _ _ _ h => h) fun _ _ _ hg _ hb =>
        .hierarchy (hc.mono hg) hb
  | union ms =>
    refine (keeps_mapM hcanon hI).bind fun cs t₁ u₁ hg hI₁ hcs => ?_
    have hlt : ∀ c ∈ cs, c < t₁.size := fun c hc => by
      obtain ⟨m, -, hmc⟩ := exists_of_mem_right hcs hc
      exact hr.lt hI₁ hmc
    exact (keeps_unionOf hr hI₁ hlt).imp (fun _ _ _ h => h) fun _ _ _ hg _ hb =>
      .union (hcs.imp fun _ _ hmc => hmc.mono hg) hb
  | _ => exact .pure hI (.lone trivial he)

end Components

end Unifier

end TypeFlow
