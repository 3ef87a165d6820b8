import TypeFlow.Unification
import TypeFlow.Proofs.Types.Concrete
import TypeFlow.Proofs.Types.Equivalence
import TypeFlow.Proofs.Types.Naming
import TypeFlow.Proofs.Types.Nominal

/-!
# Unification finds nothing to do

Among types no two of which are equal (`Table.Distinct`), no type has another representative than itself.
Unification rebuilds every type from the representatives of its components, which are the components:
objects are changed to what they are, and derived types are interned already (`gives_rebuild`). On a table
in which names are declared once, structural equality is identity, so this holds of all its types.

What has to be shown besides is that unification ends. A type is not entered again while its components
are being unified, so the number of types that are not being visited falls with every step inwards, and
the steps that are granted suffice, however instance variables are tied together (`gives_canonicalUpTo`). Names
mention older types only, so every fingerprint has an end, too.

`Gives D t u x a` is the common form of the statements: run with the unifier `u` on the table `t`, the
computation `x` gives `a`, leaves the table and the types under visit alone, and folds nothing.
-/

namespace TypeFlow

namespace Table

variable {t : Table} {id : TypeId}

/-! ### What does not change a table -/

/-- To intern a derived type that is there gives it. -/
theorem Tidy.run_intern (h : Tidy t) {e : Entry} (he : t.get? id = some e)
    (hd : e.IsDerived) : (intern e).run t = (id, t) := by
  cases hfind : t.find? e with
  | none => exact absurd he (get?_ne_of_find? hfind id)
  | some found =>
    obtain rfl : found = id := h.interned (get?_of_find? hfind) he hd
    exact run_intern_of_some hfind

/-- Types none of which equals a later one are all kept. -/
theorem dropEqual_eq_self (kept ids : List TypeId)
    (h : (kept.reverse ++ ids).Pairwise fun a b => t.equal a b = false) :
    t.dropEqual kept ids = kept.reverse ++ ids := by
  induction ids generalizing kept with
  | nil => rw [dropEqual, List.append_nil]
  | cons id rest ih =>
    have hany : kept.reverse.any (t.equal · id) = false := by
      rw [List.any_eq_false]
      intro x hx heq
      have hne := (List.pairwise_append.mp h).2.2 x hx id List.mem_cons_self
      exact absurd heq (by rw [hne]; exact Bool.false_ne_true)
    rw [dropEqual, hany, if_neg Bool.false_ne_true, ih]
    · simp
    · simpa using h

/-- Types that are no unions, none of which equals a later one, are flattened to themselves in increasing order. -/
theorem flatten_eq_sortedUnique {ids : List TypeId} (hself : ∀ m ∈ ids, t.members m = [m])
    (hother : Builtin.noReturn ∉ ids) (hne : (sortedUnique ids).Pairwise fun a b => t.equal a b = false) :
    t.flatten ids = sortedUnique ids := by
  have hall : ids.flatMap t.members = ids := by
    rw [List.flatMap_congr hself, List.flatMap_singleton']
  have hrest : ids.filter (· ≠ Builtin.noReturn) = ids := by
    rw [List.filter_eq_self]
    intro m hm
    simpa using fun heq : m = Builtin.noReturn => hother (heq ▸ hm)
  have hkept : t.dropEqual [] (sortedUnique ids) = sortedUnique ids := dropEqual_eq_self [] _ hne
  unfold flatten
  simp only
  rw [hall, hrest, hkept, if_neg hother]
  cases sortedUnique ids <;> rfl

/-- The members of a union are flat and sorted already, and all are kept if no two are equal. -/
theorem Tidy.flatten_members (h : Tidy t) {ms : List TypeId} (hms : t.get? id = some (.union ms))
    (hne : ms.Pairwise fun a b => t.equal a b = false) : t.flatten ms = ms := by
  have hu := h.union hms
  have hsorted : sortedUnique ms = ms :=
    eq_of_increasing (sortedUnique_increasing ms) hu.increasing fun m => mem_sortedUnique
  refine (flatten_eq_sortedUnique (fun m hm => ?_) hu.absorbed (hsorted.symm ▸ hne)).trans hsorted
  obtain ⟨e, he⟩ := hu.known m hm
  exact members_of_not_union (Nat.ne_of_gt (pos_of_get? he)) (hu.flat m hm)

/-- The union of the members of a union is that union, if no two are equal. -/
theorem Tidy.run_unionOf (h : Tidy t) {ms : List TypeId} (hms : t.get? id = some (.union ms))
    (hne : ms.Pairwise fun a b => t.equal a b = false) : (unionOf ms).run t = (id, t) := by
  have hrun : (unionOf ms).run t = (internUnion (t.flatten ms)).run t := rfl
  have hlen := (h.union hms).several
  rw [hrun, h.flatten_members hms hne]
  match ms, hms, hlen with
  | m :: n :: ms, hms, _ => exact h.run_intern hms trivial

/-- A change of an object that changes nothing. -/
theorem run_modifyObject_self {o : ObjectEntry} {f : ObjectEntry → ObjectEntry}
    (ho : t.get? id = some (.object o)) (hf : f o = o) : (modifyObject id f).run t = ((), t) := by
  match id, ho with
  | n + 1, ho =>
    rw [get?_succ] at ho
    refine Prod.ext rfl ?_
    show ({ t with entries := t.entries.modify n _ } : Table) = t
    refine congrArg (fun es => { t with entries := es }) (Array.ext_getElem? fun k => ?_)
    rw [Array.getElem?_modify]
    split
    · rename_i hk
      rw [← hk, ho, Option.map_some]
      exact congrArg (fun p => some (Entry.object p)) hf
    · rfl

/-- An instance variable is set to the type it has. -/
theorem setIVar_self {o : ObjectEntry} {name : String} {type : TypeId}
    (hnames : (o.ivars.map Prod.fst).Nodup) (hmem : (name, type) ∈ o.ivars) :
    o.setIVar name type = o := by
  have hset : ∀ ivars : List (String × TypeId), (ivars.map Prod.fst).Nodup → (name, type) ∈ ivars →
      ObjectEntry.setIVar.set name type ivars = ivars := by
    intro ivars hnodup hin
    induction ivars with
    | nil => exact absurd hin (by simp)
    | cons x rest ih =>
      obtain ⟨n, u⟩ := x
      rw [List.map_cons, List.nodup_cons] at hnodup
      rcases List.mem_cons.mp hin with heq | hin
      · obtain ⟨rfl, rfl⟩ := Prod.mk.inj heq
        simp [ObjectEntry.setIVar.set]
      · have hne : n ≠ name := by
          rintro rfl
          exact hnodup.1 (List.mem_map.mpr ⟨_, hin, rfl⟩)
        rw [ObjectEntry.setIVar.set, if_neg (by simpa using hne), ih hnodup.2 hin]
  rw [ObjectEntry.setIVar, hset o.ivars hnames hmem]

/-- Types among which no two are equal, with all that they are made of. There is an end to what they show. -/
structure Distinct (t : Table) (D : TypeId → Prop) : Prop where
  shown : ∀ {id : TypeId}, D id → t.fingerprint? id = some (t.fingerprint id)
  parts : ∀ {id : TypeId} {e : Entry}, D id → t.get? id = some e → ∀ p ∈ e.parts, D p
  eq_of_equal : ∀ {a b : TypeId}, D a → D b → t.equal a b = true → a = b

/-- All that types of a well-formed table show has an end. -/
theorem WellFormed.fingerprint?_eq (h : WellFormed t) (id : TypeId) :
    t.fingerprint? id = some (t.fingerprint id) := by
  have hshows : ∀ c, t.shows c = true := by
    intro c
    unfold shows
    split
    · exact h.isSome_name? c
    · exact h.isSome_name? c
    · rfl
  rw [fingerprint?, if_pos (List.all_eq_true.mpr fun c _ => hshows c)]

/-- No two members of a union are equal. -/
theorem Distinct.members {D : TypeId → Prop} (h : Distinct t D) (ht : Tidy t) {ms : List TypeId}
    (hid : D id) (hms : t.get? id = some (.union ms)) :
    ms.Pairwise fun a b => t.equal a b = false := by
  refine (ht.union hms).increasing.imp_of_mem fun {a b} ha hb hlt => ?_
  refine Bool.eq_false_iff.mpr fun heq => absurd hlt ?_
  rw [h.eq_of_equal (h.parts hid hms a ha) (h.parts hid hms b hb) heq]
  exact Nat.lt_irrefl b

end Table

namespace Unifier

open Table (Tidy Distinct)

variable {t : Table} {u : Unifier} {id : TypeId} {α β : Type} {D : TypeId → Prop}

/-! ### Computations that leave the table alone -/

theorem run_bind {u' : Unifier} {t' : Table} {x : Unify α} {f : α → Unify β} {a : α}
    (hx : (x.run u).run t = ((a, u'), t')) : ((x >>= f).run u).run t = ((f a).run u').run t' := by
  have hbind : ((x >>= f).run u).run t =
    ((f ((x.run u).run t).1.1).run ((x.run u).run t).1.2).run ((x.run u).run t).2 := rfl
  rw [hbind, hx]

/-- Run with `u` on `t`, the computation gives `a` and ends with `u'` on the same table. -/
def Runs (t : Table) (u : Unifier) (x : Unify α) (a : α) (u' : Unifier) : Prop :=
  (x.run u).run t = ((a, u'), t)

namespace Runs

variable {u₁ u₂ : Unifier} {a : α} {b : β}

theorem bind {x : Unify α} {f : α → Unify β} (hx : Runs t u x a u₁) (hf : Runs t u₁ (f a) b u₂) :
    Runs t u (x >>= f) b u₂ :=
  (run_bind hx).trans hf

/-- A computation that may run out of steps, but does not. -/
theorem bounded {x : Bounded α} {f : α → Bounded β} (hx : Runs t u x.run (some a) u₁)
    (hf : Runs t u₁ (f a).run (some b) u₂) : Runs t u (x >>= f).run (some b) u₂ := by
  rw [OptionT.run_bind]
  exact hx.bind hf

theorem lift {x : Unify α} (hx : Runs t u x a u₁) : Runs t u (liftM x : Bounded α).run (some a) u₁ := by
  have hlift : ((liftM x : Bounded α).run.run u).run t =
    ((some ((x.run u).run t).1.1, ((x.run u).run t).1.2), ((x.run u).run t).2) := rfl
  rw [Runs, hlift, hx]

/-- A computation on the table that leaves it as it is. -/
theorem onTable {x : TableM α} (hx : x.run t = (a, t)) :
    Runs t u (liftM x : Bounded α).run (some a) u := by
  have hlift : ((liftM x : Bounded α).run.run u).run t = ((some (x.run t).1, u), (x.run t).2) := rfl
  rw [Runs, hlift, hx]

end Runs

theorem runs_get (t : Table) (u : Unifier) : Runs t u get u u :=
  rfl

theorem runs_types (t : Table) (u : Unifier) : Runs t u types t u :=
  rfl

/-- The search for a representative ends if there is an end to what the type shows. -/
theorem runs_search (u : Unifier) (hf : t.fingerprint? id = some (t.fingerprint id)) :
    Runs t u (search id).run (some (u.find? t id)) u := by
  refine Runs.bounded (Runs.lift (runs_types t u)) ?_
  rw [hf]
  rfl

/-- A call is granted as many steps as suffice. -/
theorem run_canonical_eq (id : TypeId) (u : Unifier) (t : Table) : ((Unifier.canonical id).run.run u).run t =
    ((canonicalUpTo (2 * t.size + 8) id).run.run u).run t := by
  rw [Unifier.canonical, OptionT.run_bind]
  exact run_bind (runs_types t u).lift

/-- Every type seen so far is one of `D` and its own representative. -/
structure Idle (D : TypeId → Prop) (u : Unifier) : Prop where
  known : ∀ p ∈ u.known, p.2 = p.1
  chosen : ∀ p ∈ u.chosen, D p.2
  folded : u.stats.folded = 0
  nodes : u.stats.nodes = 0

/-- Run with `u` on `t`, the computation gives `a`, leaves the table and the types under visit as they
are, and folds nothing. -/
def Gives (D : TypeId → Prop) (t : Table) (u : Unifier) (x : Unify α) (a : α) : Prop :=
  ∃ u', Runs t u x a u' ∧ Idle D u' ∧ u'.visiting = u.visiting

namespace Gives

variable {a : α} {b : β}

theorem pure (hu : Idle D u) (a : α) : Gives D t u (pure a) a :=
  ⟨u, rfl, hu, rfl⟩

theorem get (hu : Idle D u) : Gives D t u get u :=
  ⟨u, rfl, hu, rfl⟩

theorem types (hu : Idle D u) : Gives D t u types t :=
  ⟨u, rfl, hu, rfl⟩

theorem onTable (hu : Idle D u) {x : TableM α} (hx : x.run t = (a, t)) :
    Gives D t u (liftM x : Bounded α).run (some a) :=
  ⟨u, Runs.onTable hx, hu, rfl⟩

theorem lift {x : Unify α} (hx : Gives D t u x a) :
    Gives D t u (liftM x : Bounded α).run (some a) := by
  obtain ⟨u', hrun, hu'⟩ := hx
  exact ⟨u', hrun.lift, hu'⟩

theorem bind {x : Unify α} {f : α → Unify β} (hx : Gives D t u x a)
    (hf : ∀ u', Idle D u' → u'.visiting = u.visiting → Gives D t u' (f a) b) :
    Gives D t u (x >>= f) b := by
  obtain ⟨u₁, hrun₁, hu₁, hv₁⟩ := hx
  obtain ⟨u₂, hrun₂, hu₂, hv₂⟩ := hf u₁ hu₁ hv₁
  exact ⟨u₂, hrun₁.bind hrun₂, hu₂, hv₂.trans hv₁⟩

theorem bounded {x : Bounded α} {f : α → Bounded β} (hx : Gives D t u x.run (some a))
    (hf : ∀ u', Idle D u' → u'.visiting = u.visiting → Gives D t u' (f a).run (some b)) :
    Gives D t u (x >>= f).run (some b) := by
  obtain ⟨u₁, hrun₁, hu₁, hv₁⟩ := hx
  obtain ⟨u₂, hrun₂, hu₂, hv₂⟩ := hf u₁ hu₁ hv₁
  exact ⟨u₂, hrun₁.bounded hrun₂, hu₂, hv₂.trans hv₁⟩

end Gives

/-! ### Representatives -/

/-- A type that was seen is its own representative. -/
theorem Idle.known?_eq (hu : Idle D u) {c : TypeId} (hc : u.known? id = some c) : c = id := by
  obtain ⟨⟨a, b⟩, hfind, rfl⟩ := Option.map_eq_some_iff.mp hc
  have hself : b = a := hu.known _ (List.mem_of_find?_eq_some hfind)
  have ha : a = id := by simpa using List.find?_some hfind
  exact hself.trans ha

/-- No other type equals a type. -/
theorem Idle.find?_eq (hu : Idle D u) (hd : Distinct t D) (hid : D id) {rep : TypeId}
    (hrep : u.find? t id = some rep) : rep = id := by
  obtain ⟨⟨f, r⟩, hfind, rfl⟩ := Option.map_eq_some_iff.mp hrep
  have hboth := List.find?_some hfind
  simp only [Bool.and_eq_true] at hboth
  exact (hd.eq_of_equal hid (hu.chosen _ (List.mem_of_find?_eq_some hfind)) hboth.2).symm

theorem gives_fold (hu : Idle D u) (id : TypeId) : Gives D t u (fold id id) id := by
  refine ⟨_, rfl, ⟨?_, hu.chosen, ?_, ?_⟩, rfl⟩
  · exact List.forall_mem_cons.mpr ⟨rfl, hu.known⟩
  · simpa using hu.folded
  · simpa using hu.nodes

theorem gives_choose (hu : Idle D u) (hid : D id) : Gives D t u (choose id) id := by
  refine ⟨_, rfl, ⟨List.forall_mem_cons.mpr ⟨rfl, hu.known⟩, ?_, hu.folded, hu.nodes⟩, rfl⟩
  exact List.forall_mem_append.mpr ⟨hu.chosen, List.forall_mem_singleton.mpr hid⟩

theorem gives_foldOrChoose (hd : Distinct t D) (hu : Idle D u) (hid : D id) :
    Gives D t u (foldOrChoose id).run (some id) := by
  refine .bounded ⟨u, runs_search u (hd.shown hid), hu, rfl⟩ fun u₁ hu₁ _ => ?_
  cases hfind : u.find? t id with
  | none => exact .lift (gives_choose hu₁ hid)
  | some rep =>
    obtain rfl := hu.find?_eq hd hid hfind
    exact .lift (gives_fold hu₁ rep)

/-! ### Components -/

section Components

variable {canonical : TypeId → Bounded TypeId} {visiting : List TypeId}

/-- The representative of a component is the component, while the types `visiting` are visited. -/
def Fixes (D : TypeId → Prop) (t : Table) (visiting : List TypeId)
    (canonical : TypeId → Bounded TypeId) : Prop :=
  ∀ u c, D c → Idle D u → u.visiting = visiting → Gives D t u (canonical c).run (some c)

/-- The type arguments from an index on are replaced by themselves. -/
theorem gives_unifyArgs (hfix : Fixes D t visiting canonical) {o : ObjectEntry}
    (ho : t.get? id = some (.object o)) {i : Nat} {rest : List TypeId}
    (hrest : o.typeArgs.drop i = rest) (hD : ∀ a ∈ rest, D a) (hu : Idle D u)
    (hv : u.visiting = visiting) : Gives D t u (unifyArgs canonical id i rest).run (some ()) := by
  induction rest generalizing i u with
  | nil => exact .pure hu _
  | cons a rest ih =>
    have hi : i < o.typeArgs.length := by
      have hlen := congrArg List.length hrest
      simp only [List.length_drop, List.length_cons] at hlen
      omega
    rw [List.drop_eq_getElem_cons hi] at hrest
    obtain ⟨ha, hrest⟩ := List.cons.inj hrest
    obtain ⟨hDa, hD⟩ := List.forall_mem_cons.mp hD
    refine .bounded (hfix u a hDa hu hv) fun u₁ hu₁ hv₁ => ?_
    refine .bounded (.onTable hu₁ (Table.run_modifyObject_self ho ?_)) fun u₂ hu₂ hv₂ => ?_
    · rw [← ha, List.set_getElem_self]
    · exact ih hrest hD hu₂ (hv₂.trans (hv₁.trans hv))

/-- Instance variables are set to the types they have. -/
theorem gives_unifyIVars (hfix : Fixes D t visiting canonical) {o : ObjectEntry}
    (ho : t.get? id = some (.object o)) (hnames : (o.ivars.map Prod.fst).Nodup)
    {ivars : List (String × TypeId)} (hsub : ∀ x ∈ ivars, x ∈ o.ivars) (hD : ∀ x ∈ ivars, D x.2)
    (hu : Idle D u) (hv : u.visiting = visiting) :
    Gives D t u (unifyIVars canonical id ivars).run (some ()) := by
  induction ivars generalizing u with
  | nil => exact .pure hu _
  | cons x rest ih =>
    obtain ⟨name, type⟩ := x
    obtain ⟨hmem, hrest⟩ := List.forall_mem_cons.mp hsub
    obtain ⟨hDx, hD⟩ := List.forall_mem_cons.mp hD
    refine .bounded (hfix u type hDx hu hv) fun u₁ hu₁ hv₁ => ?_
    refine .bounded (.onTable hu₁ (Table.run_modifyObject_self ho ?_)) fun u₂ hu₂ hv₂ => ?_
    · exact Table.setIVar_self hnames hmem
    · exact ih hrest hD hu₂ (hv₂.trans (hv₁.trans hv))

theorem gives_mapM (hfix : Fixes D t visiting canonical) {ms : List TypeId} (hD : ∀ m ∈ ms, D m)
    (hu : Idle D u) (hv : u.visiting = visiting) :
    Gives D t u (ms.mapM canonical).run (some ms) := by
  induction ms generalizing u with
  | nil => exact .pure hu _
  | cons m ms ih =>
    obtain ⟨hm, hD⟩ := List.forall_mem_cons.mp hD
    rw [List.mapM_cons]
    refine .bounded (hfix u m hm hu hv) fun u₁ hu₁ hv₁ => ?_
    exact .bounded (ih hD hu₁ (hv₁.trans hv)) fun u₂ hu₂ _ => .pure hu₂ _

/-- **A type is rebuilt as it is.** -/
theorem gives_rebuild (h : Tidy t) (hd : Distinct t D) (hid : D id)
    (hfix : (t.get? id).isSome → Fixes D t visiting canonical) (hu : Idle D u)
    (hv : u.visiting = visiting) : Gives D t u (rebuild canonical id).run (some id) := by
  refine .bounded (.lift (.types hu)) fun u₁ hu₁ hv₁ => ?_
  have hv₁ := hv₁.trans hv
  cases he : t.get? id with
  | none => exact .pure hu₁ _
  | some e =>
    have hfix := hfix (by rw [he]; rfl)
    have hparts := hd.parts hid he
    cases e with
    | object o =>
      obtain ⟨hargs, hivars⟩ := List.forall_mem_append.mp hparts
      rw [List.forall_mem_map] at hivars
      have hargs := gives_unifyArgs (u := u₁) hfix he (i := 0) List.drop_zero hargs hu₁ hv₁
      refine .bounded hargs fun u₂ hu₂ hv₂ => ?_
      have hivars := gives_unifyIVars (u := u₂) hfix he (h.ivars he) (fun _ hx => hx) hivars hu₂
        (hv₂.trans hv₁)
      exact .bounded hivars fun u₃ hu₃ _ => .pure hu₃ _
    | pointer p =>
      exact .bounded (hfix u₁ p (hparts p List.mem_cons_self) hu₁ hv₁) fun u₂ hu₂ _ =>
        .onTable hu₂ (h.run_intern he trivial)
    | metaclass c =>
      exact .bounded (hfix u₁ c (hparts c List.mem_cons_self) hu₁ hv₁) fun u₂ hu₂ _ =>
        .onTable hu₂ (h.run_intern he trivial)
    | hierarchy base =>
      exact .bounded (hfix u₁ base (hparts base List.mem_cons_self) hu₁ hv₁) fun u₂ hu₂ _ =>
        .onTable hu₂ (h.run_intern he trivial)
    | union ms =>
      exact .bounded (gives_mapM hfix hparts hu₁ hv₁) fun u₂ hu₂ _ =>
        .onTable hu₂ (h.run_unionOf he (hd.members h hid he))
    | _ => exact .pure hu₁ _

/-- A type that was entered and left is visited no more, and no other is forgotten. -/
theorem filter_entered (hv : id ∉ visiting) : (id :: visiting).filter (· ≠ id) = visiting := by
  rw [List.filter_cons_of_neg (by simp), List.filter_eq_self]
  intro x hx
  simpa using fun heq : x = id => hv (heq ▸ hx)

/-- A type that is new to the unifier becomes its own representative. -/
theorem gives_resolve (h : Tidy t) (hd : Distinct t D) (hid : D id)
    (hfix : (t.get? id).isSome → Fixes D t (id :: u.visiting) canonical) (hu : Idle D u)
    (hnew : id ∉ u.visiting) : Gives D t u (resolve canonical id).run (some id) := by
  have hentered : Idle D { u with visiting := id :: u.visiting } :=
    ⟨hu.known, hu.chosen, hu.folded, hu.nodes⟩
  obtain ⟨u₁, hrebuild, hu₁, hv₁⟩ := gives_rebuild h hd hid hfix hentered rfl
  have hback : u₁.visiting.filter (· ≠ id) = u.visiting := by
    rw [hv₁, filter_entered hnew]
  have hleft : Idle D { u₁ with visiting := u₁.visiting.filter (· ≠ id) } :=
    ⟨hu₁.known, hu₁.chosen, hu₁.folded, hu₁.nodes⟩
  obtain ⟨u₂, hchoose, hu₂, hv₂⟩ := gives_foldOrChoose hd hleft hid
  refine ⟨u₂, ?_, hu₂, hv₂.trans hback⟩
  have hbegin : Runs t u (modify fun u => { u with visiting := id :: u.visiting } :
      Bounded PUnit).run (some ⟨⟩) { u with visiting := id :: u.visiting } := rfl
  have hend : Runs t u₁ (modify fun u => { u with visiting := u.visiting.filter (· ≠ id) } :
      Bounded PUnit).run (some ⟨⟩) { u₁ with visiting := u₁.visiting.filter (· ≠ id) } := rfl
  refine hbegin.bounded (hrebuild.bounded (hend.bounded ?_))
  rw [if_pos rfl]
  exact hchoose

end Components

/-! ### Unification -/

/-- **Unification ends, and every type is its own representative**, as long as more steps are granted
than there are types that are not under visit. -/
theorem gives_canonicalUpTo (h : Tidy t) (hd : Distinct t D) {fuel : Nat} (hid : D id) (hu : Idle D u)
    (hfuel : t.unseen u.visiting < fuel) :
    Gives D t u (canonicalUpTo fuel id).run (some id) := by
  induction fuel generalizing u id with
  | zero => exact absurd hfuel (Nat.not_lt_zero _)
  | succ fuel ih =>
    refine .bounded (.lift (.get hu)) fun u₁ hu₁ hv₁ => ?_
    cases hknown : u.known? id with
    | some c =>
      obtain rfl := hu.known?_eq hknown
      exact .pure hu₁ _
    | none =>
      simp only
      split
      · exact .pure hu₁ _
      · rename_i hnew
        obtain ⟨-, hnew⟩ := not_or.mp hnew
        refine .bounded ⟨u₁, runs_search u₁ (hd.shown hid), hu₁, rfl⟩ fun u₂ hu₂ hv₂ => ?_
        have hv : u₂.visiting = u.visiting := hv₂.trans hv₁
        cases hfind : u₁.find? t id with
        | some rep =>
          obtain rfl := hu₁.find?_eq hd hid hfind
          exact .lift (gives_fold hu₂ rep)
        | none =>
          refine gives_resolve h hd hid (fun hsome u₃ c hc hu₃ hv₃ => ih hc hu₃ ?_) hu₂ (hv ▸ hnew)
          -- the type itself is under visit now
          obtain ⟨e, he⟩ := Option.isSome_iff_exists.mp hsome
          have hlt := Table.unseen_cons_lt (Table.lt_size_of_get? he) hnew
          rw [hv₃, hv]
          omega

/-- The representative of a type is the type. -/
theorem gives_canonical (h : Tidy t) (hd : Distinct t D) (hu : Idle D u) (hid : D id) :
    Gives D t u (canonical id).run (some id) := by
  refine .bounded (.lift (.types hu)) fun u₁ hu₁ _ => ?_
  have hfuel : t.unseen u₁.visiting < 2 * t.size + 8 := by
    have hle := t.unseen_le u₁.visiting
    omega
  exact gives_canonicalUpTo h hd hid hu₁ hfuel

/-- Nothing was seen before unification begins. -/
theorem idle_empty (digest : Fingerprint → UInt64) : Idle D { digest } :=
  ⟨by simp, by simp, rfl, rfl⟩

theorem gives_mapM_canonical (h : Tidy t) (hd : Distinct t D) (hu : Idle D u) (ids : List TypeId)
    (hids : ∀ id ∈ ids, D id) : Gives D t u (ids.mapM canonical).run (some ids) := by
  induction ids generalizing u with
  | nil => exact .pure hu _
  | cons id ids ih =>
    obtain ⟨hid, hids⟩ := List.forall_mem_cons.mp hids
    rw [List.mapM_cons]
    refine .bounded (gives_canonical h hd hu hid) fun u₁ hu₁ _ => ?_
    exact .bounded (ih hu₁ hids) fun u₂ hu₂ _ => .pure hu₂ _

/-- No node of a graph gets another type. -/
theorem gives_unifyGraph (h : Tidy t) (hd : Distinct t D) (hu : Idle D u) {g : Graph}
    (hg : ∀ n, D (g.typeOf n)) : Gives D t u (unifyGraph g).run (some g) := by
  have hnodes : ∀ (ids : List NodeId) (u : Unifier), Idle D u →
      Gives D t u (ids.foldlM unifyNode g).run (some g) := by
    intro ids
    induction ids with
    | nil => exact fun u hu => .pure hu _
    | cons id ids ih =>
      intro u hu
      rw [List.foldlM_cons]
      have hnode : Gives D t u (unifyNode g id).run (some g) := by
        refine .bounded (gives_canonical h hd hu (hg id)) fun u₁ hu₁ _ => ?_
        rw [if_pos rfl]
        exact .pure hu₁ _
      exact .bounded hnode fun u₁ hu₁ _ => ih u₁ hu₁
  exact hnodes _ u hu

end Unifier

namespace Table

/-- **Structural equality is identity, and unification finds nothing to do.** On a table in which names
are declared once, two types are structurally equal only if they are the same. Whatever types a new
unifier is asked about, one after the other, it gives an answer: each is its own representative; the table stays what
it is, and nothing is folded. -/
theorem Nominal.unification_idle {t : Table} (h : Nominal t) :
    (∀ a b, t.equal a b = true ↔ a = b) ∧
    (∀ (digest : Fingerprint → UInt64) (ids : List TypeId), ∃ u : Unifier,
      ((ids.mapM Unifier.canonical).run.run { digest }).run t = ((some ids, u), t) ∧ u.stats.folded = 0) ∧
    (∀ (digest : Fingerprint → UInt64) (g : Graph), ∃ u : Unifier,
      ((Unifier.unifyGraph g).run.run { digest }).run t = ((some g, u), t) ∧ u.stats.folded = 0) := by
  have hwf := h.wellFormed
  have ht := h.regular.toTidy
  have hd : Distinct t fun _ => True :=
    ⟨fun _ => hwf.fingerprint?_eq _, fun _ _ _ _ => trivial, fun _ _ => hwf.equal_iff.mp⟩
  refine ⟨fun a b => hwf.equal_iff, fun digest ids => ?_, fun digest g => ?_⟩
  · obtain ⟨u, hrun, hu, -⟩ := Unifier.gives_mapM_canonical ht hd (Unifier.idle_empty digest) ids
      fun _ _ => trivial
    exact ⟨u, hrun, hu.folded⟩
  · obtain ⟨u, hrun, hu, -⟩ := Unifier.gives_unifyGraph ht hd (Unifier.idle_empty digest) (g := g)
      fun _ => trivial
    exact ⟨u, hrun, hu.folded⟩

/-- Nodes, 14, that hold a node and a list of nodes, 16, which holds a node in turn; nil or such a list, 18,
and pointers to that, 19. Nodes include a class, which is no module. -/
def rings : Table :=
  Operation.runAll [
    .defineClass "Node" Builtin.object [],
    .defineClass "List" Builtin.object ["T"],
    .instantiate 15 [14],
    .setIVar 14 "@next" 14,
    .setIVar 14 "@rest" 16,
    .setIVar 16 "@head" 14,
    .include 14 Builtin.string,
    .hierarchyOf 14,
    .unionOf [16, Builtin.nil],
    .pointerOf 18] initial

/-- Cyclic types are unified with nothing else. -/
theorem unification_idle_rings :
    Nominal rings ∧ rings.get? 18 = some (.union [Builtin.nil, 16]) ∧ rings.equal 14 16 = false ∧
    ∃ u : Unifier, (([16, 19, 14, 17].mapM Unifier.canonical).run.run {}).run rings =
      ((some [16, 19, 14, 17], u), rings) ∧ u.stats.folded = 0 := by
  have hn : Nominal rings :=
    Nominal.initial
      |>.step (.defineClass "Node" Builtin.object []) (by decide) ⟨rfl, .inr ⟨_, rfl, rfl⟩⟩
      |>.step (.defineClass "List" Builtin.object ["T"]) (by decide) ⟨rfl, .inr ⟨_, rfl, rfl⟩⟩
      |>.step (.instantiate 15 [14]) (by decide +kernel) trivial
      |>.step (.setIVar 14 "@next" 14) (by decide +kernel) trivial
      |>.step (.setIVar 14 "@rest" 16) (by decide +kernel) trivial
      |>.step (.setIVar 16 "@head" 14) (by decide +kernel) trivial
      |>.step (.include 14 Builtin.string) (by decide +kernel) trivial
      |>.step (.hierarchyOf 14) (by decide +kernel) trivial
      |>.step (.unionOf [16, Builtin.nil]) (by decide +kernel) trivial
      |>.step (.pointerOf 18) (by decide +kernel) trivial
  obtain ⟨hequal, hunify, -⟩ := Nominal.unification_idle hn
  refine ⟨hn, by decide +kernel, ?_, hunify Fingerprint.digest _⟩
  exact Bool.eq_false_iff.mpr fun heq => absurd ((hequal 14 16).mp heq) (by decide)

end Table

end TypeFlow
