import TypeFlow.Proofs.Overload.Exact
import TypeFlow.Proofs.Types.Widening

/-!
# Single classes are accepted whole

An argument that stands for several classes is narrowed to the part of it that a parameter admits. One that
stands for a single class cannot be narrowed: whatever the restriction, be it a name, a bound or an unbound
type variable, a choice of alternatives or a generic class with arguments, what is left of it is all of it or
nothing (`Overload.sees_restrict`). So arguments that stand for single classes have one match at most, and it
takes them as they are (`Overload.select_whole`).

Nothing is assumed of the table or of what names stand for. Matching the arguments of a generic class may
add types to the table, but those that are there remain single.
-/

namespace TypeFlow

namespace Table

variable {t t' : Table} {α β γ : Type}

/-- A single class stays one in a table that has more types. -/
theorem Single.of_extends (h : Extends t t') {id : TypeId} (hid : Single t id) : Single t' id := by
  obtain ⟨entry, hentry⟩ := exists_get?_of_lt (Nat.pos_of_ne_zero hid.ne_zero) hid.lt_size
  obtain ⟨later, hlater, hcore⟩ := h.core hentry
  refine ⟨hid.ne_zero, lt_size_of_get? hlater, fun ms hms => ?_, fun base hbase => ?_⟩
  · obtain rfl := Option.some.inj (hlater.symm.trans hms)
    cases entry <;> cases hcore
    exact hid.no_union _ hentry
  · obtain rfl := Option.some.inj (hlater.symm.trans hbase)
    cases entry <;> cases hcore
    exact hid.no_hierarchy _ hentry

/-! ### Computations beside single classes -/

/-- On a table where all of `known` are single classes they stay single, and the answer satisfies `Q`. -/
def Sees (known : List TypeId) (x : TableM α) (Q : α → Prop) : Prop :=
  ∀ t, (∀ a ∈ known, Single t a) → (∀ a ∈ known, Single (x.run t).2 a) ∧ Q (x.run t).1

namespace Sees

variable {known : List TypeId} {Q : α → Prop} {R : β → Prop}

theorem pure {a : α} (ha : Q a) : Sees known (pure a) Q :=
  fun _ h => ⟨h, ha⟩

theorem bind {x : TableM α} {f : α → TableM β} (hx : Sees known x Q) (hf : ∀ a, Q a → Sees known (f a) R) :
    Sees known (x >>= f) R :=
  fun t h => hf _ (hx t h).2 _ (hx t h).1

theorem get_bind {f : Table → TableM β} (hf : ∀ t, (∀ a ∈ known, Single t a) → Sees known (f t) R) :
    Sees known (get >>= f) R :=
  fun t h => hf t h t h

theorem of_widening {x : TableM α} (hx : Widening x) : Sees known x fun _ => True :=
  fun t h => ⟨fun a ha => (h a ha).of_extends (hx t).toExtends, trivial⟩

theorem after {x : TableM α} {f : α → TableM β} (hx : Widening x) (hf : ∀ a, Sees known (f a) R) :
    Sees known (x >>= f) R :=
  (of_widening hx).bind fun a _ => hf a

theorem mapM {f : γ → TableM α} {l : List γ} (hf : ∀ c, Sees known (f c) Q) :
    Sees known (l.mapM f) fun as => ∀ a ∈ as, Q a := by
  induction l with
  | nil => exact pure (by simp)
  | cons c l ih =>
    rw [List.mapM_cons]
    exact (hf c).bind fun a ha => ih.bind fun as has => pure (List.forall_mem_cons.mpr ⟨ha, has⟩)

end Sees

/-! ### Narrowing a single class -/

/-- Copies of one number are one number at most. -/
theorem sortedUnique_copies {id : TypeId} {ids : List TypeId} (h : ∀ a ∈ ids, a = id) :
    sortedUnique ids = [] ∨ sortedUnique ids = [id] := by
  cases ids with
  | nil => exact .inl rfl
  | cons a ids =>
    refine .inr (eq_singleton_of_increasing (sortedUnique_increasing _) ?_ fun m hm => h m (mem_sortedUnique.mp hm))
    exact mem_sortedUnique.mpr (h a List.mem_cons_self ▸ List.mem_cons_self)

theorem flatten_copies {id : TypeId} (hid : Single t id) {ids : List TypeId} (h : ∀ a ∈ ids, a = id) :
    t.flatten ids = [] ∨ t.flatten ids = [id] := by
  have hself : t.members id = [id] := members_of_not_union hid.ne_zero hid.no_union
  have hall : ∀ m ∈ ids.flatMap t.members, m = id := by
    intro m hm
    obtain ⟨a, ha, hm⟩ := List.mem_flatMap.mp hm
    rw [h a ha, hself] at hm
    exact List.mem_singleton.mp hm
  rw [flatten]
  rcases sortedUnique_copies fun m hm => hall m (List.mem_of_mem_filter hm) with hnone | hone
  · -- what never yields a value is left if there is nothing else
    rw [hnone]
    by_cases hnever : Builtin.noReturn ∈ ids.flatMap t.members
    · rw [← hall _ hnever]
      exact .inr (if_pos hnever)
    · exact .inl (if_neg hnever)
  · rw [hone]
    exact .inr rfl

variable {known : List TypeId} {id : TypeId}

/-- The union of copies of a single class is the class, or nothing if there are none. -/
theorem sees_unionOf_copies (hid : id ∈ known) {ids : List TypeId} (h : ∀ a ∈ ids, a = id) :
    Sees known (unionOf ids) fun m => m = 0 ∨ m = id := by
  refine .get_bind fun t ht => ?_
  rcases flatten_copies (ht id hid) h with hnone | hone
  · rw [hnone]
    exact .pure (.inl rfl)
  · rw [hone]
    exact .pure (.inr rfl)

/-- The parts of a single class that are left make it up, or nothing. -/
theorem sees_unionOf_parts (hid : id ∈ known) {parts : List TypeId} (h : ∀ a ∈ parts, a = 0 ∨ a = id) :
    Sees known (unionOf (parts.filter (· ≠ 0))) fun m => m = 0 ∨ m = id := by
  refine sees_unionOf_copies hid fun a ha => ?_
  obtain ⟨ha, hne⟩ := List.mem_filter.mp ha
  exact (h a ha).resolve_left (of_decide_eq_true hne)

theorem sees_restrictUpTo (hid : id ∈ known) (fuel : Nat) (restriction : TypeId) :
    Sees known (restrictUpTo fuel id restriction) fun m => m = 0 ∨ m = id := by
  induction fuel generalizing restriction with
  | zero => exact .pure (.inl rfl)
  | succ fuel ih =>
    refine .get_bind fun t ht => ?_
    obtain ⟨hne, -, hunion, hhierarchy⟩ := ht id hid
    rw [if_neg hne]
    split
    · exact .pure (.inr rfl)
    · split
      · exact .pure (.inr rfl)
      · exact absurd ‹t.get? id = some (.union _)› (hunion _)
      · exact absurd ‹t.get? id = some (.hierarchy _)› (hhierarchy _)
      · exact (Sees.mapM ih).bind fun parts hparts => sees_unionOf_parts hid hparts
      · split
        · exact .pure (.inr rfl)
        · exact .pure (.inl rfl)

/-- **A single class is narrowed to itself or to nothing.** -/
theorem sees_restrict (hid : id ∈ known) (restriction : TypeId) :
    Sees known (restrict id restriction) fun m => m = 0 ∨ m = id :=
  .get_bind fun _ _ => sees_restrictUpTo hid _ restriction

end Table

namespace Overload

open Table

variable {ι : Type} (r : Resolver) {known : List TypeId} {arg : TypeId}

/-- What a filter keeps was there before. -/
theorem sees_filterM {p : TypeId → Matching Bool} (hp : ∀ c, Widening (p c)) (l : List TypeId) (b : Bindings) :
    Sees known ((l.filterM p).run b) fun kept => ∀ m ∈ kept.1, m ∈ l := by
  induction l generalizing b with
  | nil => exact .pure fun _ hm => hm
  | cons c l ih =>
    simp only [filterM_cons, StateT.run_bind]
    refine .after (hp c b) fun keep => (ih keep.2).bind fun kept hkept => .pure ?_
    have hrest : ∀ m ∈ kept.1, m ∈ c :: l := fun m hm => List.mem_cons_of_mem c (hkept m hm)
    cases keep.1
    · exact hrest
    · exact List.forall_mem_cons.mpr ⟨List.mem_cons_self, hrest⟩

/-- A name admits a single class whole or not at all: what it is bound to or stands for decides, and if it is
neither known nor bound the argument binds it. -/
theorem sees_restrictName (harg : arg ∈ known) (owner : TypeId) (names : List String) (b : Bindings) :
    Sees known ((restrict r owner arg (.named names [])).run b) fun out => out.1 = 0 ∨ out.1 = arg := by
  cases hbound : (freeName? names).bind b.get? with
  | some bound =>
    rw [run_restrict_bound hbound]
    exact (sees_restrict harg bound).bind fun m hm => .pure hm
  | none =>
    rw [run_restrict_unbound hbound]
    refine .get_bind fun t _ => ?_
    split
    · rename_i target _
      exact (sees_restrict harg target).bind fun m hm => .pure hm
    · exact .pure (.inr rfl)
    · exact .pure (.inl rfl)

mutual

/-- **A restriction admits a single class whole or not at all**, whatever is bound before. -/
theorem sees_restrict (harg : arg ∈ known) (owner : TypeId) (e : TypeExpr) (b : Bindings) :
    Sees known ((restrict r owner arg e).run b) fun out => out.1 = 0 ∨ out.1 = arg :=
  match e with
  | .self => by
    rw [run_restrict_self]
    exact .get_bind fun t _ => (Table.sees_restrict harg _).bind fun m hm => .pure hm
  | .union alternatives => by
    rw [run_restrict_union]
    refine (sees_restrictEach harg owner alternatives b).bind fun parts hparts => ?_
    exact (sees_unionOf_parts harg hparts).bind fun m hm => .pure hm
  | .named names args => by
    by_cases hargs : args = []
    · rw [hargs]
      exact sees_restrictName r harg owner names b
    · rw [run_restrict_generic names hargs]
      refine .get_bind fun t ht => ?_
      cases r t owner names with
      | none => exact .pure (.inl rfl)
      | some template =>
        -- the only member is the argument itself
        have hself : t.members arg = [arg] :=
          members_of_not_union (ht arg harg).ne_zero (ht arg harg).no_union
        have hkeeps : ∀ m, Widening (keeps r owner args template m) := by
          intro m
          refine .bind .table fun t' => ?_
          simp only
          split
          · exact .pure _
          · exact widening_agree r owner _ args
        rw [hself]
        refine (sees_filterM hkeeps [arg] b).bind fun kept hkept => ?_
        refine (sees_unionOf_copies harg fun m hm => ?_).bind fun m hm => .pure hm
        exact List.mem_singleton.mp (hkept m hm)

/-- Each alternative admits a single class whole or not at all. -/
theorem sees_restrictEach (harg : arg ∈ known) (owner : TypeId) (es : List TypeExpr) (b : Bindings) :
    Sees known ((restrictEach r owner arg es).run b) fun out => ∀ m ∈ out.1, m = 0 ∨ m = arg :=
  match es with
  | [] => by
    rw [run_restrictEach_nil]
    exact .pure fun m hm => absurd hm List.not_mem_nil
  | e :: rest => by
    rw [run_restrictEach_cons]
    refine (sees_restrict harg owner e b).bind fun first hfirst => ?_
    refine (sees_restrictEach harg owner rest first.2).bind fun others hothers => .pure ?_
    exact List.forall_mem_cons.mpr ⟨hfirst, hothers⟩

end

theorem sees_restrictParam (harg : arg ∈ known) (owner : TypeId) (param : Option TypeExpr) (b : Bindings) :
    Sees known ((restrictParam r owner arg param).run b) fun out => out.1 = 0 ∨ out.1 = arg := by
  cases param with
  | none => exact .pure (.inr rfl)
  | some e => exact sees_restrict r harg owner e b

/-- Arguments that stand for single classes are taken as they are, or not at all. -/
theorem sees_restrictArgs {args : List TypeId} (hargs : args ⊆ known) (receiver : TypeId)
    (params : List (Option TypeExpr)) (b : Bindings) :
    Sees known ((restrictArgs r receiver args params).run b) fun out => ∀ taken ∈ out.1, taken = args := by
  induction args generalizing params b with
  | nil => exact .pure fun taken htaken => (Option.some.inj htaken).symm
  | cons a args ih =>
    obtain ⟨ha, hargs⟩ := List.cons_subset.mp hargs
    cases params with
    | nil => exact .pure fun taken htaken => absurd htaken (by simp)
    | cons param params =>
      rw [restrictArgs, StateT.run_bind]
      refine (sees_restrictParam r ha receiver param b).bind fun got hgot => ?_
      split
      · exact .pure fun taken htaken => absurd htaken (by simp)
      · rename_i hne
        rw [StateT.run_bind]
        refine (ih hargs params got.2).bind fun rest hrest => .pure ?_
        intro taken htaken
        obtain ⟨others, hothers, rfl⟩ := Option.map_eq_some_iff.mp htaken
        rw [hgot.resolve_left hne, hrest others hothers]

theorem sees_match {args : List TypeId} (c : Candidate ι) (receiver : TypeId) :
    Sees args («match» r c receiver args) fun m => ∀ x ∈ m, x.argTypes = args := by
  rw [«match»]
  split
  · exact .pure fun x hx => absurd hx (by simp)
  · refine (sees_restrictArgs r (List.Subset.refl args) receiver _ []).bind fun out hout => .pure ?_
    intro x hx
    obtain ⟨taken, htaken, rfl⟩ := Option.map_eq_some_iff.mp hx
    exact hout taken htaken

/-- The first match is the only one, if one asks for no more. -/
theorem sees_matching {args : List TypeId} (receiver : TypeId) (cs : List (Candidate ι)) :
    Sees args (matching r true receiver args cs) fun list => list = [] ∨ ∃ m, list = [m] ∧ m.argTypes = args := by
  induction cs with
  | nil => exact .pure (.inl rfl)
  | cons c cs ih =>
    refine (sees_match r c receiver).bind fun found hfound => ?_
    cases found with
    | none => exact ih
    | some m => exact .pure (.inr ⟨m, rfl, hfound m rfl⟩)

/-- **Arguments that stand for single classes have one match at most**, which takes them as they are. -/
theorem sees_select {args : List TypeId} (receiver : TypeId) (cs : List (Candidate ι)) :
    Sees args (select r cs receiver args) fun ms =>
      ms.cover = none ∧ (ms.list = [] ∨ ∃ m, ms.list = [m] ∧ m.argTypes = args) := by
  refine .get_bind fun t ht => ?_
  have hsingle : args.any (isSeveral t) = false :=
    List.any_eq_false.mpr fun a ha => not_isSeveral (ht a ha)
  rw [hsingle]
  exact (sees_matching r receiver cs).bind fun list hlist => .pure ⟨rfl, hlist⟩

end Overload

end TypeFlow
