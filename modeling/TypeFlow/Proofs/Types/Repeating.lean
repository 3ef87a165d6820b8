import TypeFlow.Types.Subtyping
import TypeFlow.Proofs.Types.Stability

/-!
# Computations that can be repeated

What a computation adds to a table is there when it is run again, so the second run gives what the first
one has given, also if other types were added in between. `Repeats t x Q` says this of a computation
about types of the table `t`, together with what holds of its results. Like `Adds` it composes along
`bind`.

A computation whose result is characterised in a way that additional types do not touch can be repeated
(`Repeats.of_unique`): this covers interning, joins and unions. Narrowing makes one of these calls after
the other, and is cut off after a number of steps that depends on the size of the table at hand, which
is never reached (`Later.restrictBelow_fuel`, `Later.restrictUpTo_fuel`).
-/

namespace TypeFlow.Table

variable {t t₁ t₂ : Table} {α β : Type}

theorem run_get_bind (f : Table → TableM β) (t : Table) : (get >>= f).run t = (f t).run t :=
  rfl

theorem run_bind (x : TableM α) (f : α → TableM β) (t : Table) :
    (x >>= f).run t = (f (x.run t).1).run (x.run t).2 :=
  rfl

/-- A table that `t` may have grown to. -/
structure Later (t t₁ : Table) : Prop where
  wellFormed : WellFormed t₁
  linked : Linked t₁
  grown : Grown t t₁

namespace Later

theorem refl (h : WellFormed t) (hl : Linked t) : Later t t :=
  ⟨h, hl, Grown.refl t⟩

theorem trans (h₁ : Later t t₁) (h₂ : Later t₁ t₂) : Later t t₂ :=
  ⟨h₂.wellFormed, h₂.linked, h₁.grown.trans h₂.grown⟩

theorem lt_size (h₁ : Later t t₁) {id : TypeId} (hid : id < t.size) : id < t₁.size :=
  h₁.grown.lt_size hid

theorem of_adds {x : TableM α} {Q : Table → α → Prop} (hl : Linked t) (hx : Adds t x Q) :
    Later t (x.run t).2 :=
  ⟨hx.1, hl.of_grown hx.2.1, hx.2.1⟩

end Later

/-- The rule for `bind`, with what the first computation leaves as a later table. -/
theorem Adds.bind_later {x : TableM α} {f : α → TableM β} {Q : Table → α → Prop}
    {R : Table → β → Prop} (hl : Linked t) (hx : Adds t x Q)
    (hf : ∀ t₁ a, Later t t₁ → Q t₁ a → Adds t₁ (f a) R) : Adds t (x >>= f) R :=
  hx.bind fun t₁ a h₁ hg ha => hf t₁ a ⟨h₁, hl.of_grown hg, hg⟩ ha

theorem Adds.and {x : TableM α} {Q Q' : Table → α → Prop} (hx : Adds t x Q) (hx' : Adds t x Q') :
    Adds t x fun t₁ a => Q t₁ a ∧ Q' t₁ a :=
  ⟨hx.1, hx.2.1, hx.2.2, hx'.2.2⟩

/-- Only what a computation does on the table counts. -/
theorem Adds.of_run_eq {x y : TableM α} {Q : Table → α → Prop} (hx : Adds t x Q)
    (heq : y.run t = x.run t) : Adds t y Q := by
  rw [Adds, heq]
  exact hx

/-- Run on whatever `t` may have grown to, the computation ends in `Q`, and whenever it is run again
later it gives the same. -/
structure Repeats (t : Table) (x : TableM α) (Q : Table → α → Prop) : Prop where
  adds : ∀ t₁, Later t t₁ → Adds t₁ x Q
  again : ∀ t₁ t₂, Later t t₁ → Later (x.run t₁).2 t₂ → (x.run t₂).1 = (x.run t₁).1

namespace Repeats

variable {Q : Table → α → Prop} {R : Table → β → Prop} {x y : TableM α}

theorem later (hx : Repeats t x Q) (h₁ : Later t t₁) : Repeats t₁ x Q :=
  ⟨fun t₂ h₂ => hx.adds t₂ (h₁.trans h₂), fun t₂ t₃ h₂ => hx.again t₂ t₃ (h₁.trans h₂)⟩

theorem imp {Q' : Table → α → Prop} (hx : Repeats t x Q)
    (hQ : ∀ t₁ a, Later t t₁ → Q t₁ a → Q' t₁ a) : Repeats t x Q' := by
  refine ⟨fun t₁ h₁ => ?_, hx.again⟩
  have hadds := hx.adds t₁ h₁
  exact hadds.imp fun t₂ a h₂ hg ha => hQ t₂ a (h₁.trans ⟨h₂, h₁.linked.of_grown hg, hg⟩) ha

theorem pure {a : α} (ha : ∀ t₁, Later t t₁ → Q t₁ a) : Repeats t (pure a) Q :=
  ⟨fun t₁ h₁ => Adds.pure h₁.wellFormed (ha t₁ h₁), fun _ _ _ _ => rfl⟩

/-- The second run makes the same first step, and continues on a table that has grown in between. -/
theorem bind {f : α → TableM β} (hx : Repeats t x Q)
    (hf : ∀ t₁ a, Later t t₁ → Q t₁ a → Repeats t₁ (f a) R) : Repeats t (x >>= f) R := by
  refine ⟨fun t₁ h₁ => ?_, fun t₁ t₂ h₁ h₂ => ?_⟩
  · refine (hx.adds t₁ h₁).bind fun t₂ a hwf hg ha => ?_
    have h₂ : Later t₁ t₂ := ⟨hwf, h₁.linked.of_grown hg, hg⟩
    exact (hf t₂ a (h₁.trans h₂) ha).adds t₂ (.refl hwf h₂.linked)
  · have hadds := hx.adds t₁ h₁
    have hfirst : Later t₁ (x.run t₁).2 := .of_adds h₁.linked hadds
    have hrest := hf _ _ (h₁.trans hfirst) hadds.2.2
    have hself : Later (x.run t₁).2 (x.run t₁).2 := .refl hfirst.wellFormed hfirst.linked
    have hsecond : Later (x.run t₁).2 (f (x.run t₁).1 |>.run (x.run t₁).2).2 :=
      .of_adds hfirst.linked (hrest.adds _ hself)
    have hend : Later (f (x.run t₁).1 |>.run (x.run t₁).2).2 t₂ := h₂
    have hsame := hx.again t₁ t₂ h₁ (hsecond.trans hend)
    have hgrow : Later t₂ (x.run t₂).2 :=
      .of_adds h₂.linked (hx.adds t₂ (h₁.trans (hfirst.trans (hsecond.trans hend))))
    show (f (x.run t₂).1 |>.run (x.run t₂).2).1 = (f (x.run t₁).1 |>.run (x.run t₁).2).1
    rw [hsame]
    exact hrest.again _ _ hself (hend.trans hgrow)

/-- Only what a computation does counts. -/
theorem of_run_eq (hy : Repeats t y Q) (hxy : ∀ t₁, Later t t₁ → x.run t₁ = y.run t₁) :
    Repeats t x Q := by
  refine ⟨fun t₁ h₁ => ?_, fun t₁ t₂ h₁ h₂ => ?_⟩
  · rw [Adds, hxy t₁ h₁]
    exact hy.adds t₁ h₁
  · rw [hxy t₁ h₁] at h₂ ⊢
    have hend := h₁.trans (Later.of_adds h₁.linked (hy.adds t₁ h₁) |>.trans h₂)
    rw [hxy t₂ hend]
    exact hy.again t₁ t₂ h₁ h₂

/-- What is read of the table has to be the same later. -/
theorem get_bind {f : Table → TableM β} (hf : Repeats t (f t) R)
    (hsame : ∀ t₁, Later t t₁ → (f t₁).run t₁ = (f t).run t₁) : Repeats t (get >>= f) R :=
  hf.of_run_eq hsame

/-- **A result that is characterised once and for all is found again.** -/
theorem of_unique (hadds : ∀ t₁, Later t t₁ → Adds t₁ x Q)
    (hkeep : ∀ t₁ t₂ a, Later t t₁ → Later t₁ t₂ → Q t₁ a → Q t₂ a)
    (hunique : ∀ t₁ a b, Later t t₁ → Q t₁ a → Q t₁ b → a = b) : Repeats t x Q := by
  refine ⟨hadds, fun t₁ t₂ h₁ h₂ => ?_⟩
  have hfirst := h₁.trans (Later.of_adds h₁.linked (hadds t₁ h₁))
  have hstart := hfirst.trans h₂
  have hend := Later.of_adds h₂.linked (hadds t₂ hstart)
  refine hunique _ _ _ (hstart.trans hend) (hadds t₂ hstart).2.2 ?_
  exact hkeep _ _ _ hfirst (h₂.trans hend) (hadds t₁ h₁).2.2

/-- Computations of types, one after the other. -/
theorem mapM {γ : Type} {l : List γ} {f : γ → TableM TypeId}
    (hf : ∀ c ∈ l, Repeats t (f c) fun t₁ m => m < t₁.size) :
    Repeats t (l.mapM f) fun t₁ ms => ∀ m ∈ ms, m < t₁.size := by
  induction l generalizing t with
  | nil => exact pure fun _ _ _ hm => absurd hm (by simp)
  | cons c l ih =>
    rw [List.mapM_cons]
    refine (hf c List.mem_cons_self).bind fun t₁ a h₁ ha => ?_
    refine (ih fun d hd => (hf d (List.mem_cons_of_mem _ hd)).later h₁).bind fun t₂ as h₂ has => ?_
    refine pure fun t₃ h₃ m hm => ?_
    rcases List.mem_cons.mp hm with rfl | hm
    · exact (h₂.trans h₃).lt_size ha
    · exact h₃.lt_size (has m hm)

end Repeats

/-! ### Derived types, joins and unions -/

/-- A derived type that is no union. -/
theorem repeats_intern {e : Entry} (hd : e.IsDerived) (hl : ∀ c ∈ e.links, c < t.size)
    (hu : ∀ ms, e ≠ .union ms) : Repeats t (intern e) fun t₁ m => m < t₁.size := by
  have hentry : Repeats t (intern e) fun t₁ m => t₁.get? m = some e := by
    refine .of_unique (fun t₁ h₁ => ?_) (fun t₁ t₂ m _ h₂ hm => h₂.grown.get hm) ?_
    · exact h₁.wellFormed.adds_intern hd (fun c hc => h₁.lt_size (hl c hc))
        fun ms hms => absurd hms (hu ms)
    · exact fun t₁ a b h₁ ha hb => h₁.wellFormed.interned ha hb hd
  exact hentry.imp fun _ _ _ hm => lt_size_of_get? hm

theorem repeats_pointerOf {id : TypeId} (hid : id < t.size) :
    Repeats t (pointerOf id) fun t₁ m => m < t₁.size :=
  repeats_intern (e := .pointer id) trivial (by simpa [Entry.links] using hid) (by simp)

theorem repeats_metaclassOf {id : TypeId} (hid : id < t.size) :
    Repeats t (metaclassOf id) fun t₁ m => m < t₁.size :=
  repeats_intern (e := .metaclass id) trivial (by simpa [Entry.links] using hid) (by simp)

theorem repeats_hierarchyOf {id : TypeId} (hid : id < t.size) :
    Repeats t (hierarchyOf id) fun t₁ m => m < t₁.size :=
  repeats_intern (e := .hierarchy id) trivial (by simpa [Entry.links] using hid) (by simp)

theorem repeats_merge {ids : List TypeId} (hids : ∀ id ∈ ids, id < t.size) :
    Repeats t (merge ids) fun t₁ m => m < t₁.size := by
  have hjoin : Repeats t (merge ids) fun t₁ m => IsJoin t₁ ids m := by
    refine .of_unique (fun t₁ h₁ => ?_) (fun t₁ t₂ m h₁ h₂ hm => ?_) fun t₁ a b h₁ ha hb => ?_
    · exact h₁.wellFormed.adds_isJoin fun id hid => h₁.lt_size (hids id hid)
    · exact hm.later h₁.wellFormed h₂.wellFormed h₂.grown.toExtends
    · exact IsJoin.unique h₁.wellFormed ha hb rfl
  exact hjoin.imp fun _ _ _ hm => hm.lt_size

theorem repeats_unionOf (h : WellFormed t) {ids : List TypeId} (hids : ∀ id ∈ ids, id < t.size) :
    Repeats t (unionOf ids) fun t₁ m => m < t₁.size := by
  have hunion : Repeats t (unionOf ids) fun t₁ m => m < t₁.size ∧ t₁.members m = t.flatten ids := by
    refine .of_unique (fun t₁ h₁ => ?_) (fun t₁ t₂ m h₁ h₂ hm => ?_) fun t₁ a b h₁ ha hb => ?_
    · rw [← h₁.grown.flatten_eq h h₁.wellFormed hids]
      exact h₁.wellFormed.adds_unionOf fun id hid => h₁.lt_size (hids id hid)
    · exact ⟨h₂.lt_size hm.1, by rw [h₂.grown.toExtends.members_eq hm.1, hm.2]⟩
    · exact h₁.wellFormed.members_injective (ha.2.trans hb.2.symm)
  exact hunion.imp fun _ _ _ hm => hm.1

/-- The union of what is left of several types. -/
theorem repeats_union_mapM {γ : Type} {l : List γ} {f : γ → TableM TypeId}
    (hf : ∀ c ∈ l, Repeats t (f c) fun t₁ m => m < t₁.size) :
    Repeats t (do let parts ← l.mapM f; unionOf (parts.filter (· ≠ 0))) fun t₁ m => m < t₁.size := by
  refine (Repeats.mapM hf).bind fun t₁ parts h₁ hparts => ?_
  exact repeats_unionOf h₁.wellFormed fun m hm => hparts m (List.mem_of_mem_filter hm)

theorem repeats_without (h : WellFormed t) {id drop : TypeId} (hid : id < t.size) :
    Repeats t (without id drop) fun t₁ m => m < t₁.size := by
  refine .get_bind (repeats_unionOf h fun m hm => ?_) fun t₁ h₁ => ?_
  · exact (h.members_lt_size hid (List.mem_of_mem_filter hm)).2
  · rw [h₁.grown.members_eq hid]

/-! ### Generic instances -/

namespace IsInstanceFor

variable {template : TypeId} {args : List TypeId} {a b : TypeId}

theorem later (ha : IsInstanceFor t template args a) (hg : Grown t t₁) :
    IsInstanceFor t₁ template args a := by
  unfold IsInstanceFor at ha ⊢
  split at ha
  · rw [if_pos ‹_›]
    exact hg.get ha
  · rw [if_neg ‹_›]
    obtain ⟨o, ho, hrest⟩ := ha
    exact ⟨o, hg.get ho, hrest⟩

theorem unique (h : WellFormed t) (hne : template ≠ 0) (ha : IsInstanceFor t template args a)
    (hb : IsInstanceFor t template args b) : a = b := by
  unfold IsInstanceFor at ha hb
  split at ha
  · rw [if_pos ‹_›] at hb
    exact h.interned ha hb trivial
  · rw [if_neg ‹_›] at hb
    obtain ⟨o, ho, rfl, hmade⟩ := ha
    obtain ⟨p, hp, hgen, hmade'⟩ := hb
    exact h.instances ho hp hne hgen.symm (hmade.trans hmade'.symm)

end IsInstanceFor

/-- A generic class has an instance for as many arguments as it has parameters. -/
theorem exists_instantiate {template : TypeId} {args : List TypeId} {o : ObjectEntry}
    (ho : (t.object? template).filter ObjectEntry.isTemplate = some o)
    (hargs : args.length = o.typeParams.length) : ∃ a, ((instantiate template args).run t).1 = .ok a := by
  rw [instantiate, run_get_bind]
  simp only [ho, hargs, ne_eq, not_true_eq_false, if_false]
  split
  · exact ⟨_, rfl⟩
  · split
    · exact ⟨_, rfl⟩
    · exact ⟨_, rfl⟩

/-- The instance of a generic class is found again. -/
theorem repeats_instance {template : TypeId} {args : List TypeId} {o : ObjectEntry}
    (ho : (t.object? template).filter ObjectEntry.isTemplate = some o)
    (hlength : args.length = o.typeParams.length) (hargs : ∀ a ∈ args, a < t.size) :
    Repeats t (instantiate template args) fun t₁ r => ∃ a, r = .ok a ∧ a < t₁.size := by
  obtain ⟨hobject, -⟩ := Option.filter_eq_some_iff.mp ho
  have htemplate := lt_size_of_get? (object?_eq_some_iff.mp hobject)
  have hne := Nat.ne_of_gt (pos_of_get? (object?_eq_some_iff.mp hobject))
  have hinst : Repeats t (instantiate template args) fun t₁ r =>
      ∃ a, r = .ok a ∧ IsInstanceFor t₁ template args a ∧ a < t₁.size := by
    refine .of_unique (fun t₁ h₁ => ?_) (fun t₁ t₂ r h₁ h₂ => ?_) fun t₁ r s h₁ => ?_
    · obtain ⟨hwf, hg, hall⟩ : Adds t₁ (instantiate template args) _ :=
        h₁.wellFormed.adds_instantiate fun a ha => h₁.lt_size (hargs a ha)
      rw [← h₁.grown.object?_eq htemplate] at ho
      obtain ⟨a, ha⟩ := exists_instantiate ho hlength
      exact ⟨hwf, hg, a, ha, hall a ha⟩
    · rintro ⟨a, rfl, ha, hlt⟩
      exact ⟨a, rfl, ha.later h₂.grown, h₂.lt_size hlt⟩
    · rintro ⟨a, rfl, ha, -⟩ ⟨b, rfl, hb, -⟩
      rw [ha.unique h₁.wellFormed hne hb]
  refine hinst.imp fun t₁ r _ hr => ?_
  obtain ⟨a, ha, -, hlt⟩ := hr
  exact ⟨a, ha, hlt⟩

/-- The arrays of a type. -/
theorem repeats_array (h : WellFormed t) {id : TypeId} (hid : id < t.size) :
    Repeats t (instantiate Builtin.array [id]) fun t₁ r => ∃ a, r = .ok a ∧ a < t₁.size := by
  obtain ⟨o, ho, hparams, hgen⟩ : ∃ o, t.object? Builtin.array = some o ∧
      o.typeParams = ["T"] ∧ o.generic = 0 := by
    have hinit : initial.get? Builtin.array =
        some (.object { name := "Array", superclass := Builtin.object, typeParams := ["T"] }) := by
      decide
    obtain ⟨e, he, hcore⟩ := h.builtins.core hinit
    obtain ⟨o, rfl, -, -, -, hparams, hgen, -⟩ := Entry.object_of_core_eq hcore
    exact ⟨o, object?_eq_some_iff.mpr he, hparams, hgen⟩
  have htemplate : (t.object? Builtin.array).filter ObjectEntry.isTemplate = some o := by
    simp [ho, ObjectEntry.isTemplate, hparams, hgen]
  exact repeats_instance htemplate (by rw [hparams]; rfl) (List.forall_mem_singleton.mpr hid)

/-! ### Narrowing -/

/-- Computations that do the same on every later table do the same one after the other. -/
theorem Later.run_mapM_congr {γ : Type} {l : List γ} {f g : γ → TableM α}
    (hfg : ∀ c ∈ l, ∀ t₁, Later t t₁ → (f c).run t₁ = (g c).run t₁ ∧ Later t₁ ((f c).run t₁).2)
    (h₁ : Later t t₁) : (l.mapM f).run t₁ = (l.mapM g).run t₁ := by
  induction l generalizing t₁ with
  | nil => rfl
  | cons c l ih =>
    obtain ⟨hsame, hlater⟩ := hfg c List.mem_cons_self t₁ h₁
    have hrest := ih (fun d hd => hfg d (List.mem_cons_of_mem _ hd)) (h₁.trans hlater)
    rw [hsame] at hrest
    simp only [List.mapM_cons, StateT.run_bind, hsame]
    exact congrArg (fun r : List α × Table => ((((g c).run t₁).1 :: r.1, r.2) : List α × Table)) hrest

/-- The search below a class never runs out of steps: the numbers of classes increase. -/
theorem Later.restrictBelow_fuel (h : WellFormed t) (hl : Linked t) {restriction base : TypeId}
    {fuel fuel' : Nat} (hbase : base < t.size) (hf : t.size - base ≤ fuel)
    (hf' : t.size - base ≤ fuel') (h₁ : Later t t₁) :
    (restrictBelow restriction fuel base).run t₁ = (restrictBelow restriction fuel' base).run t₁ := by
  have hpos : 0 < t.size - base := Nat.sub_pos_of_lt hbase
  induction fuel generalizing fuel' base t₁ with
  | zero => exact absurd (Nat.lt_of_lt_of_le hpos hf) (Nat.lt_irrefl _)
  | succ fuel ih =>
    cases fuel' with
    | zero => exact absurd (Nat.lt_of_lt_of_le hpos hf') (Nat.lt_irrefl _)
    | succ fuel' =>
      rw [restrictBelow, restrictBelow, run_get_bind, run_get_bind]
      simp only
      split
      · rfl
      · rw [h₁.grown.object?_eq hbase, StateT.run_bind, StateT.run_bind]
        refine congrArg (fun r : List TypeId × Table =>
          (unionOf (r.1.filter (· ≠ 0))).run r.2) (h₁.run_mapM_congr fun c hc t₂ h₂ => ?_)
        have hlt : base < c ∧ c < t.size := by
          cases ho : t.object? base with
          | none => simp [ho] at hc
          | some o =>
            simp only [ho, Option.map_some, Option.getD_some] at hc
            obtain ⟨s, hs, hsuper⟩ := hl.below (object?_eq_some_iff.mp ho) c hc
            exact ⟨hsuper ▸ h.links_lt hs s.superclass (by simp [Entry.links]), lt_size_of_get? hs⟩
        have hadds : Adds t₂ (restrictBelow restriction fuel c) _ :=
          h₂.wellFormed.adds_restrictBelow h₂.linked.listed restriction (h₂.lt_size hlt.2)
        refine ⟨ih hlt.2 ?_ ?_ h₂ ?_, .of_adds h₂.linked hadds⟩ <;> lia

theorem repeats_restrictBelow (h : WellFormed t) (hl : Linked t) {restriction base : TypeId}
    {fuel : Nat} (hbase : base < t.size) (hr : restriction < t.size) :
    Repeats t (restrictBelow restriction fuel base) fun t₁ m => m < t₁.size := by
  induction fuel generalizing base with
  | zero => exact .pure fun t₁ _ => t₁.size_pos
  | succ fuel ih =>
    refine .get_bind ?_ fun t₁ h₁ => ?_
    · simp only
      split
      · exact repeats_hierarchyOf hbase
      · exact repeats_union_mapM fun c hc => ih (hl.listed.subclasses_lt hc)
    · simp only [h₁.grown.implements_eq h h₁.wellFormed hl hbase hr, h₁.grown.object?_eq hbase]

/-- Narrowing never runs out of steps: members have smaller numbers. -/
theorem Later.restrictUpTo_fuel (h₁ : Later t t₁) {fuel fuel' : Nat} {id restriction : TypeId}
    (hid : id < t₁.size) (hr : restriction < t₁.size) (hf : id + restriction < fuel)
    (hf' : id + restriction < fuel') :
    (restrictUpTo fuel id restriction).run t₁ = (restrictUpTo fuel' id restriction).run t₁ := by
  induction fuel generalizing fuel' id restriction t₁ with
  | zero => exact absurd hf (Nat.not_lt_zero _)
  | succ fuel ih =>
    cases fuel' with
    | zero => exact absurd hf' (Nat.not_lt_zero _)
    | succ fuel' =>
      have hself : Later t₁ t₁ := .refl h₁.wellFormed h₁.linked
      -- narrowing members one after the other does the same with either number of steps
      have hmembers : ∀ {ms : List TypeId} {a b : TypeId → TypeId},
          (∀ m ∈ ms, a m < t₁.size ∧ b m < t₁.size ∧ a m + b m < id + restriction) →
          (do let parts ← ms.mapM fun m => restrictUpTo fuel (a m) (b m)
              unionOf (parts.filter (· ≠ 0)) : TableM TypeId).run t₁ =
          (do let parts ← ms.mapM fun m => restrictUpTo fuel' (a m) (b m)
              unionOf (parts.filter (· ≠ 0)) : TableM TypeId).run t₁ := by
        intro ms a b hms
        rw [StateT.run_bind, StateT.run_bind]
        refine congrArg (fun r : List TypeId × Table =>
          (unionOf (r.1.filter (· ≠ 0))).run r.2) (hself.run_mapM_congr fun m hm t₂ h₂ => ?_)
        obtain ⟨ha, hb, hlt⟩ := hms m hm
        have hadds : Adds t₂ (restrictUpTo fuel (a m) (b m)) _ :=
          h₂.wellFormed.adds_restrictUpTo h₂.linked.listed (h₂.lt_size ha) (h₂.lt_size hb)
        refine ⟨ih (h₁.trans h₂) (h₂.lt_size ha) (h₂.lt_size hb) ?_ ?_, .of_adds h₂.linked hadds⟩
        · exact Nat.lt_of_lt_of_le hlt (Nat.le_of_lt_succ hf)
        · exact Nat.lt_of_lt_of_le hlt (Nat.le_of_lt_succ hf')
      rw [restrictUpTo, restrictUpTo, run_get_bind, run_get_bind]
      split
      · rfl
      · split
        · rfl
        · split
          · rfl
          · rename_i ms hms _
            refine hmembers fun m hm => ?_
            have hlt : m < id := h₁.wellFormed.links_lt hms m hm
            exact ⟨Nat.lt_trans hlt hid, hr, Nat.add_lt_add_right hlt _⟩
          · rfl
          · rename_i ms hms _ _
            refine hmembers fun m hm => ?_
            have hlt : m < restriction := h₁.wellFormed.links_lt hms m hm
            exact ⟨hid, Nat.lt_trans hlt hr, Nat.add_lt_add_left hlt _⟩
          · rfl

theorem repeats_restrictUpTo (h : WellFormed t) (hl : Linked t) {fuel : Nat}
    {id restriction : TypeId} (hid : id < t.size) (hr : restriction < t.size) :
    Repeats t (restrictUpTo fuel id restriction) fun t₁ m => m < t₁.size := by
  induction fuel generalizing id restriction with
  | zero => exact .pure fun t₁ _ => t₁.size_pos
  | succ fuel ih =>
    refine .get_bind ?_ fun t₁ h₁ => ?_
    · split
      · exact .pure fun t₁ _ => t₁.size_pos
      · split
        · exact .pure fun t₁ h₁ => h₁.lt_size hid
        · split
          · exact .pure fun t₁ h₁ => h₁.lt_size hid
          · rename_i ms hms _
            exact repeats_union_mapM fun m hm => ih (Nat.lt_trans (h.links_lt hms m hm) hid) hr
          · rename_i base hbase _
            have hlt : base < id := h.links_lt hbase base (by simp [Entry.links])
            exact repeats_restrictBelow h hl (Nat.lt_trans hlt hid) hr
          · rename_i ms hms _ _
            exact repeats_union_mapM fun m hm => ih hid (Nat.lt_trans (h.links_lt hms m hm) hr)
          · refine .pure fun t₁ h₁ => ?_
            split
            · exact h₁.lt_size hid
            · exact t₁.size_pos
    · simp only [h₁.grown.get?_eq hid, h₁.grown.get?_eq hr,
        h₁.grown.implements_eq h h₁.wellFormed hl hid hr]
      split
      · rfl
      · split
        · rfl
        · split
          · rfl
          · rfl
          · rename_i base hbase _
            have hlt : base < t.size :=
              Nat.lt_trans (h.links_lt hbase base (by simp [Entry.links])) hid
            exact h₁.restrictBelow_fuel h hl hlt (Nat.le_trans (Nat.sub_le _ _) h₁.grown.size_le)
              (Nat.sub_le _ _)
          · rfl
          · rfl

/-- **Narrowing can be repeated.** -/
theorem repeats_restrict (h : WellFormed t) (hl : Linked t) {id restriction : TypeId}
    (hid : id < t.size) (hr : restriction < t.size) :
    Repeats t (restrict id restriction) fun t₁ m => m < t₁.size := by
  refine .get_bind (repeats_restrictUpTo h hl hid hr) fun t₁ h₁ => ?_
  have hsize := h₁.grown.size_le
  exact h₁.restrictUpTo_fuel (h₁.lt_size hid) (h₁.lt_size hr) (by lia) (by lia)

end TypeFlow.Table

namespace TypeFlow.Filter

open Table

/-- A filter that looks at the type alone, and whose target is a type of the table. -/
def Reads (t : Table) : Filter → Prop
  | .isA target _ => target < t.size
  | .notNil => True
  | .respondsTo _ => False

theorem Reads.later {t t₁ : Table} {f : Filter} (hf : f.Reads t) (h₁ : Later t t₁) :
    f.Reads t₁ := by
  cases f with
  | isA target label => exact h₁.lt_size hf
  | notNil => trivial
  | respondsTo name => exact hf

/-- Such a filter can be applied again. -/
theorem repeats_apply {t : Table} (h : WellFormed t) (hl : Linked t)
    (responds : TypeId → String → TableM Bool) {f : Filter} (hf : f.Reads t) {id : TypeId}
    (hid : id < t.size) : Repeats t (f.apply responds id) fun t₁ m => m < t₁.size := by
  cases f with
  | isA target label => exact repeats_restrict h hl hid hf
  | notNil => exact repeats_without h hid
  | respondsTo name => exact hf.elim

end TypeFlow.Filter
