import TypeFlow.Proofs.Types.Narrowed
import TypeFlow.Proofs.Overload.Matching

/-!
# Covers of closed signatures are exact

A restriction is closed if it is `self`, a name that the resolver knows, or a union of closed ones. A
closed restriction decides class by class: what is left of an argument are the classes that it accepts
(`Closed.adds_restrict`), where whether it accepts a class (`Accepts`) has nothing to do with the
argument. So a candidate accepts a combination of classes on its own exactly if the combination lies
within what the candidate leaves of the whole arguments (`adds_restrictArgs`), and the combinations
missing from a cover are those that are not accepted on their own (`Inferred.missing_select`).
-/

namespace TypeFlow

namespace Table

variable {t t₁ t₂ : Table}

/-! ### What is left of an argument -/

/-- Whether a class fits a target. No target is fit by every class. -/
def Meets (t : Table) (target c : TypeId) : Prop :=
  target = 0 ∨ t.implements c target = true

/-- What is left of a type of `t`: the classes with the property `K`. A type that is neither a union nor
a hierarchy is kept or rejected. -/
structure Admitted (t : Table) (arg : TypeId) (K : TypeId → Prop) (t₂ : Table) (m : TypeId) :
    Prop where
  classes : HasClasses t₂ (fun c => c ∈ t.concrete arg ∧ K c) m
  single : Single t arg → m = 0 ∨ m = arg

namespace Admitted

variable {arg m : TypeId} {K : TypeId → Prop}

theorem of_grown (hm : Admitted t arg K t₁ m) (hg : Grown t₁ t₂) (h₁ : WellFormed t₁)
    (hl₁ : Linked t₁) : Admitted t arg K t₂ m :=
  ⟨hm.classes.of_grown hg h₁ hl₁, hm.single⟩

theorem congr {L : TypeId → Prop} (hm : Admitted t arg K t₂ m) (hKL : ∀ c, K c ↔ L c) :
    Admitted t arg L t₂ m := by
  refine ⟨⟨hm.classes.1, fun c => ?_⟩, hm.single⟩
  rw [hm.classes.2 c]
  exact and_congr_right fun _ => hKL c

/-- A type is left as it is if everything is accepted. -/
theorem self (h : WellFormed t) (hl : Linked t) (harg : arg < t.size) (h₂ : Later t t₂)
    (hK : ∀ c, K c) : Admitted t arg K t₂ arg := by
  refine ⟨⟨h₂.lt_size harg, fun c => ?_⟩, fun _ => .inr rfl⟩
  rw [h₂.grown.concrete_eq h hl harg]
  exact (and_iff_left (hK c)).symm

/-- A type that is neither a union nor a hierarchy is rejected exactly if it is not accepted. -/
theorem ne_zero_iff (hm : Admitted t arg K t₂ m) (harg : Single t arg) (h₂ : Later t t₂) :
    m ≠ 0 ↔ K arg := by
  rw [← not_iff_not, not_not, ← h₂.wellFormed.concrete_eq_nil_iff h₂.linked,
    List.eq_nil_iff_forall_not_mem]
  simp only [hm.classes.2, harg.concrete_eq, List.mem_singleton]
  exact ⟨fun hall hK => hall arg ⟨rfl, hK⟩, fun hK c ⟨hc, hKc⟩ => hK (hc ▸ hKc)⟩

end Admitted

namespace Shaped

variable (hs : Shaped t) (h : WellFormed t) (hl : Linked t)

include hs h hl

theorem adds_restrict_admitted {arg target : TypeId} (harg : arg < t.size)
    (htarget : target < t.size) (h₁ : Later t t₁) :
    Adds t₁ (restrict arg target) (Admitted t arg (t.Meets target)) := by
  by_cases hzero : target = 0
  · subst hzero
    have hself : (restrict arg 0).run t₁ = (arg, t₁) := by
      rw [restrict, run_get_bind, restrictUpTo, run_get_bind]
      split
      · rename_i h0
        rw [h0]
        rfl
      · rw [if_pos (.inl rfl)]
        rfl
    rw [Adds, hself]
    exact ⟨h₁.wellFormed, .refl t₁, .self h hl harg h₁ fun _ => .inl rfl⟩
  · refine (hs.adds_restrict_classes h hl harg htarget hzero h₁).imp fun t₂ m h₂ hg hm => ?_
    have h₂' : Later t t₂ := h₁.trans ⟨h₂, h₁.linked.of_grown hg, hg⟩
    refine ⟨⟨hm.classes.1, fun c => ?_⟩, fun hsingle => ?_⟩
    · rw [hm.classes.2]
      exact and_congr_right fun _ => (or_iff_right hzero).symm
    · rw [(narrows_single_iff h hl hsingle h₂').mp hm]
      split
      · exact .inr rfl
      · exact .inl rfl

omit hs in
/-- The union of what several restrictions leave of a single class: the class, if one of them accepts
it. -/
theorem adds_unionOf_admitted_single {γ : Type} {arg : TypeId} (hsingle : Single t arg) {l : List γ}
    {K : γ → TypeId → Prop} {parts : List TypeId} (h₁ : Later t t₁)
    (hall : ∀ a ∈ parts, ∃ e ∈ l, Admitted t arg (K e) t₁ a)
    (hex : ∀ e ∈ l, ∃ a ∈ parts, Admitted t arg (K e) t₁ a) :
    Adds t₁ (Table.unionOf (parts.filter (· ≠ 0)))
      (Admitted t arg fun c => ∃ e ∈ l, K e c) := by
  have hcopies : ∀ a ∈ parts.filter (· ≠ 0), a = arg := by
    intro a ha
    obtain ⟨ha, hne⟩ := List.mem_filter.mp ha
    obtain ⟨e, -, hm⟩ := hall a ha
    exact (hm.single hsingle).resolve_left (of_decide_eq_true hne)
  -- something is left exactly if one of the restrictions accepts the argument
  have hleft : parts.filter (· ≠ 0) ≠ [] ↔ ∃ e ∈ l, K e arg := by
    constructor
    · intro hne
      obtain ⟨a, ha⟩ := List.exists_mem_of_ne_nil _ hne
      obtain ⟨ha, hne⟩ := List.mem_filter.mp ha
      obtain ⟨e, he, hm⟩ := hall a ha
      exact ⟨e, he, (hm.ne_zero_iff hsingle h₁).mp (of_decide_eq_true hne)⟩
    · rintro ⟨e, he, hK⟩
      obtain ⟨a, ha, hm⟩ := hex e he
      have hne := (hm.ne_zero_iff hsingle h₁).mpr hK
      exact List.ne_nil_of_mem (List.mem_filter.mpr ⟨ha, decide_eq_true hne⟩)
  refine (h₁.wellFormed.adds_unionOf_copies (hsingle.of_grown h₁.grown) hcopies).imp ?_
  rintro t₂ m h₂ hg rfl
  have h₂' : Later t t₂ := h₁.trans ⟨h₂, h₁.linked.of_grown hg, hg⟩
  split
  · rename_i hnil
    refine ⟨⟨t₂.size_pos, fun c => ?_⟩, fun _ => .inl rfl⟩
    simp only [concrete_zero, hsingle.concrete_eq, List.mem_singleton]
    refine iff_of_false (by simp) ?_
    rintro ⟨rfl, hK⟩
    exact hleft.mpr hK hnil
  · rename_i hne
    refine ⟨⟨h₂'.lt_size hsingle.lt_size, fun c => ?_⟩, fun _ => .inr rfl⟩
    rw [h₂'.grown.concrete_eq h hl hsingle.lt_size]
    refine (and_iff_left_of_imp fun hc => ?_).symm
    rw [hsingle.concrete_eq, List.mem_singleton] at hc
    exact hc ▸ hleft.mp hne

/-- The union of what several restrictions leave is what is accepted by one of them. -/
theorem adds_unionOf_admitted {γ : Type} {arg : TypeId} (harg : arg < t.size) {l : List γ}
    {K : γ → TypeId → Prop} {parts : List TypeId} (h₁ : Later t t₁)
    (hall : ∀ a ∈ parts, ∃ e ∈ l, Admitted t arg (K e) t₁ a)
    (hex : ∀ e ∈ l, ∃ a ∈ parts, Admitted t arg (K e) t₁ a) :
    Adds t₁ (Table.unionOf (parts.filter (· ≠ 0)))
      (Admitted t arg fun c => ∃ e ∈ l, K e c) := by
  by_cases hsingle : Single t arg
  · exact adds_unionOf_admitted_single h hl hsingle h₁ hall hex
  -- what is several classes at once does not have what never yields a value among them
  have hn : ∀ e ∈ l, ¬ (Builtin.noReturn ∈ t.concrete arg ∧ K e Builtin.noReturn) := by
    rintro e - ⟨hmem, -⟩
    have hclass := hs.single_of_mem_concrete h hl harg hmem
    exact hsingle (hs.eq_noReturn_of_mem_concrete h hl hmem ▸ hclass)
  have hunion := h₁.wellFormed.adds_unionOf_parts h₁.linked
    (K := fun e c => c ∈ t.concrete arg ∧ K e c) (R := fun _ _ => True)
    (fun a ha => (hall a ha).imp fun e he => ⟨he.1, he.2.classes, trivial⟩)
    (fun e he => (hex e he).imp fun a ha => ⟨ha.1, ha.2.classes, trivial⟩) hn
  refine hunion.imp fun t₂ m _ _ ⟨⟨hm, hclasses⟩, _⟩ => ?_
  refine ⟨⟨hm, fun c => ?_⟩, fun h => absurd h hsingle⟩
  rw [hclasses]
  exact ⟨fun ⟨e, he, hc, hK⟩ => ⟨hc, e, he, hK⟩, fun ⟨hc, e, he, hK⟩ => ⟨e, he, hc, hK⟩⟩

end Shaped

end Table

namespace Overload

open Table

theorem not_isSeveral {t : Table} {id : TypeId} (h : Single t id) : ¬ isSeveral t id = true := by
  rw [isSeveral_iff]
  rintro (⟨ms, hms⟩ | ⟨base, hbase⟩)
  · exact h.no_union ms hms
  · exact h.no_hierarchy base hbase

/-- A combination is made of single classes. -/
theorem single_of_mem_product {t : Table} (hs : Shaped t) (h : WellFormed t) (hl : Linked t)
    {args : List TypeId} (hargs : ∀ a ∈ args, a < t.size) {xs : List TypeId}
    (hxs : xs ∈ product (args.map t.concrete)) : ∀ x ∈ xs, Single t x := by
  intro x hx
  obtain ⟨a, ha, hxa⟩ := exists_mem_of_mem_product hxs hx
  exact hs.single_of_mem_concrete h hl (hargs a ha) hxa

/-! ### Closed restrictions -/

section

variable (r : Resolver) (t : Table) (owner : TypeId)

/-- A restriction without type arguments and free type variables. -/
inductive Closed : TypeExpr → Prop
  | self : Closed .self
  | name {names : List String} : (r t owner names).isSome → Closed (.named names [])
  | union {alternatives : List TypeExpr} : (∀ e ∈ alternatives, Closed e) →
      Closed (.union alternatives)

mutual

/-- Whether a closed restriction accepts a class. -/
def Accepts : TypeExpr → TypeId → Prop
  | .self, c => t.Meets (t.selfType owner) c
  | .union alternatives, c => AcceptsAny alternatives c
  | .named names _, c => ∃ target, r t owner names = some target ∧ t.Meets target c

/-- Whether one of several closed restrictions accepts a class. -/
def AcceptsAny : List TypeExpr → TypeId → Prop
  | [], _ => False
  | e :: rest, c => Accepts e c ∨ AcceptsAny rest c

end

theorem acceptsAny_iff {alternatives : List TypeExpr} {c : TypeId} :
    AcceptsAny r t owner alternatives c ↔ ∃ e ∈ alternatives, Accepts r t owner e c := by
  induction alternatives with
  | nil => simp [AcceptsAny]
  | cons e rest ih => simp [AcceptsAny, ih]

/-- A parameter that is not restricted accepts every class. -/
def AcceptsParam : Option TypeExpr → TypeId → Prop
  | none, _ => True
  | some e, c => Accepts r t owner e c

/-- Whether parameters accept a combination of classes; there may be more parameters. -/
def Takes : List (Option TypeExpr) → List TypeId → Prop
  | _, [] => True
  | [], _ :: _ => False
  | e :: params, c :: cs => AcceptsParam r t owner e c ∧ Takes params cs

end

variable {r : Resolver} {t t₁ : Table} {owner : TypeId}

/-- What alternatives leave of an argument, one after the other. -/
theorem adds_restrictEach {arg : TypeId} {K : TypeExpr → TypeId → Prop}
    {alternatives : List TypeExpr} (h₁ : Later t t₁)
    (hf : ∀ e ∈ alternatives, ∀ t', Later t t' → Adds t' ((restrict r owner arg e).run []) fun t₂ p =>
      p.2 = [] ∧ Admitted t arg (K e) t₂ p.1) :
    Adds t₁ ((restrictEach r owner arg alternatives).run []) fun t₂ p =>
      p.2 = [] ∧ (∀ a ∈ p.1, ∃ e ∈ alternatives, Admitted t arg (K e) t₂ a) ∧
        ∀ e ∈ alternatives, ∃ a ∈ p.1, Admitted t arg (K e) t₂ a := by
  induction alternatives generalizing t₁ with
  | nil =>
    rw [run_restrictEach_nil]
    exact .pure h₁.wellFormed ⟨rfl, by simp, by simp⟩
  | cons e rest ih =>
    rw [run_restrictEach_cons]
    refine (hf e List.mem_cons_self t₁ h₁).bind_later h₁.linked ?_
    rintro t₂ ⟨a, b⟩ h₂ ⟨rfl, ha⟩
    have hrest := ih (h₁.trans h₂) fun d hd => hf d (List.mem_cons_of_mem _ hd)
    refine hrest.bind ?_
    rintro t₃ ⟨as, b⟩ h₃ hg ⟨rfl, hall, hex⟩
    have ha₃ := ha.of_grown hg h₂.wellFormed h₂.linked
    refine .pure h₃ ⟨rfl, fun x hx => ?_, fun d hd => ?_⟩
    · rcases List.mem_cons.mp hx with rfl | hx
      · exact ⟨e, List.mem_cons_self, ha₃⟩
      · obtain ⟨d, hd, hxd⟩ := hall x hx
        exact ⟨d, List.mem_cons_of_mem _ hd, hxd⟩
    · rcases List.mem_cons.mp hd with rfl | hd
      · exact ⟨a, List.mem_cons_self, ha₃⟩
      · obtain ⟨x, hx, hxd⟩ := hex d hd
        exact ⟨x, List.mem_cons_of_mem _ hx, hxd⟩

theorem Takes.length_le {params : List (Option TypeExpr)} {xs : List TypeId}
    (ht : Takes r t owner params xs) : xs.length ≤ params.length := by
  induction xs generalizing params with
  | nil => simp
  | cons x xs ih =>
    cases params with
    | nil => exact ht.elim
    | cons e params => simpa using ih ht.2

/-! ### What parameters leave of arguments -/

/-- What is said of the arguments that parameters leave: a combination of classes of the arguments lies
within them exactly if the parameters take it. -/
structure Leaves (r : Resolver) (t : Table) (owner : TypeId) (params : List (Option TypeExpr))
    (args : List TypeId) (t₂ : Table) (left : Option (List TypeId)) : Prop where
  known : ∀ ms, left = some ms → ∀ m ∈ ms, m < t₂.size
  exact : ∀ xs ∈ product (args.map t.concrete),
    (∃ ms, left = some ms ∧ Cover.within (ms.map t₂.concrete) xs = true) ↔ Takes r t owner params xs
  single : (∀ a ∈ args, Single t a) → (left.isSome ↔ Takes r t owner params args)

namespace Leaves

variable {params : List (Option TypeExpr)} {args : List TypeId} {arg m : TypeId} {t₂ : Table}
  {e : Option TypeExpr} {left : Option (List TypeId)}

theorem nil : Leaves r t owner params [] t₂ (some []) := by
  refine ⟨?_, fun xs hxs => ?_, fun _ => by simp [Takes]⟩
  · rintro _ ⟨⟩
    simp
  · obtain rfl : xs = [] := by simpa [product] using hxs
    simp [Cover.within, Takes]

/-- There is no parameter for an argument. -/
theorem absent : Leaves r t owner [] (arg :: args) t₂ none := by
  refine ⟨by simp, fun xs hxs => ?_, fun _ => by simp [Takes]⟩
  obtain ⟨x, -, ys, -, rfl⟩ := mem_product_cons.mp hxs
  simp [Takes]

/-- There are fewer parameters than arguments. -/
theorem short (hlen : params.length < args.length) : Leaves r t owner params args t₂ none := by
  have hnot : ∀ {xs : List TypeId}, xs.length = args.length → ¬ Takes r t owner params xs := by
    intro xs hxs htakes
    have := htakes.length_le
    lia
  refine ⟨by simp, fun xs hxs => ?_, fun _ => by simp [hnot rfl]⟩
  have hxs : xs.length = args.length := by simpa using (mem_product.mp hxs).length_eq
  simp [hnot hxs]

/-- No class of an argument is accepted. -/
theorem rejected (hm : Admitted t arg (AcceptsParam r t owner e) t₂ 0) :
    Leaves r t owner (e :: params) (arg :: args) t₂ none := by
  have hnone : ∀ x ∈ t.concrete arg, ¬ AcceptsParam r t owner e x := by
    intro x hx hacc
    exact absurd ((hm.classes.2 x).mpr ⟨hx, hacc⟩) (by simp)
  refine ⟨by simp, fun xs hxs => ?_, fun hsingle => ?_⟩
  · obtain ⟨x, hx, ys, -, rfl⟩ := mem_product_cons.mp hxs
    simp [Takes, hnone x hx]
  · have harg := (hsingle arg List.mem_cons_self).concrete_eq
    simp [Takes, hnone arg (by simp [harg])]

/-- An argument of which something is left, and the others. -/
theorem cons (h₂ : Later t t₂) (hm : Admitted t arg (AcceptsParam r t owner e) t₂ m) (hne : m ≠ 0)
    (hrest : Leaves r t owner params args t₂ left) :
    Leaves r t owner (e :: params) (arg :: args) t₂ (left.map (m :: ·)) := by
  refine ⟨fun ms hms => ?_, fun xs hxs => ?_, fun hsingle => ?_⟩
  · obtain ⟨ns, hns, rfl⟩ := Option.map_eq_some_iff.mp hms
    exact List.forall_mem_cons.mpr ⟨hm.classes.1, hrest.known ns hns⟩
  · obtain ⟨x, hx, ys, hys, rfl⟩ := mem_product_cons.mp hxs
    have hfirst : x ∈ t₂.concrete m ↔ AcceptsParam r t owner e x :=
      (hm.classes.2 x).trans (and_iff_right hx)
    rw [Takes, ← hrest.exact ys hys, ← hfirst]
    constructor
    · rintro ⟨_, hms, hin⟩
      obtain ⟨ns, hns, rfl⟩ := Option.map_eq_some_iff.mp hms
      simp only [List.map_cons, Cover.within, Bool.and_eq_true, List.contains_iff_mem] at hin
      exact ⟨hin.1, ns, hns, hin.2⟩
    · rintro ⟨hx, ns, hns, hin⟩
      refine ⟨m :: ns, by rw [hns]; rfl, ?_⟩
      simp only [List.map_cons, Cover.within, Bool.and_eq_true, List.contains_iff_mem]
      exact ⟨hx, hin⟩
  · have hfirst := (hm.ne_zero_iff (hsingle arg List.mem_cons_self) h₂).mp hne
    have hothers := hrest.single fun d hd => hsingle d (List.mem_cons_of_mem _ hd)
    rw [Takes, ← hothers, and_iff_right hfirst, Option.isSome_map]

end Leaves

section

variable (hs : Shaped t) (h : WellFormed t) (hl : Linked t) (hr : r.Settled t)
  (howner : owner < t.size)

include hs h hl hr howner

/-- **A closed restriction leaves the classes that it accepts**, and binds nothing. -/
theorem Closed.adds_restrict {e : TypeExpr} (he : Closed r t owner e) {arg : TypeId}
    (harg : arg < t.size) (h₁ : Later t t₁) :
    Adds t₁ ((restrict r owner arg e).run []) fun t₂ p =>
      p.2 = [] ∧ Admitted t arg (Accepts r t owner e) t₂ p.1 := by
  induction he generalizing t₁ with
  | self =>
    rw [run_restrict_self]
    refine Adds.get_bind ?_
    rw [h₁.grown.selfType_eq howner]
    refine (hs.adds_restrict_admitted h hl harg (h.selfType_lt howner) h₁).bind ?_
    exact fun t₂ m h₂ _ hm => .pure h₂ ⟨rfl, hm⟩
  | @name names hknown =>
    obtain ⟨target, htarget⟩ := Option.isSome_iff_exists.mp hknown
    have hfree : (freeName? names).bind (Bindings.get? []) = none := by
      cases freeName? names <;> rfl
    rw [run_restrict_unbound hfree]
    refine Adds.get_bind ?_
    rw [hr.same howner h₁, htarget]
    refine (hs.adds_restrict_admitted h hl harg (hr.known howner htarget) h₁).bind ?_
    refine fun t₂ m h₂ _ hm => .pure h₂ ⟨rfl, hm.congr fun c => ?_⟩
    simp [Accepts, htarget]
  | @union alternatives _ ih =>
    rw [run_restrict_union]
    refine (adds_restrictEach h₁ fun e he t' h' => ih e he h').bind_later h₁.linked ?_
    rintro t₂ ⟨parts, b⟩ h₂ ⟨rfl, hall, hex⟩
    refine (hs.adds_unionOf_admitted h hl harg (h₁.trans h₂) hall hex).bind ?_
    refine fun t₃ m h₃ _ hm => .pure h₃ ⟨rfl, hm.congr fun c => ?_⟩
    rw [Accepts, acceptsAny_iff]

/-- A parameter whose restriction is closed, if it has one, leaves the classes that it accepts. -/
theorem adds_restrictParam {e : Option TypeExpr} (he : ∀ x, e = some x → Closed r t owner x)
    {arg : TypeId} (harg : arg < t.size) (h₁ : Later t t₁) :
    Adds t₁ ((restrictParam r owner arg e).run []) fun t₂ p =>
      p.2 = [] ∧ Admitted t arg (AcceptsParam r t owner e) t₂ p.1 := by
  cases e with
  | none => exact .pure h₁.wellFormed ⟨rfl, .self h hl harg h₁ fun _ => trivial⟩
  | some e => exact (he e rfl).adds_restrict hs h hl hr howner harg h₁

/-- **Parameters leave what they take**, combination by combination. -/
theorem adds_restrictArgs {params : List (Option TypeExpr)}
    (hp : ∀ e, some e ∈ params → Closed r t owner e) {args : List TypeId}
    (hargs : ∀ a ∈ args, a < t.size) (h₁ : Later t t₁) :
    Adds t₁ ((restrictArgs r owner args params).run []) fun t₂ p =>
      p.2 = [] ∧ Leaves r t owner params args t₂ p.1 := by
  induction args generalizing params t₁ with
  | nil =>
    rw [restrictArgs]
    exact .pure h₁.wellFormed ⟨rfl, .nil⟩
  | cons a args ih =>
    cases params with
    | nil =>
      rw [restrictArgs]
      exact .pure h₁.wellFormed ⟨rfl, .absent⟩
    | cons e params =>
      rw [run_restrictArgs_cons]
      refine (adds_restrictParam hs h hl hr howner (fun x hx => hp x (hx ▸ List.mem_cons_self))
        (hargs a List.mem_cons_self) h₁).bind_later h₁.linked ?_
      rintro t₂ ⟨m, b⟩ h₂ ⟨rfl, hm⟩
      simp only at hm ⊢
      split
      · rename_i hzero
        exact .pure h₂.wellFormed ⟨rfl, .rejected (hzero ▸ hm)⟩
      · rename_i hne
        refine (ih (fun d hd => hp d (List.mem_cons_of_mem _ hd))
          (fun d hd => hargs d (List.mem_cons_of_mem _ hd)) (h₁.trans h₂)).bind_later h₂.linked ?_
        rintro t₃ ⟨left, b⟩ h₃ ⟨rfl, hleft⟩
        have hm₃ := hm.of_grown h₃.grown h₂.wellFormed h₂.linked
        exact .pure h₃.wellFormed ⟨rfl, hleft.cons (h₁.trans (h₂.trans h₃)) hm₃ hne⟩

/-! ### Candidates -/

variable {ι : Type}

theorem adds_match {c : Candidate ι}
    (hc : ∀ e, some e ∈ c.restrictions → Closed r t owner e) {args : List TypeId}
    (hargs : ∀ a ∈ args, a < t.size) (h₁ : Later t t₁) :
    Adds t₁ («match» r c owner args) fun t₂ m =>
      Leaves r t owner (c.restrictions) args t₂ (m.map Match.argTypes) := by
  unfold «match»
  split
  · rename_i hlen
    exact .pure h₁.wellFormed (.short (by simpa [Candidate.restrictions] using hlen))
  · refine (adds_restrictArgs hs h hl hr howner hc hargs h₁).bind ?_
    rintro t₂ ⟨left, b⟩ h₂ _ ⟨rfl, hleft⟩
    refine .pure h₂ ?_
    simpa [Option.map_map, Function.comp_def] using hleft

/-- What is said of the matches among candidates: they cover the combinations that some candidate takes,
and if every argument is a single class, there is a match exactly if some candidate takes them. -/
structure Selected (r : Resolver) (t : Table) (owner : TypeId) (cs : List (Candidate ι))
    (args : List TypeId) (onlyFirst : Bool) (t₂ : Table) (list : List (Match ι)) : Prop where
  known : ∀ m ∈ list, ∀ a ∈ m.argTypes, a < t₂.size
  covered : onlyFirst = false → ∀ xs ∈ product (args.map t.concrete),
    (∃ m ∈ list, Cover.within (m.argTypes.map t₂.concrete) xs = true) ↔
      ∃ c ∈ cs, Takes r t owner c.restrictions xs
  single : (∀ a ∈ args, Single t a) →
    (list ≠ [] ↔ ∃ c ∈ cs, Takes r t owner c.restrictions args)

theorem adds_matching {cs : List (Candidate ι)}
    (hcs : ∀ c ∈ cs, ∀ e, some e ∈ c.restrictions → Closed r t owner e)
    {args : List TypeId} (hargs : ∀ a ∈ args, a < t.size) (onlyFirst : Bool) (h₁ : Later t t₁) :
    Adds t₁ (matching r onlyFirst owner args cs) (Selected r t owner cs args onlyFirst) := by
  induction cs generalizing t₁ with
  | nil =>
    rw [matching]
    exact .pure h₁.wellFormed ⟨by simp, by simp, by simp⟩
  | cons c cs ih =>
    rw [matching]
    refine (adds_match hs h hl hr howner (hcs c List.mem_cons_self) hargs h₁).bind_later h₁.linked ?_
    intro t₂ m h₂ hleft
    have hadds := ih (fun d hd => hcs d (List.mem_cons_of_mem c hd)) (h₁.trans h₂)
    cases m with
    | none =>
      -- a candidate without match takes nothing
      refine hadds.imp fun t₃ list _ _ hsel => ⟨hsel.known, fun hall xs hxs => ?_, fun hsingle => ?_⟩
      · have hnot : ¬ Takes r t owner c.restrictions xs := by
          rw [← hleft.exact xs hxs]
          simp
        simp [hsel.covered hall xs hxs, hnot]
      · have hnot : ¬ Takes r t owner c.restrictions args := by
          rw [← hleft.single hsingle]
          simp
        simp [hsel.single hsingle, hnot]
    | some m =>
      have hknown := hleft.known m.argTypes rfl
      have htakes : ∀ xs ∈ product (args.map t.concrete),
          Cover.within (m.argTypes.map t₂.concrete) xs = true ↔ Takes r t owner c.restrictions xs := by
        intro xs hxs
        rw [← hleft.exact xs hxs]
        simp
      simp only
      split
      · rename_i hfirst
        refine .pure h₂.wellFormed
          ⟨by simpa using hknown, fun hall => absurd hfirst (by simp [hall]), ?_⟩
        intro hsingle
        have := (hleft.single hsingle).mp rfl
        simp [this]
      · refine hadds.bind fun t₃ list h₃ hg₃ hsel => .pure h₃ ⟨?_, fun hall xs hxs => ?_, ?_⟩
        · refine List.forall_mem_cons.mpr ⟨fun a ha => hg₃.lt_size (hknown a ha), hsel.known⟩
        · have hsame : m.argTypes.map t₃.concrete = m.argTypes.map t₂.concrete :=
            List.map_congr_left fun a ha =>
              hg₃.concrete_eq h₂.wellFormed h₂.linked (hknown a ha)
          simp [hsame, htakes xs hxs, hsel.covered hall xs hxs]
        · intro hsingle
          have := (hleft.single hsingle).mp rfl
          simp [this]

/-- A combination of single classes is accepted on its own if some candidate takes it. -/
theorem adds_select_single {cs : List (Candidate ι)}
    (hcs : ∀ c ∈ cs, ∀ e, some e ∈ c.restrictions → Closed r t owner e)
    {args : List TypeId} (hargs : ∀ a ∈ args, Single t a) (h₁ : Later t t₁) :
    Adds t₁ (select r cs owner args) fun _ m => m.cover = none ∧
      (m.list ≠ [] ↔ ∃ c ∈ cs, Takes r t owner c.restrictions args) := by
  have hseveral : args.any (isSeveral t₁) = false :=
    List.any_eq_false.mpr fun a ha => not_isSeveral ((hargs a ha).of_grown h₁.grown)
  refine Adds.get_bind ?_
  rw [hseveral]
  refine (adds_matching hs h hl hr howner hcs (fun a ha => (hargs a ha).lt_size) true h₁).bind ?_
  exact fun t₂ list h₂ _ hsel => .pure h₂ ⟨rfl, hsel.single hargs⟩

/-- If some argument is several classes at once, the cover records the combinations that some candidate
takes. -/
theorem adds_select_several {cs : List (Candidate ι)}
    (hcs : ∀ c ∈ cs, ∀ e, some e ∈ c.restrictions → Closed r t owner e)
    {args : List TypeId} (hargs : ∀ a ∈ args, a < t.size)
    (hseveral : ∃ a ∈ args, isSeveral t a = true) (h₁ : Later t t₁) :
    Adds t₁ (select r cs owner args) fun _ m => ∃ cover P, m.cover = some cover ∧
      cover.dims = args.map t.concrete ∧ cover.Records P ∧
      (∀ xs ∈ product (args.map t.concrete),
        P xs = true ↔ ∃ c ∈ cs, Takes r t owner c.restrictions xs) ∧
      ∀ xs ∈ product (args.map t.concrete), P xs = true → m.list ≠ [] := by
  have hany : args.any (isSeveral t₁) = true := by
    obtain ⟨a, ha, hsev⟩ := hseveral
    refine List.any_eq_true.mpr ⟨a, ha, ?_⟩
    rw [isSeveral_iff] at hsev ⊢
    rwa [h₁.grown.get?_eq (hargs a ha)]
  refine Adds.get_bind ?_
  rw [hany]
  refine (adds_matching hs h hl hr howner hcs hargs false h₁).bind_later h₁.linked
    fun t₂ list h₂ hsel => ?_
  have hdims : args.map t₂.concrete = args.map t.concrete :=
    List.map_congr_left fun a ha => (h₁.trans h₂).grown.concrete_eq h hl (hargs a ha)
  refine Adds.get_bind (.pure h₂.wellFormed ?_)
  refine ⟨_, _, rfl, (Cover.dims_marked t₂ args list).trans hdims, Cover.records_marked t₂ args list,
    fun xs hxs => ?_, fun xs hxs hin => ?_⟩
  · rw [List.any_eq_true]
    exact hsel.covered rfl xs hxs
  · obtain ⟨m, hm, -⟩ := List.any_eq_true.mp hin
    exact List.ne_nil_of_mem hm

end

end Overload

open Table Overload

/-- **The cover of closed signatures is exact**: it misses, in the order of the product, the combinations
of classes for which no candidate matches when they are resolved on their own. So a call is accepted
exactly if every combination is. -/
theorem Table.Inferred.missing_select {ι : Type} {r : Resolver} {t : Table} (h : Inferred t)
    (hr : r.Settled t) {cs : List (Candidate ι)} {receiver : TypeId} (hreceiver : receiver < t.size)
    (hcs : ∀ c ∈ cs, ∀ e, some e ∈ c.restrictions → Closed r t receiver e)
    {args : List TypeId} (hargs : ∀ a ∈ args, a ≠ 0 ∧ a < t.size)
    (hseveral : ∃ a ∈ args, isSeveral t a = true) :
    let result := ((select r cs receiver args).run t).1
    ∃ cover, result.cover = some cover ∧ ∀ t₁, Later t t₁ →
      (cover.missing = (product (args.map t.concrete)).filter fun xs =>
        ((select r cs receiver xs).run t₁).1.list.isEmpty) ∧
      (result.found = true ↔ ∀ xs ∈ product (args.map t.concrete),
        ((select r cs receiver xs).run t₁).1.found = true) := by
  obtain ⟨hwf, hl, hs⟩ := h.invariants
  have hknown : ∀ a ∈ args, a < t.size := fun a ha => (hargs a ha).2
  obtain ⟨cover, P, hcover, hdims, hrecords, hP, hlist⟩ :=
    (adds_select_several hs hwf hl hr hreceiver hcs hknown hseveral (.refl hwf hl)).2.2
  refine ⟨cover, hcover, fun t₁ h₁ => ?_⟩
  -- a combination is accepted on its own if some candidate takes it
  have halone : ∀ xs ∈ product (args.map t.concrete),
      ((select r cs receiver xs).run t₁).1.cover = none ∧
      (((select r cs receiver xs).run t₁).1.list ≠ [] ↔ P xs = true) := by
    intro xs hxs
    have hclasses := single_of_mem_product hs hwf hl hknown hxs
    have hsel := (adds_select_single hs hwf hl hr hreceiver hcs hclasses h₁).2.2
    exact ⟨hsel.1, hsel.2.trans (hP xs hxs).symm⟩
  refine ⟨?_, ?_⟩
  · rw [hrecords.missing_eq, hdims]
    refine List.filter_congr fun xs hxs => ?_
    rw [Bool.eq_iff_iff, Bool.not_eq_true', List.isEmpty_iff, ← Bool.not_eq_true,
      ← (halone xs hxs).2, not_not]
  · have hproduct : product (args.map t.concrete) ≠ [] := by
      refine product_ne_nil fun dim hdim => ?_
      obtain ⟨a, ha, rfl⟩ := List.mem_map.mp hdim
      exact mt (hwf.concrete_eq_nil_iff hl).mp (hargs a ha).1
    obtain ⟨ys, hys⟩ := List.exists_mem_of_ne_nil _ hproduct
    have hall : cover.all = true ↔ ∀ xs ∈ product (args.map t.concrete), P xs = true := by
      rw [hrecords.all_eq, hdims, List.all_eq_true]
    rw [Matches.found_of_cover hcover, hall]
    constructor
    · rintro ⟨-, hcovered⟩ xs hxs
      exact (Matches.found_of_no_cover (halone xs hxs).1).mpr
        ((halone xs hxs).2.mpr (hcovered xs hxs))
    · intro hfound
      have hcovered : ∀ xs ∈ product (args.map t.concrete), P xs = true := fun xs hxs =>
        (halone xs hxs).2.mp ((Matches.found_of_no_cover (halone xs hxs).1).mp (hfound xs hxs))
      exact ⟨hlist ys hys (hcovered ys hys), hcovered⟩

/-- Two methods of shapes: the first takes what the module stands for and anything, the second nil or a
circle, and a shape. -/
def drawings : List (Candidate String) :=
  [⟨"sized", 14, [("a", some (.named ["Sized"] [])), ("b", none)]⟩,
    ⟨"round", 14, [("a", some (.union [.named ["Nil"] [], .named ["Circle"] []])), ("b", some .self)]⟩]

/-- Of the combinations of nil and the shapes with the same, those are missing whose first class is the
base, and those of nil or a circle with nil. -/
theorem missing_select_drawings :
    Inferred shapes ∧ resolveType?.Settled shapes ∧ 14 < shapes.size ∧
    (∀ c ∈ drawings, ∀ e, some e ∈ c.restrictions → Closed resolveType? shapes 14 e) ∧
    (∀ a ∈ [19, 19], a ≠ 0 ∧ a < shapes.size) ∧ (∃ a ∈ [19, 19], isSeveral shapes a = true) ∧
    ∃ cover, ((select resolveType? drawings 14 [19, 19]).run shapes).1.cover = some cover ∧
      cover.missing = [[Builtin.nil, Builtin.nil], [14, Builtin.nil], [14, 14], [14, 15], [14, 16],
        [16, Builtin.nil]] := by
  have hinf : Inferred shapes := Inferred.initial.runAll (by decide +kernel)
  have hr : resolveType?.Settled shapes := hinf.invariants.1.settled_resolveType? (by decide +kernel)
  have hreceiver : 14 < shapes.size := by decide +kernel
  have hcs : ∀ c ∈ drawings, ∀ e, some e ∈ c.restrictions → Closed resolveType? shapes 14 e := by
    have hname : ∀ n ∈ ["Sized", "Nil", "Circle"], (resolveType? shapes 14 [n]).isSome := by
      decide +kernel
    have hsized := Closed.name (hname "Sized" (by simp))
    have hnil := Closed.name (hname "Nil" (by simp))
    have hcircle := Closed.name (hname "Circle" (by simp))
    have hround : Closed resolveType? shapes 14
        (.union [.named ["Nil"] [], .named ["Circle"] []]) := .union (by simp [hnil, hcircle])
    simp [drawings, Candidate.restrictions, or_imp, forall_and, hsized, hround, Closed.self]
  have hargs : ∀ a ∈ [19, 19], a ≠ 0 ∧ a < shapes.size := by decide +kernel
  have hseveral : ∃ a ∈ [19, 19], isSeveral shapes a = true := by decide +kernel
  refine ⟨hinf, hr, hreceiver, hcs, hargs, hseveral, ?_⟩
  obtain ⟨cover, hcover, hmissing⟩ := hinf.missing_select hr hreceiver hcs hargs hseveral
  refine ⟨cover, hcover, ?_⟩
  rw [(hmissing shapes (.refl hinf.invariants.1 hinf.invariants.2.1)).1]
  decide +kernel

end TypeFlow
