import TypeFlow.Proofs.Overload.Exact
import TypeFlow.Proofs.Overload.Steady

/-!
# Linear signatures

A free type variable is bound to the first type that it meets, and every later occurrence has to agree. So
what a restriction makes of a class may depend on what the class came with: as part of a union it meets
variables that are bound to the union, or to what an earlier member has left in them.

For signatures in which no variable occurs twice (`Linear`), and a variable in a type argument is all of it
(`Shallow`), this does not matter. Matching an argument leaves classes each of which is accepted on its own,
on every later table and whatever other variables are bound to (`Reliable`). Names and generic names are
reliable for themselves (`reliable_name`, `reliable_generic`); alternatives are, because the variables of
one are not touched by the others (`reliable_union`).
-/

namespace TypeFlow

namespace Overload

open Table

section

variable (r : Resolver) (t : Table) (owner : TypeId)

/-- A restriction in which a free type variable that is part of a type argument is all of it. Deeper inside,
a variable may meet the members of a union one after the other, and occur several times in effect. -/
inductive Shallow : TypeExpr → Prop
  | self : Shallow .self
  | union {alternatives : List TypeExpr} : (∀ e ∈ alternatives, Shallow e) →
      Shallow (.union alternatives)
  | named {names : List String} {args : List TypeExpr} :
      (∀ e ∈ args, freeNames r t owner e = [] ∨ ∃ n, e = .named [n] []) → Shallow (.named names args)

/-- The free type variables of a parameter. -/
def paramNames : Option TypeExpr → List String
  | none => []
  | some e => freeNames r t owner e

/-- Parameters with shallow restrictions in which no free type variable occurs twice. -/
structure Linear (params : List (Option TypeExpr)) : Prop where
  shallow : ∀ e, some e ∈ params → Shallow r t owner e
  nodup : (params.flatMap (paramNames r t owner)).Nodup

/-- Bindings of free type variables to types of the table. -/
def Binds (b : Bindings) : Prop :=
  ∀ p ∈ b, r t owner [p.1] = none ∧ p.2 < t.size

/-- Bindings that add nothing but variables out of `names`. -/
structure BindsOnly (names : List String) (b b' : Bindings) : Prop where
  binds : Binds r t owner b'
  only : ∀ p ∈ b', p ∈ b ∨ p.1 ∈ names

/-- Now or later, on bindings of other variables than `names`, the computation ends in `P`, and binds no
other variables than these. -/
def Succeeds {α : Type} (t₁ : Table) (names : List String) (x : Matching α) (P : α → Prop) : Prop :=
  ∀ t₂, Later t₁ t₂ → ∀ b, Binds r t owner b → (∀ p ∈ b, p.1 ∉ names) →
    Adds t₂ (x.run b) fun _ p => P p.1 ∧ BindsOnly r t owner names b p.2

/-- What is left of an argument: some of its classes, each of which is accepted on its own. -/
structure Narrowed (names : List String) (f : TypeId → Matching TypeId) (arg : TypeId) (b : Bindings)
    (t₂ : Table) (p : TypeId × Bindings) : Prop where
  known : p.1 < t₂.size
  binds : BindsOnly r t owner names b p.2
  alone : ∀ c ∈ t₂.concrete p.1, c ∈ t.concrete arg ∧
    Succeeds r t owner t₂ names (f c) fun m => m ≠ 0

/-- Matching with free type variables `names`, whatever is bound already. -/
def Reliable (names : List String) (f : TypeId → Matching TypeId) : Prop :=
  ∀ ⦃arg : TypeId⦄, arg < t.size → ∀ ⦃b : Bindings⦄, Binds r t owner b → ∀ ⦃t₁ : Table⦄, Later t t₁ →
    Adds t₁ ((f arg).run b) (Narrowed r t owner names f arg b)

end

variable {r : Resolver} {t t₁ t₂ : Table} {owner : TypeId} {names names' : List String}
  {b b₁ b₂ : Bindings}

/-! ### Bindings -/

theorem Bindings.get?_eq_none {b : Bindings} {n : String} (h : ∀ p ∈ b, p.1 ≠ n) :
    b.get? n = none := by
  rw [Bindings.get?, Option.map_eq_none_iff, List.find?_eq_none]
  exact fun p hp => by simpa using h p hp

theorem Binds.get?_eq_none (hb : Binds r t owner b) {names : List String} {target : TypeId}
    (htarget : r t owner names = some target) : (freeName? names).bind b.get? = none := by
  rw [Option.bind_eq_none_iff]
  intro n hn
  obtain ⟨rfl, -⟩ := freeName?_eq_some_iff.mp hn
  refine Bindings.get?_eq_none fun p hp hname => ?_
  have hunknown := (hb p hp).1
  rw [hname, htarget] at hunknown
  exact absurd hunknown (by simp)

namespace BindsOnly

theorem refl (hb : Binds r t owner b) : BindsOnly r t owner names b b :=
  ⟨hb, fun _ hp => .inl hp⟩

theorem mono (h : BindsOnly r t owner names b b₁) (hsub : names ⊆ names') :
    BindsOnly r t owner names' b b₁ :=
  ⟨h.binds, fun p hp => (h.only p hp).imp_right fun hn => hsub hn⟩

theorem trans (h : BindsOnly r t owner names b b₁) (h' : BindsOnly r t owner names' b₁ b₂) :
    BindsOnly r t owner (names ++ names') b b₂ := by
  refine ⟨h'.binds, fun p hp => ?_⟩
  rcases h'.only p hp with hp | hp
  · exact (h.only p hp).imp_right fun hn => List.mem_append_left _ hn
  · exact .inr (List.mem_append_right _ hp)

/-- What other variables were bound to stays out of the way of the ones still to come. -/
theorem avoids (h : BindsOnly r t owner names b b₁) (hnodup : (names ++ names').Nodup)
    (hb : ∀ p ∈ b, p.1 ∉ names ++ names') : ∀ p ∈ b₁, p.1 ∉ names' := by
  intro p hp hn
  rcases h.only p hp with hp | hp
  · exact hb p hp (List.mem_append_right _ hn)
  · exact (List.nodup_append.mp hnodup).2.2 p.1 hp p.1 hn rfl

end BindsOnly

namespace Succeeds

variable {α β : Type} {x : Matching α} {P : α → Prop} {R : β → Prop}

theorem later (hx : Succeeds r t owner t₁ names x P) (h₂ : Later t₁ t₂) :
    Succeeds r t owner t₂ names x P :=
  fun t₃ h₃ => hx t₃ (h₂.trans h₃)

theorem pure {a : α} (ha : P a) : Succeeds r t owner t₁ names (pure a) P :=
  fun _ h₂ _ hb _ => .pure h₂.wellFormed ⟨ha, .refl hb⟩

/-- One after the other, with different variables. -/
theorem bind {f : α → Matching β} (hx : Succeeds r t owner t₁ names x P)
    (hnodup : (names ++ names').Nodup)
    (hf : ∀ t₂ a, Later t₁ t₂ → P a → Succeeds r t owner t₂ names' (f a) R) :
    Succeeds r t owner t₁ (names ++ names') (x >>= f) R := by
  intro t₂ h₂ b hb hnew
  have hfirst := hx t₂ h₂ b hb fun p hp hn => hnew p hp (List.mem_append_left _ hn)
  rw [StateT.run_bind]
  refine hfirst.bind_later h₂.linked ?_
  rintro t₃ ⟨a, b₁⟩ h₃ ⟨ha, hb₁⟩
  have hrest := hf t₃ a (h₂.trans h₃) ha t₃ (.refl h₃.wellFormed h₃.linked) b₁ hb₁.binds
    (hb₁.avoids hnodup hnew)
  exact hrest.imp fun _ _ _ _ ⟨hR, hb₂⟩ => ⟨hR, hb₁.trans hb₂⟩

theorem bind_pure {f : α → β} (hx : Succeeds r t owner t₁ names x P) (hf : ∀ a, P a → R (f a)) :
    Succeeds r t owner t₁ names (do let a ← x; return f a) R := by
  intro t₂ h₂ b hb hnew
  rw [StateT.run_bind]
  refine (hx t₂ h₂ b hb hnew).bind ?_
  exact fun _ p h₃ _ ⟨ha, hb₁⟩ => .pure h₃ ⟨hf p.1 ha, hb₁⟩

end Succeeds

/-! ### Names -/

/-- A name is a free type variable, or has none. -/
theorem freeNames_name (names : List String) : freeNames r t owner (.named names []) = [] ∨
    ∃ n, names = [n] ∧ n ≠ "" ∧ r t owner [n] = none ∧ freeNames r t owner (.named [n] []) = [n] := by
  cases htarget : r t owner names with
  | some target => simp [freeNames, htarget]
  | none =>
    cases hname : freeName? names with
    | none => simp [freeNames, htarget, hname]
    | some n =>
      obtain ⟨rfl, hne⟩ := freeName?_eq_some_iff.mp hname
      exact .inr ⟨n, rfl, hne, htarget, by simp [freeNames, htarget, hname]⟩

section Variables

variable {n : String} (hr : r.Settled t) (howner : owner < t.size) (hn : r t owner [n] = none)
  (hne : n ≠ "")

include hr howner hn hne

/-- A variable that is not bound accepts a type whole. -/
theorem succeeds_variable {arg : TypeId} (harg : arg < t.size) (h₁ : Later t t₁) :
    Succeeds r t owner t₁ [n] (restrict r owner arg (.named [n] [])) fun m => m = arg := by
  intro t₂ h₂ b hb hnew
  have hname : freeName? [n] = some n := freeName?_eq_some_iff.mpr ⟨rfl, hne⟩
  have hfree : (freeName? [n]).bind b.get? = none := by
    rw [hname]
    exact Bindings.get?_eq_none fun p hp => by simpa using hnew p hp
  rw [run_restrict_unbound hfree]
  refine Adds.get_bind ?_
  rw [hr.same howner (h₁.trans h₂), hn, hname]
  refine .pure h₂.wellFormed ⟨rfl, List.forall_mem_cons.mpr ⟨⟨hn, harg⟩, hb⟩, ?_⟩
  exact List.forall_mem_cons.mpr ⟨.inr (by simp), fun p hp => .inl hp⟩

variable (hs : Shaped t) (h : WellFormed t) (hl : Linked t)

include hs h hl

/-- A variable that is bound accepts what fits, and one that is not accepts everything. -/
theorem reliable_variable : Reliable r t owner [n] (restrict r owner · (.named [n] [])) := by
  intro arg harg b hb t₁ h₁
  have hname : freeName? [n] = some n := freeName?_eq_some_iff.mpr ⟨rfl, hne⟩
  have halone : ∀ {t₂ c}, Later t t₂ → c ∈ t.concrete arg →
      Succeeds r t owner t₂ [n] (restrict r owner c (.named [n] [])) fun m => m ≠ 0 := by
    intro t₂ c h₂ hc t₃ h₃ b' hb' hnew
    have hsingle := hs.single_of_mem_concrete h hl harg hc
    refine (succeeds_variable hr howner hn hne hsingle.lt_size h₂ t₃ h₃ b' hb' hnew).imp ?_
    rintro _ ⟨m, _⟩ - - ⟨rfl, hb''⟩
    exact ⟨hsingle.ne_zero, hb''⟩
  cases hbound : b.get? n with
  | some bound =>
    have hfree : (freeName? [n]).bind b.get? = some bound := by rw [hname, Option.bind_some, hbound]
    have hlt : bound < t.size := (hb _ (Bindings.mem_of_get? hbound)).2
    rw [run_restrict_bound hfree]
    refine (hs.adds_restrict_admitted h hl harg hlt h₁).bind_later h₁.linked fun t₂ m h₂ hm => ?_
    refine .pure h₂.wellFormed ⟨hm.classes.1, .refl hb, fun c hc => ?_⟩
    have hc := ((hm.classes.2 c).mp hc).1
    exact ⟨hc, halone (h₁.trans h₂) hc⟩
  | none =>
    have hnew : ∀ p ∈ b, p.1 ∉ [n] := by
      intro p hp hpn
      obtain rfl := List.mem_singleton.mp hpn
      have := List.find?_eq_none.mp (Option.map_eq_none_iff.mp hbound) p hp
      simp at this
    have hwhole := succeeds_variable hr howner hn hne harg h₁ t₁ (.refl h₁.wellFormed h₁.linked) b hb
      hnew
    refine hwhole.imp ?_
    rintro t₂ ⟨m, b'⟩ h₂ hg ⟨rfl, hb'⟩
    have h₂' : Later t t₂ := h₁.trans ⟨h₂, h₁.linked.of_grown hg, hg⟩
    refine ⟨h₂'.lt_size harg, hb', fun c hc => ?_⟩
    rw [h₂'.grown.concrete_eq h hl harg] at hc
    exact ⟨hc, halone h₂' hc⟩

end Variables

section

variable (hs : Shaped t) (h : WellFormed t) (hl : Linked t)

include hs h hl

/-- What restricts to a fixed type is reliable. -/
theorem reliable_of_target {f : TypeId → Matching TypeId} {target : TypeId} (htarget : target < t.size)
    (hrun : ∀ {t₁ : Table}, Later t t₁ → ∀ {b : Bindings}, Binds r t owner b → ∀ x,
      ((f x).run b).run t₁ = (do let m ← Table.restrict x target; return (m, b) :
        TableM (TypeId × Bindings)).run t₁) : Reliable r t owner [] f := by
  have hadds : ∀ {x : TypeId}, x < t.size → ∀ {b : Bindings}, Binds r t owner b → ∀ {t₁ : Table},
      Later t t₁ → Adds t₁ ((f x).run b) fun t₂ p =>
        p.2 = b ∧ Admitted t x (t.Meets target) t₂ p.1 := by
    intro x hx b hb t₁ h₁
    refine Adds.of_run_eq ?_ (hrun h₁ hb x)
    exact (hs.adds_restrict_admitted h hl hx htarget h₁).bind fun t₂ m h₂ _ hm => .pure h₂ ⟨rfl, hm⟩
  intro arg harg b hb t₁ h₁
  refine (hadds harg hb h₁).imp ?_
  rintro t₂ ⟨m, _⟩ h₂ hg ⟨rfl, hm⟩
  have h₂' : Later t t₂ := h₁.trans ⟨h₂, h₁.linked.of_grown hg, hg⟩
  refine ⟨hm.classes.1, .refl hb, fun c hc => ?_⟩
  obtain ⟨hc, hmeets⟩ := (hm.classes.2 c).mp hc
  refine ⟨hc, fun t₃ h₃ b' hb' _ => ?_⟩
  have hsingle := hs.single_of_mem_concrete h hl harg hc
  refine (hadds hsingle.lt_size hb' (h₂'.trans h₃)).imp ?_
  rintro t₄ ⟨m', _⟩ h₄ hg' ⟨rfl, hm'⟩
  have h₄' : Later t t₄ := h₂'.trans (h₃.trans ⟨h₄, h₃.linked.of_grown hg', hg'⟩)
  exact ⟨(hm'.ne_zero_iff hsingle h₄').mpr hmeets, .refl hb'⟩

variable (hr : r.Settled t) (howner : owner < t.size)

include hr howner

theorem reliable_name (names : List String) :
    Reliable r t owner (freeNames r t owner (.named names [])) (restrict r owner · (.named names [])) := by
  cases htarget : r t owner names with
  | some target =>
    have hnames : freeNames r t owner (.named names []) = [] := by simp [freeNames, htarget]
    rw [hnames]
    refine reliable_of_target hs h hl (hr.known howner htarget) fun {t₁} h₁ {b} hb x => ?_
    rw [run_restrict_unbound (hb.get?_eq_none htarget), run_get_bind, hr.same howner h₁, htarget]
  | none =>
    have hcases : freeNames r t owner (.named names []) = [] ∨ _ := freeNames_name names
    rcases hcases with hnil | ⟨n, rfl, hne, hn, hnames⟩
    · -- a path of names that nothing is known by leaves nothing
      have hname : freeName? names = none := by simpa [freeNames, htarget] using hnil
      intro arg harg b hb t₁ h₁
      rw [run_restrict_unbound (by rw [hname]; rfl)]
      refine Adds.get_bind ?_
      rw [hr.same howner h₁, htarget, hname]
      exact .pure h₁.wellFormed ⟨t₁.size_pos, .refl hb, fun c hc => absurd hc (by simp)⟩
    · rw [hnames]
      exact reliable_variable hr howner hn hne hs h hl

/-! ### Generic names -/

/-- A type argument that is accepted whole is accepted whole again. -/
theorem adds_restrict_typeArg {e : TypeExpr}
    (he : freeNames r t owner e = [] ∨ ∃ n, e = .named [n] []) {a : TypeId} (ha : a < t.size)
    (hb : Binds r t owner b) (h₁ : Later t t₁) :
    Adds t₁ ((restrict r owner a e).run b) fun t₂ p =>
      BindsOnly r t owner (freeNames r t owner e) b p.2 ∧
      (p.1 = a → Succeeds r t owner t₂ (freeNames r t owner e) (restrict r owner a e) fun m =>
        m = a) := by
  have hcases : freeNames r t owner e = [] ∨ ∃ n, e = .named [n] [] ∧ n ≠ "" ∧
      r t owner [n] = none ∧ freeNames r t owner (.named [n] []) = [n] := by
    rcases he with he | ⟨n, rfl⟩
    · exact .inl he
    · refine (freeNames_name [n]).imp_right ?_
      rintro ⟨m, hm, hrest⟩
      obtain rfl : n = m := by simpa using hm
      exact ⟨n, rfl, hrest⟩
  rcases hcases with hnil | ⟨n, rfl, hne, hn, hnames⟩
  · have hsteady := steady_restrict hr howner e hnil ha (.refl h hl)
    refine (hsteady.adds_again (fun p hp => (hb p hp).1) h₁).imp ?_
    rintro t₂ ⟨m, _⟩ - - ⟨rfl, -, hagain⟩
    refine ⟨.refl hb, ?_⟩
    rintro rfl t₃ h₃ b' hb' -
    refine (hagain t₃ h₃ b' fun p hp => (hb' p hp).1).imp ?_
    rintro t₄ ⟨m', _⟩ - - ⟨rfl, hsame⟩
    exact ⟨hsame, .refl hb'⟩
  · rw [hnames]
    refine (reliable_variable hr howner hn hne hs h hl ha hb h₁).imp fun t₂ p h₂ hg hp => ⟨hp.binds, ?_⟩
    exact fun _ => succeeds_variable hr howner hn hne ha (h₁.trans ⟨h₂, h₁.linked.of_grown hg, hg⟩)

theorem adds_agree {args : List TypeExpr}
    (hargs : ∀ e ∈ args, freeNames r t owner e = [] ∨ ∃ n, e = .named [n] [])
    (hnodup : (freeNamesAll r t owner args).Nodup) {given : List TypeId}
    (hgiven : ∀ a ∈ given, a < t.size) (hb : Binds r t owner b) (h₁ : Later t t₁) :
    Adds t₁ ((agree r owner given args).run b) fun t₂ p =>
      BindsOnly r t owner (freeNamesAll r t owner args) b p.2 ∧
      (p.1 = true → Succeeds r t owner t₂ (freeNamesAll r t owner args) (agree r owner given args)
        fun ok => ok = true) := by
  induction args generalizing given b t₁ with
  | nil =>
    rw [agree]
    exact .pure h₁.wellFormed ⟨.refl hb, fun _ => .pure rfl⟩
  | cons e rest ih =>
    cases given with
    | nil =>
      rw [agree]
      exact .pure h₁.wellFormed ⟨.refl hb, fun _ => .pure rfl⟩
    | cons a more =>
      obtain ⟨he, hrest⟩ := List.forall_mem_cons.mp hargs
      obtain ⟨ha, hmore⟩ := List.forall_mem_cons.mp hgiven
      rw [freeNamesAll] at hnodup ⊢
      rw [run_agree_cons]
      refine (adds_restrict_typeArg hs h hl hr howner he ha hb h₁).bind_later h₁.linked ?_
      rintro t₂ ⟨m, b₁⟩ h₂ ⟨hb₁, hfirst⟩
      simp only at hfirst ⊢
      split
      · rename_i heq
        have hnext := ih hrest (List.nodup_append.mp hnodup).2.1 hmore hb₁.binds (h₁.trans h₂)
        refine hnext.imp ?_
        rintro t₃ ⟨ok, b₂⟩ h₃ hg ⟨hb₂, hagree⟩
        refine ⟨hb₁.trans hb₂, fun htrue => ?_⟩
        have h₃' : Later t₂ t₃ := ⟨h₃, h₂.linked.of_grown hg, hg⟩
        rw [agree]
        refine ((hfirst heq).later h₃').bind hnodup fun t₄ m' h₄ hm' => ?_
        rw [if_pos hm']
        exact (hagree htrue).later h₄
      · exact .pure h₂.wellFormed ⟨hb₁.mono (List.subset_append_left _ _), by simp⟩

/-- A member that is kept is kept again. -/
theorem adds_keeps {args : List TypeExpr}
    (hargs : ∀ e ∈ args, freeNames r t owner e = [] ∨ ∃ n, e = .named [n] [])
    (hnodup : (freeNamesAll r t owner args).Nodup) (template : TypeId) {m : TypeId}
    (hm : m < t.size) (hb : Binds r t owner b) (h₁ : Later t t₁) :
    Adds t₁ ((keeps r owner args template m).run b) fun t₂ p =>
      BindsOnly r t owner (freeNamesAll r t owner args) b p.2 ∧
      (p.1 = true → (instanceArgs t m template).length = args.length ∧
        Succeeds r t owner t₂ (freeNamesAll r t owner args) (keeps r owner args template m)
          fun ok => ok = true) := by
  rw [run_keeps]
  refine Adds.get_bind ?_
  rw [instanceArgs_later h₁ hm]
  split
  · exact .pure h₁.wellFormed ⟨.refl hb, by simp⟩
  · rename_i hlen
    have hgiven : ∀ a ∈ instanceArgs t m template, a < t.size := instanceArgs_lt h
    refine (adds_agree hs h hl hr howner hargs hnodup hgiven hb h₁).imp ?_
    rintro t₂ ⟨ok, b₁⟩ h₂ hg ⟨hb₁, hagree⟩
    refine ⟨hb₁, fun htrue => ⟨not_not.mp hlen, fun t₃ h₃ b' hb' hnew => ?_⟩⟩
    have h₃' : Later t t₃ := h₁.trans (.trans ⟨h₂, h₁.linked.of_grown hg, hg⟩ h₃)
    rw [run_keeps]
    refine Adds.get_bind ?_
    rw [instanceArgs_later h₃' hm, if_neg hlen]
    exact hagree htrue t₃ h₃ b' hb' hnew

theorem adds_filterM_keeps {args : List TypeExpr}
    (hargs : ∀ e ∈ args, freeNames r t owner e = [] ∨ ∃ n, e = .named [n] [])
    (hnodup : (freeNamesAll r t owner args).Nodup) (template : TypeId) {ms : List TypeId}
    (hms : ∀ m ∈ ms, m < t.size) (hb : Binds r t owner b) (h₁ : Later t t₁) :
    Adds t₁ ((ms.filterM (keeps r owner args template)).run b) fun t₂ p =>
      BindsOnly r t owner (freeNamesAll r t owner args) b p.2 ∧
      ∀ m ∈ p.1, m ∈ ms ∧ (instanceArgs t m template).length = args.length ∧
        Succeeds r t owner t₂ (freeNamesAll r t owner args) (keeps r owner args template m)
          fun ok => ok = true := by
  induction ms generalizing b t₁ with
  | nil => exact .pure h₁.wellFormed ⟨.refl hb, by simp⟩
  | cons m ms ih =>
    obtain ⟨hm, hms⟩ := List.forall_mem_cons.mp hms
    rw [filterM_cons, StateT.run_bind]
    refine (adds_keeps hs h hl hr howner hargs hnodup template hm hb h₁).bind_later h₁.linked ?_
    rintro t₂ ⟨keep, b₁⟩ h₂ ⟨hb₁, hkeep⟩
    rw [StateT.run_bind]
    refine (ih hms hb₁.binds (h₁.trans h₂)).bind_later h₂.linked ?_
    rintro t₃ ⟨kept, b₂⟩ h₃ ⟨hb₂, hkept⟩
    refine .pure h₃.wellFormed ⟨(hb₁.trans hb₂).mono (by simp), fun x hx => ?_⟩
    have htail : ∀ x ∈ kept, x ∈ m :: ms ∧ (instanceArgs t x template).length = args.length ∧ _ :=
      fun x hx => ⟨List.mem_cons_of_mem _ (hkept x hx).1, (hkept x hx).2⟩
    cases keep
    · exact htail x hx
    · rcases List.mem_cons.mp hx with rfl | hx
      · obtain ⟨hlen, hsucc⟩ := hkeep rfl
        exact ⟨List.mem_cons_self, hlen, hsucc.later h₃⟩
      · exact htail x hx

omit hs h hl hr howner in
/-- An instance of a generic class stands for itself. -/
theorem single_of_instanceArgs (template : TypeId) {m : TypeId}
    (hne : instanceArgs t m template ≠ []) : Single t m := by
  unfold instanceArgs at hne
  split at hne
  · rename_i pointee hp
    exact ⟨Nat.ne_of_gt (pos_of_get? hp), lt_size_of_get? hp, by simp [hp], by simp [hp]⟩
  · rename_i o ho
    exact .of_object ho
  · exact absurd rfl hne

omit hs h hl in
/-- An instance that is kept is accepted on its own. -/
theorem succeeds_generic {args : List TypeExpr} (hne : args ≠ []) {gen : List String}
    {template c : TypeId} (htemplate : r t owner gen = some template) (hc : Single t c)
    (h₁ : Later t t₁)
    (hkeep : Succeeds r t owner t₁ names (keeps r owner args template c) fun ok => ok = true) :
    Succeeds r t owner t₁ names (restrict r owner c (.named gen args)) fun m => m ≠ 0 := by
  intro t₂ h₂ b hb hnew
  have h₂' := h₁.trans h₂
  have hself : t₂.members c = [c] := by
    have hc₂ := hc.of_grown h₂'.grown
    exact members_of_not_union hc₂.ne_zero hc₂.no_union
  rw [run_restrict_generic gen hne]
  refine Adds.get_bind ?_
  rw [hr.same howner h₂', htemplate, hself]
  simp only [filterM_cons, StateT.run_bind, bind_assoc]
  refine (hkeep t₂ h₂ b hb hnew).bind_later h₂.linked ?_
  rintro t₃ ⟨ok, b₁⟩ h₃ ⟨rfl, hb₁⟩
  have hc₃ := hc.of_grown (h₂'.trans h₃).grown
  have hcopies : ∀ a ∈ [c], a = c := by simp
  change Adds t₃ (do let m ← Table.unionOf [c]; return (m, b₁)) _
  refine (h₃.wellFormed.adds_unionOf_copies hc₃ hcopies).bind ?_
  rintro t₄ m h₄ - rfl
  exact .pure h₄ ⟨by simpa using hc.ne_zero, hb₁⟩

theorem reliable_generic {args : List TypeExpr} (hne : args ≠ []) {gen : List String}
    (hargs : ∀ e ∈ args, freeNames r t owner e = [] ∨ ∃ n, e = .named [n] [])
    (hnodup : (freeNamesAll r t owner args).Nodup) :
    Reliable r t owner (freeNamesAll r t owner args) (restrict r owner · (.named gen args)) := by
  intro arg harg b hb t₁ h₁
  rw [run_restrict_generic gen hne]
  refine Adds.get_bind ?_
  rw [hr.same howner h₁, h₁.grown.members_eq harg]
  cases htemplate : r t owner gen with
  | none => exact .pure h₁.wellFormed ⟨t₁.size_pos, .refl hb, fun c hc => absurd hc (by simp)⟩
  | some template =>
    have hms : ∀ m ∈ t.members arg, m < t.size := fun m hm => (h.members_lt_size harg hm).2
    refine (adds_filterM_keeps hs h hl hr howner hargs hnodup template hms hb h₁).bind_later
      h₁.linked ?_
    rintro t₂ ⟨kept, b₁⟩ h₂ ⟨hb₁, hkept⟩
    have h₂' := h₁.trans h₂
    have hsingle : ∀ x ∈ kept, Single t x := by
      intro x hx
      refine single_of_instanceArgs template fun hnil => hne ?_
      have hlen := (hkept x hx).2.1
      rw [hnil] at hlen
      exact List.length_eq_zero_iff.mp hlen.symm
    refine (h₂.wellFormed.adds_unionOf_subset h₂.linked fun x hx =>
      h₂'.lt_size (hsingle x hx).lt_size).bind_later h₂.linked ?_
    rintro t₃ m h₃ ⟨hm, hclasses, -⟩
    refine .pure h₃.wellFormed ⟨hm, hb₁, fun c hc => ?_⟩
    obtain ⟨x, hx, hc⟩ := hclasses c hc
    have hx' := hsingle x hx
    rw [(hx'.of_grown h₂'.grown).concrete_eq] at hc
    obtain rfl := List.mem_singleton.mp hc
    obtain ⟨hmem, -, hsucc⟩ := hkept c hx
    refine ⟨?_, succeeds_generic hr howner hne htemplate hx' (h₂'.trans h₃)
      (hsucc.later h₃)⟩
    have hself := mem_concrete_iff_members.mp (hx'.concrete_eq ▸ List.mem_singleton_self c)
    rw [members_of_not_union hx'.ne_zero hx'.no_union] at hself
    exact mem_concrete_iff_members.mpr ⟨c, hmem, by simpa using hself⟩

/-! ### Alternatives -/

omit hs h hl hr howner in
theorem freeNames_sublist {e : TypeExpr} {es : List TypeExpr} (he : e ∈ es) :
    (freeNames r t owner e).Sublist (freeNamesAll r t owner es) := by
  induction es with
  | nil => exact absurd he (by simp)
  | cons d es ih =>
    rw [freeNamesAll]
    rcases List.mem_cons.mp he with rfl | he
    · exact List.sublist_append_left _ _
    · exact (ih he).trans (List.sublist_append_right _ _)

omit hs h hl hr howner in
/-- Each class that is left is accepted by one of the alternatives. -/
theorem adds_restrictEach_reliable {es : List TypeExpr}
    (hes : ∀ e ∈ es, Reliable r t owner (freeNames r t owner e) (restrict r owner · e)) {arg : TypeId}
    (harg : arg < t.size) (hb : Binds r t owner b) (h₁ : Later t t₁) :
    Adds t₁ ((restrictEach r owner arg es).run b) fun t₂ p =>
      BindsOnly r t owner (freeNamesAll r t owner es) b p.2 ∧
      ∀ a ∈ p.1, a < t₂.size ∧ ∀ c ∈ t₂.concrete a, c ∈ t.concrete arg ∧
        ∃ e ∈ es, Succeeds r t owner t₂ (freeNames r t owner e) (restrict r owner c e) fun m =>
          m ≠ 0 := by
  induction es generalizing b t₁ with
  | nil =>
    rw [run_restrictEach_nil]
    exact .pure h₁.wellFormed ⟨.refl hb, by simp⟩
  | cons e es ih =>
    obtain ⟨he, hes⟩ := List.forall_mem_cons.mp hes
    rw [run_restrictEach_cons, freeNamesAll]
    refine (he harg hb h₁).bind_later h₁.linked fun t₂ p h₂ hp => ?_
    refine (ih hes hp.binds.binds (h₁.trans h₂)).bind_later h₂.linked ?_
    rintro t₃ ⟨parts, b₂⟩ h₃ ⟨hb₂, hparts⟩
    refine .pure h₃.wellFormed ⟨hp.binds.trans hb₂, List.forall_mem_cons.mpr ⟨?_, fun a ha => ?_⟩⟩
    · refine ⟨h₃.lt_size hp.known, fun c hc => ?_⟩
      rw [h₃.grown.concrete_eq h₂.wellFormed h₂.linked hp.known] at hc
      obtain ⟨hc, hsucc⟩ := hp.alone c hc
      exact ⟨hc, e, List.mem_cons_self, hsucc.later h₃⟩
    · obtain ⟨hlt, hclasses⟩ := hparts a ha
      refine ⟨hlt, fun c hc => ?_⟩
      obtain ⟨hc, d, hd, hsucc⟩ := hclasses c hc
      exact ⟨hc, d, List.mem_cons_of_mem _ hd, hsucc⟩

omit hs h hl hr howner in
/-- A class that one of the alternatives accepts is accepted by all of them together: the others do not
bind its variables. -/
theorem succeeds_restrictEach {es : List TypeExpr}
    (hes : ∀ e ∈ es, Reliable r t owner (freeNames r t owner e) (restrict r owner · e))
    (hnodup : (freeNamesAll r t owner es).Nodup) {c : TypeId} (hc : c < t.size) (h₁ : Later t t₁)
    (hsome : ∃ e ∈ es, Succeeds r t owner t₁ (freeNames r t owner e) (restrict r owner c e) fun m =>
      m ≠ 0) :
    Succeeds r t owner t₁ (freeNamesAll r t owner es) (restrictEach r owner c es) fun parts =>
      ∃ a ∈ parts, a ≠ 0 := by
  induction es generalizing t₁ with
  | nil => exact absurd hsome (by simp)
  | cons e es ih =>
    obtain ⟨he, htail⟩ := List.forall_mem_cons.mp hes
    rw [freeNamesAll] at hnodup ⊢
    rw [restrictEach]
    obtain ⟨d, hd, hsucc⟩ := hsome
    rcases List.mem_cons.mp hd with rfl | hd
    · refine hsucc.bind hnodup fun t₂ m h₂ hm => ?_
      have hothers : Succeeds r t owner t₂ (freeNamesAll r t owner es) (restrictEach r owner c es)
          fun _ => True := fun t₃ h₃ b' hb' _ =>
        (adds_restrictEach_reliable htail hc hb' (h₁.trans (h₂.trans h₃))).imp
          fun _ _ _ _ hp => ⟨trivial, hp.1⟩
      exact hothers.bind_pure fun parts _ => ⟨m, List.mem_cons_self, hm⟩
    · have hother : Succeeds r t owner t₁ (freeNames r t owner e) (restrict r owner c e)
          fun _ => True := fun t₃ h₃ b' hb' _ =>
        (he hc hb' (h₁.trans h₃)).imp fun _ _ _ _ hp => ⟨trivial, hp.binds⟩
      refine hother.bind hnodup fun t₂ m h₂ _ => ?_
      have hrest := ih htail (List.nodup_append.mp hnodup).2.1 (h₁.trans h₂) ⟨d, hd, hsucc.later h₂⟩
      refine hrest.bind_pure ?_
      rintro parts ⟨a, ha, hne⟩
      exact ⟨a, List.mem_cons_of_mem _ ha, hne⟩

omit hr howner in
theorem reliable_union {es : List TypeExpr}
    (hes : ∀ e ∈ es, Reliable r t owner (freeNames r t owner e) (restrict r owner · e))
    (hnodup : (freeNamesAll r t owner es).Nodup) :
    Reliable r t owner (freeNamesAll r t owner es) (restrict r owner · (.union es)) := by
  intro arg harg b hb t₁ h₁
  rw [run_restrict_union]
  refine (adds_restrictEach_reliable hes harg hb h₁).bind_later h₁.linked ?_
  rintro t₂ ⟨parts, b₁⟩ h₂ ⟨hb₁, hparts⟩
  refine (h₂.wellFormed.adds_unionOf_subset h₂.linked fun a ha =>
    (hparts a (List.mem_of_mem_filter ha)).1).bind_later h₂.linked ?_
  rintro t₃ m h₃ ⟨hm, hclasses, -⟩
  refine .pure h₃.wellFormed ⟨hm, hb₁, fun c hc => ?_⟩
  obtain ⟨a, ha, hc⟩ := hclasses c hc
  obtain ⟨hc, e, he, hsucc⟩ := (hparts a (List.mem_of_mem_filter ha)).2 c hc
  refine ⟨hc, fun t₄ h₄ b' hb' hnew => ?_⟩
  have hlt := (hs.single_of_mem_concrete h hl harg hc).lt_size
  have h₃' := h₁.trans (h₂.trans h₃)
  have heach := succeeds_restrictEach hes hnodup hlt h₃' ⟨e, he, hsucc.later h₃⟩ t₄ h₄ b' hb' hnew
  have hknown := adds_restrictEach_reliable hes hlt hb' (h₃'.trans h₄)
  rw [run_restrict_union]
  refine (heach.and hknown).bind_later h₄.linked ?_
  rintro t₅ ⟨parts', b₂⟩ h₅ ⟨⟨⟨x, hx, hne⟩, hb₂⟩, -, hparts'⟩
  refine (h₅.wellFormed.adds_unionOf_subset h₅.linked fun a ha =>
    (hparts' a (List.mem_of_mem_filter ha)).1).bind ?_
  rintro t₆ m' h₆ - ⟨-, -, hzero⟩
  refine .pure h₆ ⟨fun hm' => hne ?_, hb₂⟩
  exact hzero hm' x (List.mem_filter.mpr ⟨hx, decide_eq_true hne⟩)

/-- **A shallow restriction in which no variable occurs twice is reliable**: what it leaves of an argument
are classes that it accepts on their own. -/
theorem Shallow.reliable {e : TypeExpr} (he : Shallow r t owner e)
    (hnodup : (freeNames r t owner e).Nodup) :
    Reliable r t owner (freeNames r t owner e) (restrict r owner · e) := by
  induction he with
  | self =>
    rw [freeNames]
    refine reliable_of_target hs h hl (h.selfType_lt howner) fun {t₁} h₁ {b} _ x => ?_
    rw [run_restrict_self, run_get_bind, h₁.grown.selfType_eq howner]
  | @union es _ ih =>
    rw [freeNames] at hnodup ⊢
    refine reliable_union hs h hl (fun e he => ?_) hnodup
    exact ih e he (hnodup.sublist (freeNames_sublist he))
  | @named gen args hargs =>
    by_cases hnil : args = []
    · subst hnil
      exact reliable_name hs h hl hr howner gen
    · have hempty : ¬ args.isEmpty = true := by simpa using hnil
      rw [freeNames, if_neg hempty] at hnodup ⊢
      exact reliable_generic hs h hl hr howner hnil hargs hnodup

/-! ### Arguments -/

theorem Linear.reliable {params : List (Option TypeExpr)} (hp : Linear r t owner params)
    {e : Option TypeExpr} (he : e ∈ params) :
    Reliable r t owner (paramNames r t owner e) (restrictParam r owner · e) := by
  cases e with
  | none =>
    intro arg harg b hb t₁ h₁
    refine .pure h₁.wellFormed ⟨h₁.lt_size harg, .refl hb, fun c hc => ?_⟩
    rw [h₁.grown.concrete_eq h hl harg] at hc
    exact ⟨hc, .pure (hs.single_of_mem_concrete h hl harg hc).ne_zero⟩
  | some e =>
    have hnodup : (paramNames r t owner (some e)).Nodup := (List.nodup_flatMap.mp hp.nodup).1 _ he
    exact (hp.shallow e he).reliable hs h hl hr howner hnodup

end

end Overload

end TypeFlow
