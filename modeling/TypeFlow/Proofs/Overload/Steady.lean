import TypeFlow.Proofs.Overload.Matching

/-!
# Restrictions without free type variables

A name that the resolver does not know is a free type variable, and `freeNames` lists the variables of a
written type, as often as they occur. Where there are none, matching neither reads nor changes bindings
of variables, and can be repeated on later tables. A matching computation with both properties is
`Steady`; like `Table.Repeats` this composes along `bind`, and so restrictions without free type
variables are steady, whatever they are made of (`steady_restrict`).
-/

namespace TypeFlow.Overload

open Table

/-! ### Free type variables -/

theorem freeName?_eq_some_iff {names : List String} {n : String} :
    freeName? names = some n ↔ names = [n] ∧ n ≠ "" := by
  match names with
  | [] => simp [freeName?]
  | [name] =>
    rw [freeName?]
    split
    · rename_i hempty
      simp only [reduceCtorEq, List.cons.injEq, and_true, false_iff, not_and, not_not]
      exact fun heq => heq ▸ hempty
    · rename_i hne
      simp only [Option.some.injEq, List.cons.injEq, and_true]
      exact ⟨fun heq => ⟨heq, heq ▸ hne⟩, And.left⟩
  | _ :: _ :: _ => simp [freeName?]

section

variable (r : Resolver) (t : Table) (owner : TypeId)

mutual

/-- The free type variables of a written type, as often as they occur. -/
def freeNames : TypeExpr → List String
  | .self => []
  | .union alternatives => freeNamesAll alternatives
  | .named names args =>
    if args.isEmpty then
      if (r t owner names).isSome then [] else (freeName? names).toList
    else freeNamesAll args

/-- The free type variables of several written types. -/
def freeNamesAll : List TypeExpr → List String
  | [] => []
  | e :: rest => freeNames e ++ freeNamesAll rest

end

end

/-- A variable that is bound to a type. -/
theorem Bindings.mem_of_get? {b : Bindings} {n : String} {id : TypeId} (h : b.get? n = some id) :
    (n, id) ∈ b := by
  obtain ⟨⟨m, x⟩, hfind, rfl⟩ := Option.map_eq_some_iff.mp h
  obtain rfl : m = n := by simpa using List.find?_some hfind
  exact List.mem_of_find?_eq_some hfind

/-! ### Steady computations -/

/-- A computation that can be repeated, and neither reads nor changes bindings of variables with the
property `F`. -/
structure Steady {α : Type} (F : String → Prop) (t : Table) (x : Matching α)
    (Q : Table → α → Prop) : Prop where
  repeats : Repeats t (x.run []) fun t₁ p => Q t₁ p.1
  bound : ∀ {b : Bindings}, (∀ p ∈ b, F p.1) → ∀ {t₁ : Table}, Later t t₁ →
    (x.run b).run t₁ = ((((x.run []).run t₁).1.1, b), ((x.run []).run t₁).2)

namespace Steady

variable {α β : Type} {F : String → Prop} {t t₁ : Table} {x : Matching α} {Q : Table → α → Prop}
  {R : Table → β → Prop}

theorem later (hx : Steady F t x Q) (h₁ : Later t t₁) : Steady F t₁ x Q :=
  ⟨hx.repeats.later h₁, fun hb _ h₂ => hx.bound hb (h₁.trans h₂)⟩

/-- Bindings are left as they are. -/
theorem adds (hx : Steady F t x Q) {b : Bindings} (hb : ∀ p ∈ b, F p.1) (h₁ : Later t t₁) :
    Adds t₁ (x.run b) fun t₂ p => p.2 = b ∧ Q t₂ p.1 := by
  have hnil := hx.repeats.adds t₁ h₁
  rw [Adds, hx.bound hb h₁]
  exact ⟨hnil.1, hnil.2.1, rfl, hnil.2.2⟩

/-- Whatever the bindings are, the second run gives what the first one has given. -/
theorem adds_again (hx : Steady F t x Q) {b : Bindings} (hb : ∀ p ∈ b, F p.1) (h₁ : Later t t₁) :
    Adds t₁ (x.run b) fun t₂ p => p.2 = b ∧ Q t₂ p.1 ∧ ∀ t₃, Later t₂ t₃ →
      ∀ b' : Bindings, (∀ q ∈ b', F q.1) → Adds t₃ (x.run b') fun _ q => q.2 = b' ∧ q.1 = p.1 := by
  have hnil := hx.repeats.adds t₁ h₁
  have hfirst := Later.of_adds h₁.linked hnil
  rw [Adds, hx.bound hb h₁]
  refine ⟨hnil.1, hnil.2.1, rfl, hnil.2.2, fun t₃ h₃ b' hb' => ?_⟩
  have h₃' := h₁.trans (hfirst.trans h₃)
  have hagain := hx.repeats.adds t₃ h₃'
  have hsame := congrArg Prod.fst (hx.repeats.again t₁ t₃ h₁ h₃)
  rw [Adds, hx.bound hb' h₃']
  exact ⟨hagain.1, hagain.2.1, rfl, hsame⟩

/-- Only what a computation does on the table counts. -/
theorem of_run {y : TableM α} (hy : Repeats t y Q)
    (hxy : ∀ b : Bindings, (∀ p ∈ b, F p.1) → ∀ t₁, Later t t₁ →
      (x.run b).run t₁ = (((y.run t₁).1, b), (y.run t₁).2)) : Steady F t x Q := by
  have hnil := hxy [] (by simp)
  refine ⟨⟨fun t₁ h₁ => ?_, fun t₁ t₂ h₁ h₂ => ?_⟩, fun hb _ h₁ => ?_⟩
  · rw [Adds, hnil t₁ h₁]
    exact hy.adds t₁ h₁
  · have hfirst := Later.of_adds h₁.linked (hy.adds t₁ h₁)
    rw [hnil t₁ h₁] at h₂ ⊢
    rw [hnil t₂ (h₁.trans (hfirst.trans h₂)), hy.again t₁ t₂ h₁ h₂]
  · rw [hxy _ hb _ h₁, hnil _ h₁]

theorem pure {a : α} (ha : ∀ t₁, Later t t₁ → Q t₁ a) : Steady F t (pure a) Q :=
  .of_run (.pure ha) fun _ _ _ _ => rfl

theorem lift {y : TableM α} (hy : Repeats t y Q) : Steady F t (liftM y) Q :=
  .of_run hy fun _ _ _ _ => rfl

/-- What is read of the table has to be the same later. -/
theorem getThe_bind {f : Table → Matching β} (hf : Steady F t (f t) R)
    (hsame : ∀ t₁, Later t t₁ → f t₁ = f t) : Steady F t (getThe Table >>= f) R := by
  have hrun : ∀ b t₁, Later t t₁ → (((getThe Table >>= f : Matching β).run b).run t₁ =
      ((f t).run b).run t₁) := by
    intro b t₁ h₁
    rw [← hsame t₁ h₁]
    rfl
  refine ⟨hf.repeats.of_run_eq fun t₁ h₁ => hrun [] t₁ h₁, fun hb _ h₁ => ?_⟩
  rw [hrun _ _ h₁, hrun _ _ h₁]
  exact hf.bound hb h₁

theorem bind {f : α → Matching β} (hx : Steady F t x Q)
    (hf : ∀ t₁ a, Later t t₁ → Q t₁ a → Steady F t₁ (f a) R) : Steady F t (x >>= f) R := by
  have hnil : ∀ {t₁}, Later t t₁ → ((x.run []).run t₁).1.2 = [] := by
    intro t₁ h₁
    rw [hx.bound (b := []) (by simp) h₁]
  have hrepeats : Repeats t (x.run []) fun t₁ p => p.2 = [] ∧ Q t₁ p.1 :=
    ⟨fun t₁ h₁ => hx.adds (by simp) h₁, hx.repeats.again⟩
  refine ⟨?_, fun {b} hb t₁ h₁ => ?_⟩
  · rw [StateT.run_bind]
    refine hrepeats.bind ?_
    rintro t₁ ⟨a, b⟩ h₁ ⟨rfl, ha⟩
    exact (hf t₁ a h₁ ha).repeats
  · have hadds := hx.repeats.adds t₁ h₁
    have hfirst : Later t₁ ((x.run []).run t₁).2 := .of_adds h₁.linked hadds
    have hrest := hf _ _ (h₁.trans hfirst) hadds.2.2
    have hrun : ∀ b' : Bindings, (((x >>= f).run b').run t₁) =
        ((f ((x.run b').run t₁).1.1).run ((x.run b').run t₁).1.2).run ((x.run b').run t₁).2 :=
      fun _ => rfl
    rw [hrun, hrun, hnil h₁, hx.bound hb h₁]
    exact hrest.bound hb (.refl hfirst.wellFormed hfirst.linked)

/-- A filter keeps some of the elements. -/
theorem filterM {γ : Type} {l : List γ} {p : γ → Matching Bool}
    (hp : ∀ c ∈ l, Steady F t (p c) fun _ _ => True) :
    Steady F t (l.filterM p) fun _ kept => ∀ c ∈ kept, c ∈ l := by
  induction l generalizing t with
  | nil => exact .pure fun _ _ _ hc => hc
  | cons c l ih =>
    rw [filterM_cons]
    refine (hp c List.mem_cons_self).bind fun t₁ keep h₁ _ => ?_
    refine (ih fun d hd => (hp d (List.mem_cons_of_mem _ hd)).later h₁).bind fun t₂ kept _ hkept => ?_
    refine .pure fun _ _ d hd => ?_
    have htail : ∀ d ∈ kept, d ∈ c :: l := fun d hd => List.mem_cons_of_mem _ (hkept d hd)
    cases keep
    · exact htail d hd
    · rcases List.mem_cons.mp hd with rfl | hd
      · exact List.mem_cons_self
      · exact htail d hd

end Steady

/-! ### Restrictions -/

theorem instanceArgs_lt {t : Table} (h : WellFormed t) {m template : TypeId} :
    ∀ a ∈ instanceArgs t m template, a < t.size := by
  intro a ha
  unfold instanceArgs at ha
  split at ha
  · rename_i pointee hp
    split at ha
    · have hlt := h.links_lt hp pointee (by simp [Entry.links])
      rw [List.mem_singleton.mp ha]
      exact Nat.lt_trans hlt (lt_size_of_get? hp)
    · exact absurd ha (by simp)
  · rename_i o ho
    split at ha
    · rw [h.args ho] at ha
      exact Nat.lt_trans (h.links_lt ho a (by simp [Entry.links, ha])) (lt_size_of_get? ho)
    · exact absurd ha (by simp)
  · exact absurd ha (by simp)

theorem instanceArgs_later {t t₁ : Table} (h₁ : Later t t₁) {m : TypeId} (hm : m < t.size)
    (template : TypeId) : instanceArgs t₁ m template = instanceArgs t m template := by
  rw [instanceArgs, instanceArgs, h₁.grown.get?_eq hm]

section

variable {r : Resolver} {t : Table} {owner : TypeId}

/-- A name that is known, or cannot be a variable. -/
theorem steady_restrictName (hr : r.Settled t) (howner : owner < t.size) {names : List String}
    (hn : freeNames r t owner (.named names []) = []) {t₁ : Table} {arg : TypeId}
    (harg : arg < t₁.size) (h₁ : Later t t₁) :
    Steady (fun n => r t owner [n] = none) t₁ (restrict r owner arg (.named names []))
      fun t₂ m => m < t₂.size := by
  -- it is not bound either way
  have hfree : ∀ b : Bindings, (∀ p ∈ b, r t owner [p.1] = none) →
      (freeName? names).bind b.get? = none := by
    intro b hb
    rw [Option.bind_eq_none_iff]
    intro n hname
    by_contra hbound
    obtain ⟨id, hid⟩ := Option.ne_none_iff_exists'.mp hbound
    have hunknown := hb _ (Bindings.mem_of_get? hid)
    obtain ⟨rfl, hne⟩ := freeName?_eq_some_iff.mp hname
    simp [freeNames, hunknown, hname] at hn
  cases htarget : r t owner names with
  | some target =>
    have hknown := h₁.lt_size (hr.known howner htarget)
    refine .of_run (repeats_restrict h₁.wellFormed h₁.linked harg hknown) fun b hb t₂ h₂ => ?_
    rw [run_restrict_unbound (hfree b hb), run_get_bind, hr.same howner (h₁.trans h₂), htarget]
    rfl
  | none =>
    have hname : freeName? names = none := by simpa [freeNames, htarget] using hn
    refine .of_run (.pure (a := 0) fun t₂ _ => t₂.size_pos) fun b hb t₂ h₂ => ?_
    rw [run_restrict_unbound (hfree b hb), run_get_bind, hr.same howner (h₁.trans h₂), htarget, hname]
    rfl

mutual

/-- **A restriction without free type variables is steady.** -/
theorem steady_restrict (hr : r.Settled t) (howner : owner < t.size) (e : TypeExpr)
    (he : freeNames r t owner e = []) {t₁ : Table} {arg : TypeId} (harg : arg < t₁.size)
    (h₁ : Later t t₁) :
    Steady (fun n => r t owner [n] = none) t₁ (restrict r owner arg e) fun t₂ m => m < t₂.size :=
  match e with
  | .self => by
    have hself := h₁.lt_size howner
    refine .of_run (repeats_restrict h₁.wellFormed h₁.linked harg (h₁.wellFormed.selfType_lt hself))
      fun b _ t₂ h₂ => ?_
    rw [run_restrict_self, run_get_bind, h₂.grown.selfType_eq hself]
    rfl
  | .union alternatives => by
    rw [restrict]
    rw [freeNames] at he
    refine (steady_restrictEach hr howner alternatives he harg h₁).bind fun t₂ parts h₂ hparts => ?_
    exact .lift (repeats_unionOf h₂.wellFormed fun m hm => hparts m (List.mem_of_mem_filter hm))
  | .named names args => by
    by_cases hargs : args = []
    · subst hargs
      exact steady_restrictName hr howner he harg h₁
    · have hempty : ¬ args.isEmpty = true := by simpa using hargs
      rw [restrict, if_neg hempty]
      rw [freeNames, if_neg hempty] at he
      refine .getThe_bind ?_ fun t₂ h₂ => ?_
      · cases r t₁ owner names with
        | none => exact .pure fun t₂ _ => t₂.size_pos
        | some template =>
          refine (Steady.filterM fun m hm => ?_).bind fun t₂ kept h₂ hkept => ?_
          · have hlt := (h₁.wellFormed.members_lt_size harg hm).2
            refine .getThe_bind ?_ fun t₂ h₂ => ?_
            · simp only
              split
              · exact .pure fun _ _ => trivial
              · exact steady_agree hr howner args he (instanceArgs_lt h₁.wellFormed) h₁
            · simp only [instanceArgs_later h₂ hlt]
          · refine .lift (repeats_unionOf h₂.wellFormed fun m hm => ?_)
            exact h₂.lt_size (h₁.wellFormed.members_lt_size harg (hkept m hm)).2
      · simp only [hr.same howner (h₁.trans h₂), hr.same howner h₁, h₂.grown.members_eq harg]

/-- Alternatives without free type variables are steady. -/
theorem steady_restrictEach (hr : r.Settled t) (howner : owner < t.size)
    (alternatives : List TypeExpr) (he : freeNamesAll r t owner alternatives = []) {t₁ : Table}
    {arg : TypeId} (harg : arg < t₁.size) (h₁ : Later t t₁) :
    Steady (fun n => r t owner [n] = none) t₁ (restrictEach r owner arg alternatives)
      fun t₂ parts => ∀ m ∈ parts, m < t₂.size :=
  match alternatives with
  | [] => by
    rw [restrictEach]
    exact .pure fun _ _ _ hm => absurd hm (by simp)
  | e :: rest => by
    rw [restrictEach]
    obtain ⟨he, hrest⟩ := List.append_eq_nil_iff.mp he
    refine (steady_restrict hr howner e he harg h₁).bind fun t₂ m h₂ hm => ?_
    refine (steady_restrictEach hr howner rest hrest (h₂.lt_size harg) (h₁.trans h₂)).bind
      fun t₃ parts h₃ hparts => ?_
    refine .pure fun t₄ h₄ => List.forall_mem_cons.mpr ⟨(h₃.trans h₄).lt_size hm, fun a ha => ?_⟩
    exact h₄.lt_size (hparts a ha)

/-- Type arguments without free type variables are steady. -/
theorem steady_agree (hr : r.Settled t) (howner : owner < t.size) (args : List TypeExpr)
    (he : freeNamesAll r t owner args = []) {t₁ : Table} {given : List TypeId}
    (hgiven : ∀ a ∈ given, a < t₁.size) (h₁ : Later t t₁) :
    Steady (fun n => r t owner [n] = none) t₁ (agree r owner given args) fun _ _ => True :=
  match args, given with
  | [], _ => by
    rw [agree]
    exact .pure fun _ _ => trivial
  | e :: rest, [] => by
    rw [agree]
    exact .pure fun _ _ => trivial
  | e :: rest, a :: more => by
    rw [agree]
    obtain ⟨he, hrest⟩ := List.append_eq_nil_iff.mp he
    obtain ⟨ha, hmore⟩ := List.forall_mem_cons.mp hgiven
    refine (steady_restrict hr howner e he ha h₁).bind fun t₂ m h₂ _ => ?_
    split
    · exact steady_agree hr howner rest hrest (fun d hd => h₂.lt_size (hmore d hd)) (h₁.trans h₂)
    · exact .pure fun _ _ => trivial

end

end

end TypeFlow.Overload
