import TypeFlow.Proofs.Overload.Steady
import TypeFlow.Proofs.Types.Determined
import TypeFlow.Proofs.Types.Inferred

/-!
# Alternatives and the traces they leave

The alternatives of a restriction are tried one after the other with the same bindings, so one that is
rejected may have bound variables that the next ones read: matching does not take back what it has bound
on the way. It binds variables in two places. A variable that stands alone admits every argument, so
where it has been bound the alternative is not rejected. A variable inside type arguments is bound before
the arguments after it are looked at, and stays bound if one of these does not agree. Hence a rejected
alternative leaves traces in the variables inside its type arguments (`innerNames`), and nowhere else,
and an alternative that does not mention these is matched as if it stood alone
(`restrict_alternatives`).

The two runs that are compared here end in different tables, as an earlier alternative may have added
types. What a restriction binds and what parts its result has is the same on every later table:
`Matched` says so of a matching computation and names the bindings that it adds, and composes along
`bind`. The induction over the written type is that of `steady_restrict`, with bindings.
-/

namespace TypeFlow

open Table

theorem Bindings.get?_append (b₁ b₂ : Bindings) (n : String) :
    Bindings.get? (b₁ ++ b₂) n = (b₁.get? n).or (b₂.get? n) := by
  rw [Bindings.get?, Bindings.get?, Bindings.get?, List.find?_append]
  exact Option.map_or

theorem Bindings.get?_eq_none_of_forall {b : Bindings} {n : String} (h : ∀ p ∈ b, p.1 ≠ n) :
    b.get? n = none := by
  rw [Bindings.get?, Option.map_eq_none_iff, List.find?_eq_none]
  exact fun p hp => by simpa using h p hp

namespace Overload

section

variable (r : Resolver) (t : Table) (owner : TypeId)

mutual

/-- The free type variables inside the type arguments of a written type. -/
def innerNames : TypeExpr → List String
  | .self => []
  | .union alternatives => innerNamesAll alternatives
  | .named _ args => freeNamesAll r t owner args

/-- The free type variables inside the type arguments of several written types. -/
def innerNamesAll : List TypeExpr → List String
  | [] => []
  | e :: rest => innerNames e ++ innerNamesAll rest

end

end

variable {r : Resolver} {t t₁ : Table} {owner : TypeId} {α β : Type}

/-! ### Bindings that are added -/

/-- The bindings `new` are for variables among `names` that were neither known nor bound, to types of
the table. -/
def Fresh (r : Resolver) (t : Table) (owner : TypeId) (names : List String) (b new : Bindings) : Prop :=
  ∀ p ∈ new, p.1 ∈ names ∧ r t owner [p.1] = none ∧ b.get? p.1 = none ∧ p.2 < t.size

/-- Bindings that give the variables among `names`, and the names that are known, the same types. -/
def Alike (r : Resolver) (t : Table) (owner : TypeId) (names : List String) (b b' : Bindings) : Prop :=
  ∀ n, n ∈ names ∨ (r t owner [n]).isSome → b'.get? n = b.get? n

namespace Fresh

variable {names names' : List String} {b new new' : Bindings}

theorem nil : Fresh r t owner names b [] := fun _ hp => absurd hp (by simp)

theorem mono (hnew : Fresh r t owner names b new) (hsub : ∀ n ∈ names, n ∈ names') :
    Fresh r t owner names' b new :=
  fun p hp => ⟨hsub _ (hnew p hp).1, (hnew p hp).2⟩

theorem append (hnew : Fresh r t owner names b new) (hnew' : Fresh r t owner names' (new ++ b) new') :
    Fresh r t owner (names ++ names') b (new' ++ new) := by
  intro p hp
  rcases List.mem_append.mp hp with hp | hp
  · obtain ⟨hn, hunknown, hfree, hlt⟩ := hnew' p hp
    rw [Bindings.get?_append, Option.or_eq_none_iff] at hfree
    exact ⟨List.mem_append_right _ hn, hunknown, hfree.2, hlt⟩
  · obtain ⟨hn, hrest⟩ := hnew p hp
    exact ⟨List.mem_append_left _ hn, hrest⟩

theorem lt_size (hnew : Fresh r t owner names b new) (hb : ∀ p ∈ b, p.2 < t.size) :
    ∀ p ∈ new ++ b, p.2 < t.size := by
  intro p hp
  rcases List.mem_append.mp hp with hp | hp
  · exact (hnew p hp).2.2.2
  · exact hb p hp

end Fresh

namespace Alike

variable {names names' : List String} {b b' : Bindings}

theorem mono (h : Alike r t owner names' b b') (hsub : ∀ n ∈ names, n ∈ names') :
    Alike r t owner names b b' :=
  fun n hn => h n (hn.imp_left (hsub n))

theorem append (h : Alike r t owner names b b') (new : Bindings) :
    Alike r t owner names (new ++ b) (new ++ b') := by
  intro n hn
  rw [Bindings.get?_append, Bindings.get?_append, h n hn]

/-- Bindings for other variables make no difference. -/
theorem of_fresh {new : Bindings} (hnew : Fresh r t owner names b new)
    (hdisjoint : ∀ p ∈ new, p.1 ∉ names') : Alike r t owner names' b (new ++ b) := by
  intro n hn
  have hnone : new.get? n = none := by
    refine Bindings.get?_eq_none_of_forall fun p hp heq => ?_
    rcases hn with hn | hknown
    · exact hdisjoint p hp (heq ▸ hn)
    · simp [← heq, (hnew p hp).2.1] at hknown
  rw [Bindings.get?_append, hnone, Option.none_or]

end Alike

/-! ### Matched computations -/

/-- Run with the bindings `b`, or others like them as far as `names` are concerned, on whatever `t` may
have grown to, the computation ends in `Q` and adds the bindings `new`. -/
structure Matched (r : Resolver) (t : Table) (owner : TypeId) (names : List String) (b : Bindings)
    (x : Matching α) (Q : Table → α → Prop) (new : Bindings) : Prop where
  fresh : Fresh r t owner names b new
  adds : ∀ {b'}, Alike r t owner names b b' → ∀ {t₁}, Later t t₁ →
    Adds t₁ (x.run b') fun t₂ p => Q t₂ p.1 ∧ p.2 = new ++ b'

namespace Matched

variable {names names' : List String} {b new new' : Bindings} {x : Matching α}
  {Q : Table → α → Prop} {R : Table → β → Prop}

theorem mono (hx : Matched r t owner names b x Q new) (hsub : ∀ n ∈ names, n ∈ names') :
    Matched r t owner names' b x Q new :=
  ⟨hx.fresh.mono hsub, fun hb => hx.adds (hb.mono hsub)⟩

theorem pure {a : α} (ha : ∀ t₁, Later t t₁ → Q t₁ a) : Matched r t owner names b (pure a) Q [] :=
  ⟨.nil, fun _ t₁ h₁ => .pure h₁.wellFormed ⟨ha t₁ h₁, rfl⟩⟩

/-- What is read of the table has to be the same later. -/
theorem getThe_bind {f : Table → Matching β} (hf : Matched r t owner names b (f t) R new)
    (hsame : ∀ t₁, Later t t₁ → f t₁ = f t) :
    Matched r t owner names b (getThe Table >>= f) R new := by
  refine ⟨hf.fresh, fun {b'} hb t₁ h₁ => (hf.adds hb h₁).of_run_eq ?_⟩
  rw [← hsame t₁ h₁]
  rfl

/-- A computation on the table alone leaves the bindings as they are. -/
theorem bind_lift {f : α → TableM β} (hx : Matched r t owner names b x Q new)
    (hf : ∀ t₁ a, Later t t₁ → Q t₁ a → Adds t₁ (f a) R) :
    Matched r t owner names b (x >>= fun a => (liftM (f a) : Matching β)) R new := by
  refine ⟨hx.fresh, fun {b'} hb t₁ h₁ => ?_⟩
  rw [StateT.run_bind]
  refine (hx.adds hb h₁).bind_later h₁.linked fun t₂ p h₂ ⟨ha, hnew⟩ => ?_
  show Adds t₂ (do let c ← f p.1; return (c, p.2)) _
  exact (hf t₂ p.1 (h₁.trans h₂) ha).bind fun t₃ c h₃ _ hc => .pure h₃ ⟨hc, hnew⟩

/-- The second computation reads what the first one has bound. -/
theorem bind {f : α → Matching β} (hx : Matched r t owner names b x Q new)
    (hnew' : Fresh r t owner names' (new ++ b) new')
    (hf : ∀ {b'}, Alike r t owner names' (new ++ b) b' → ∀ {t₁ a}, Later t t₁ → Q t₁ a →
      Adds t₁ ((f a).run b') fun t₂ p => R t₂ p.1 ∧ p.2 = new' ++ b') :
    Matched r t owner (names ++ names') b (x >>= f) R (new' ++ new) := by
  refine ⟨hx.fresh.append hnew', fun {b'} hb t₁ h₁ => ?_⟩
  have hfirst := hx.adds (hb.mono fun n hn => List.mem_append_left _ hn) h₁
  rw [StateT.run_bind]
  refine hfirst.bind_later h₁.linked ?_
  rintro t₂ ⟨a, b''⟩ h₂ ⟨ha, rfl⟩
  rw [List.append_assoc]
  exact hf ((hb.mono fun n hn => List.mem_append_right _ hn).append new) (h₁.trans h₂) ha

/-- A filter that decides every element in the same way. -/
theorem exists_filterM {γ : Type} {p : γ → Matching Bool} {l : List γ}
    (hp : ∀ c ∈ l, ∀ b : Bindings, (∀ q ∈ b, q.2 < t.size) → ∃ keep new,
      Matched r t owner names b (p c) (fun _ got => got = keep) new)
    (hb : ∀ q ∈ b, q.2 < t.size) :
    ∃ kept new, (∀ c ∈ kept, c ∈ l) ∧
      Matched r t owner names b (l.filterM p) (fun _ got => got = kept) new := by
  induction l generalizing b with
  | nil => exact ⟨[], [], by simp, .pure fun _ _ => rfl⟩
  | cons c l ih =>
    obtain ⟨keep, new, hx⟩ := hp c List.mem_cons_self b hb
    obtain ⟨kept, new', hsub, hrest⟩ :=
      ih (fun d hd => hp d (List.mem_cons_of_mem _ hd)) (hx.fresh.lt_size hb)
    refine ⟨if keep then c :: kept else kept, new' ++ new, fun d hd => ?_, ?_⟩
    · split at hd
      · exact List.mem_cons.mpr ((List.mem_cons.mp hd).imp_right (hsub d))
      · exact List.mem_cons_of_mem _ (hsub d hd)
    · rw [filterM_cons]
      refine (hx.bind hrest.fresh fun {b'} hb' {t₁ a} h₁ ha => ?_).mono fun n hn =>
        (List.mem_append.mp hn).elim id id
      rw [StateT.run_bind]
      refine (hrest.adds hb' h₁).bind fun t₂ q h₂ _ ⟨hq, hnew⟩ => .pure h₂ ⟨?_, hnew⟩
      rw [ha, hq]

end Matched

/-! ### Restrictions -/

/-- What matching a restriction comes to: the parts of the result, and the bindings that are added. If
nothing is left of an argument, only variables inside type arguments have been bound. -/
structure Admits (r : Resolver) (t : Table) (owner arg : TypeId) (e : TypeExpr) (b : Bindings)
    (S : Set Part) (new : Bindings) : Prop where
  matched : Matched r t owner (freeNames r t owner e) b (restrict r owner arg e)
    (fun t₁ m => m < t₁.size ∧ t₁.parts m = S) new
  inner : arg ≠ 0 → S = ∅ → ∀ p ∈ new, p.1 ∈ innerNames r t owner e

/-- The same of alternatives that are tried one after the other. -/
structure AdmitsEach (r : Resolver) (t : Table) (owner arg : TypeId) (alternatives : List TypeExpr)
    (b : Bindings) (S : Set Part) (new : Bindings) : Prop where
  matched : Matched r t owner (freeNamesAll r t owner alternatives) b
    (restrictEach r owner arg alternatives)
    (fun t₁ ms => (∀ m ∈ ms, m < t₁.size) ∧ t₁.partsOf ms = S) new
  inner : arg ≠ 0 → S = ∅ → ∀ p ∈ new, p.1 ∈ innerNamesAll r t owner alternatives

section

variable {arg : TypeId} {e : TypeExpr} {rest : List TypeExpr} {b b' new new' : Bindings}
  {S S' : Set Part}

theorem AdmitsEach.nil : AdmitsEach r t owner arg [] b ∅ [] := by
  refine ⟨?_, fun _ _ _ hp => absurd hp (by simp)⟩
  rw [restrictEach]
  exact .pure fun _ _ => ⟨by simp, partsOf_nil _⟩

/-- The other alternatives are tried with what the first one has bound. -/
theorem Admits.cons (he : Admits r t owner arg e b S new)
    (hrest : AdmitsEach r t owner arg rest (new ++ b) S' new') :
    AdmitsEach r t owner arg (e :: rest) b (S ∪ S') (new' ++ new) := by
  refine ⟨?_, fun hne hS p hp => ?_⟩
  · rw [restrictEach, freeNamesAll]
    refine he.matched.bind hrest.matched.fresh fun {b'} hb' {t₁ m} h₁ ⟨hm, hparts⟩ => ?_
    rw [StateT.run_bind]
    refine (hrest.matched.adds hb' h₁).bind fun t₂ q h₂ hg ⟨⟨hms, hparts'⟩, hnew⟩ => ?_
    refine .pure h₂ ⟨⟨List.forall_mem_cons.mpr ⟨hg.lt_size hm, hms⟩, ?_⟩, hnew⟩
    rw [partsOf_cons, hg.toExtends.parts_eq h₁.wellFormed hm, hparts, hparts']
  · obtain ⟨hS, hS'⟩ := Set.union_empty_iff.mp hS
    rw [innerNamesAll]
    rcases List.mem_append.mp hp with hp | hp
    · exact List.mem_append_right _ (hrest.inner hne hS' p hp)
    · exact List.mem_append_left _ (he.inner hne hS p hp)

theorem AdmitsEach.union (hrest : AdmitsEach r t owner arg rest b S new) :
    Admits r t owner arg (.union rest) b (absorb S) new := by
  refine ⟨?_, fun hne hS => ?_⟩
  · rw [restrict, freeNames]
    refine hrest.matched.bind_lift fun t₁ ms h₁ ⟨hms, heq⟩ => ?_
    rw [← heq, ← partsOf_filter_ne_zero]
    exact h₁.wellFormed.adds_unionOf_absorb fun m hm => hms m (List.mem_of_mem_filter hm)
  · rw [innerNames]
    exact hrest.inner hne (absorb_eq_empty_iff.mp hS)

/-- An argument is rejected exactly if nothing is left of its parts. -/
theorem Admits.rejects_iff (he : Admits r t owner arg e b S new)
    (hb : Alike r t owner (freeNames r t owner e) b b') (h₁ : Later t t₁) :
    (((restrict r owner arg e).run b').run t₁).1.1 = 0 ↔ S = ∅ := by
  obtain ⟨hwf, -, ⟨-, hparts⟩, -⟩ := he.matched.adds hb h₁
  rw [← hparts, hwf.parts_eq_empty_iff]

theorem Admits.bindings_eq (he : Admits r t owner arg e b S new) (h₁ : Later t t₁) :
    (((restrict r owner arg e).run b).run t₁).1.2 = new ++ b :=
  (he.matched.adds (fun _ _ => rfl) h₁).2.2.2

end

/-- A computation that narrows an argument to a type of the table. -/
theorem Admits.of_narrow (h : WellFormed t) (hl : Linked t) {arg target : TypeId}
    (harg : arg < t.size) (htarget : target < t.size) {e : TypeExpr} {b : Bindings}
    (hrun : ∀ {b'}, Alike r t owner (freeNames r t owner e) b b' → ∀ {t₁}, Later t t₁ →
      ((restrict r owner arg e).run b').run t₁ =
        ((do let m ← Table.restrict arg target; return (m, b') : TableM (TypeId × Bindings))).run t₁) :
    ∃ S new, Admits r t owner arg e b S new := by
  obtain ⟨S, hS⟩ := gives_restrict h hl harg htarget
  refine ⟨S, [], ⟨.nil, fun {b'} hb t₁ h₁ => ?_⟩, fun _ _ _ hp => absurd hp (by simp)⟩
  refine Adds.of_run_eq ?_ (hrun hb h₁)
  exact (hS t₁ h₁).bind fun t₂ m h₂ _ hm => .pure h₂ ⟨hm, rfl⟩

/-- A name without type arguments. -/
theorem exists_admits_name (h : WellFormed t) (hl : Linked t) (hr : r.Settled t)
    (howner : owner < t.size) {names : List String} {arg : TypeId} (harg : arg < t.size)
    {b : Bindings} (hb : ∀ p ∈ b, p.2 < t.size) :
    ∃ S new, Admits r t owner arg (.named names []) b S new := by
  -- bindings that are alike decide in the same way whether the name is bound
  have hsame : ∀ {b'}, Alike r t owner (freeNames r t owner (.named names [])) b b' →
      (freeName? names).bind b'.get? = (freeName? names).bind b.get? := by
    intro b' hb'
    cases hname : freeName? names with
    | none => rfl
    | some n =>
      obtain ⟨rfl, -⟩ := freeName?_eq_some_iff.mp hname
      refine hb' n ?_
      cases hknown : r t owner [n] with
      | none => exact .inl (by simp [freeNames, hknown, hname])
      | some target => exact .inr rfl
  cases hbound : (freeName? names).bind b.get? with
  | some bound =>
    obtain ⟨n, -, hget⟩ := Option.bind_eq_some_iff.mp hbound
    refine Admits.of_narrow h hl harg (hb _ (Bindings.mem_of_get? hget)) fun hb' t₁ _ => ?_
    rw [run_restrict_bound ((hsame hb').trans hbound)]
  | none =>
    cases htarget : r t owner names with
    | some target =>
      refine Admits.of_narrow h hl harg (hr.known howner htarget) fun hb' t₁ h₁ => ?_
      rw [run_restrict_unbound ((hsame hb').trans hbound), run_get_bind, hr.same howner h₁, htarget]
    | none =>
      cases hname : freeName? names with
      | none =>
        refine ⟨∅, [], ⟨.nil, fun {b'} hb' t₁ h₁ => ?_⟩, fun _ _ _ hp => absurd hp (by simp)⟩
        refine Adds.of_run_eq (x := pure (0, b')) ?_ ?_
        · exact .pure h₁.wellFormed ⟨⟨t₁.size_pos, parts_zero t₁⟩, rfl⟩
        · rw [run_restrict_unbound ((hsame hb').trans hbound), run_get_bind, hr.same howner h₁,
            htarget, hname]
      | some n =>
        -- a variable that stands alone admits the argument, so it is not rejected
        obtain ⟨rfl, -⟩ := freeName?_eq_some_iff.mp hname
        refine ⟨t.parts arg, [(n, arg)], ⟨?_, fun {b'} hb' t₁ h₁ => ?_⟩, fun hne hS => ?_⟩
        · intro p hp
          obtain rfl := List.mem_singleton.mp hp
          refine ⟨by simp [freeNames, htarget, hname], htarget, ?_, harg⟩
          simpa [hname] using hbound
        · refine Adds.of_run_eq (x := pure (arg, (n, arg) :: b')) ?_ ?_
          · exact .pure h₁.wellFormed
              ⟨⟨h₁.lt_size harg, h₁.grown.toExtends.parts_eq h harg⟩, rfl⟩
          · rw [run_restrict_unbound ((hsame hb').trans hbound), run_get_bind, hr.same howner h₁,
              htarget, hname]
        · exact absurd (h.parts_eq_empty_iff.mp hS) hne

mutual

/-- **What a restriction admits and binds is the same on every later table.** -/
theorem exists_admits (h : WellFormed t) (hl : Linked t) (hr : r.Settled t)
    (howner : owner < t.size) (e : TypeExpr) {arg : TypeId} (harg : arg < t.size) {b : Bindings}
    (hb : ∀ p ∈ b, p.2 < t.size) : ∃ S new, Admits r t owner arg e b S new :=
  match e with
  | .self => by
    refine Admits.of_narrow h hl harg (h.selfType_lt howner) fun _ t₁ h₁ => ?_
    rw [run_restrict_self, run_get_bind, h₁.grown.selfType_eq howner]
  | .union alternatives => by
    obtain ⟨S, new, hparts⟩ := exists_admitsEach h hl hr howner alternatives harg hb
    exact ⟨_, _, hparts.union⟩
  | .named names args => by
    by_cases hargs : args = []
    · subst hargs
      exact exists_admits_name h hl hr howner harg hb
    · have hempty : ¬ args.isEmpty = true := by simpa using hargs
      suffices hmatched : ∃ S new, Matched r t owner (freeNamesAll r t owner args) b
          (restrict r owner arg (.named names args)) (fun t₁ m => m < t₁.size ∧ t₁.parts m = S) new by
        obtain ⟨S, new, hS⟩ := hmatched
        refine ⟨S, new, ?_, fun _ _ p hp => (hS.fresh p hp).1⟩
        rwa [freeNames, if_neg hempty]
      cases htemplate : r t owner names with
      | none =>
        refine ⟨∅, [], ?_⟩
        rw [restrict, if_neg hempty]
        refine .getThe_bind ?_ fun t₁ h₁ => ?_
        · rw [htemplate]
          exact .pure fun t₁ _ => ⟨t₁.size_pos, parts_zero t₁⟩
        · simp only [hr.same howner h₁, htemplate]
      | some template =>
        have hmember : ∀ m ∈ t.members arg, m < t.size := fun m hm => (h.members_lt_size harg hm).2
        have hkeeps : ∀ m ∈ t.members arg, ∀ b : Bindings, (∀ q ∈ b, q.2 < t.size) →
            ∃ keep new, Matched r t owner (freeNamesAll r t owner args) b
              (keeps r owner args template m) (fun _ got => got = keep) new := by
          intro m hm b hb
          have hsame : ∀ t₁, Later t t₁ → instanceArgs t₁ m template = instanceArgs t m template :=
            fun t₁ h₁ => instanceArgs_later h₁ (hmember m hm) template
          by_cases hlength : (instanceArgs t m template).length = args.length
          · obtain ⟨ok, new, hok⟩ := exists_agrees h hl hr howner args (instanceArgs_lt h) hb
            refine ⟨ok, new, .getThe_bind ?_ fun t₁ h₁ => by simp only [hsame t₁ h₁]⟩
            simpa only [hlength, ne_eq, not_true_eq_false, if_false] using hok
          · refine ⟨false, [], .getThe_bind ?_ fun t₁ h₁ => by simp only [hsame t₁ h₁]⟩
            simp only [hlength, ne_eq, not_false_eq_true, if_true]
            exact .pure fun _ _ => rfl
        obtain ⟨kept, new, hsub, hkept⟩ := Matched.exists_filterM hkeeps hb
        refine ⟨absorb (t.partsOf kept), new, ?_⟩
        rw [restrict, if_neg hempty]
        refine .getThe_bind ?_ fun t₁ h₁ => ?_
        · rw [htemplate]
          refine hkept.bind_lift fun t₁ got h₁ hgot => ?_
          have hlt : ∀ m ∈ kept, m < t.size := fun m hm => hmember m (hsub m hm)
          rw [hgot, ← h₁.grown.toExtends.partsOf_eq h hlt]
          exact h₁.wellFormed.adds_unionOf_absorb fun m hm => h₁.lt_size (hlt m hm)
        · simp only [hr.same howner h₁, htemplate, h₁.grown.members_eq harg]

/-- What alternatives admit together. -/
theorem exists_admitsEach (h : WellFormed t) (hl : Linked t) (hr : r.Settled t)
    (howner : owner < t.size) (alternatives : List TypeExpr) {arg : TypeId} (harg : arg < t.size)
    {b : Bindings} (hb : ∀ p ∈ b, p.2 < t.size) :
    ∃ S new, AdmitsEach r t owner arg alternatives b S new :=
  match alternatives with
  | [] => ⟨_, _, .nil⟩
  | e :: rest => by
    obtain ⟨S, new, hfirst⟩ := exists_admits h hl hr howner e harg hb
    obtain ⟨S', new', hrest⟩ :=
      exists_admitsEach h hl hr howner rest harg (hfirst.matched.fresh.lt_size hb)
    exact ⟨_, _, hfirst.cons hrest⟩

/-- Whether type arguments agree. -/
theorem exists_agrees (h : WellFormed t) (hl : Linked t) (hr : r.Settled t) (howner : owner < t.size)
    (args : List TypeExpr) {given : List TypeId} (hgiven : ∀ a ∈ given, a < t.size) {b : Bindings}
    (hb : ∀ p ∈ b, p.2 < t.size) :
    ∃ ok new, Matched r t owner (freeNamesAll r t owner args) b (agree r owner given args)
      (fun _ got => got = ok) new :=
  match args, given with
  | [], _ => by
    refine ⟨true, [], ?_⟩
    rw [agree]
    exact .pure fun _ _ => rfl
  | e :: rest, [] => by
    refine ⟨true, [], ?_⟩
    rw [agree]
    exact .pure fun _ _ => rfl
  | e :: rest, a :: more => by
    obtain ⟨ha, hmore⟩ := List.forall_mem_cons.mp hgiven
    obtain ⟨S, new, hfirst, -⟩ := exists_admits h hl hr howner e ha hb
    rw [agree, freeNamesAll]
    -- the argument is left as it is exactly if it has the parts that are admitted
    have hwhole : ∀ {t₁ m}, Later t t₁ → (m < t₁.size ∧ t₁.parts m = S) → (m = a ↔ S = t.parts a) := by
      rintro t₁ m h₁ ⟨-, rfl⟩
      rw [← h₁.grown.toExtends.parts_eq h ha]
      exact ⟨fun heq => heq ▸ rfl, h₁.wellFormed.parts_injective⟩
    by_cases hS : S = t.parts a
    · obtain ⟨ok, new', hok⟩ := exists_agrees h hl hr howner rest hmore (hfirst.fresh.lt_size hb)
      refine ⟨ok, new' ++ new, hfirst.bind hok.fresh fun {b'} hb' {t₁ m} h₁ hm => ?_⟩
      rw [if_pos ((hwhole h₁ hm).mpr hS)]
      exact hok.adds hb' h₁
    · refine ⟨false, [] ++ new, hfirst.bind .nil fun {b'} hb' {t₁ m} h₁ hm => ?_⟩
      rw [if_neg (mt (hwhole h₁ hm).mp hS)]
      exact .pure h₁.wellFormed ⟨rfl, rfl⟩

end

/-- **A rejected alternative leaves traces inside its type arguments only.** Matching a restriction adds
bindings for free type variables that it mentions and that were not bound before; if it is rejected,
these are variables inside type arguments, so that without such variables the bindings are left as they
were. Two alternatives of which the second one mentions no unbound variable inside the type arguments of
the first one admit something together exactly if one of them does so alone, with the same bindings to
start with. -/
theorem restrict_alternatives (h : WellFormed t) (hl : Linked t) (hr : r.Settled t)
    (howner : owner < t.size) {arg : TypeId} (harg : arg < t.size) (hne : arg ≠ 0) {b : Bindings}
    (hb : ∀ p ∈ b, p.2 < t.size) (first second : TypeExpr) :
    let run := fun e => (((restrict r owner arg e).run b).run t).1
    (∀ e, ∃ new, (run e).2 = new ++ b ∧
      (∀ p ∈ new, p.1 ∈ freeNames r t owner e ∧ b.get? p.1 = none) ∧
      ((run e).1 = 0 → ∀ p ∈ new, p.1 ∈ innerNames r t owner e)) ∧
    ((∀ n ∈ innerNames r t owner first, n ∈ freeNames r t owner second → b.get? n ≠ none) →
      ((run (.union [first, second])).1 ≠ 0 ↔ (run first).1 ≠ 0 ∨ (run second).1 ≠ 0)) := by
  have hnow : Later t t := .refl h hl
  refine ⟨fun e => ?_, fun hdisjoint => ?_⟩
  · obtain ⟨S, new, he⟩ := exists_admits h hl hr howner e harg hb
    refine ⟨new, he.bindings_eq hnow, fun p hp => ?_, fun hrejected => ?_⟩
    · obtain ⟨hn, -, hfree, -⟩ := he.matched.fresh p hp
      exact ⟨hn, hfree⟩
    · exact he.inner hne ((he.rejects_iff (fun _ _ => rfl) hnow).mp hrejected)
  · obtain ⟨S, new, hfirst⟩ := exists_admits h hl hr howner first harg hb
    obtain ⟨S', new', hsecond⟩ := exists_admits h hl hr howner second harg hb
    obtain ⟨S'', new'', hafter⟩ :=
      exists_admits h hl hr howner second harg (hfirst.matched.fresh.lt_size hb)
    have hboth := (hfirst.cons (hafter.cons .nil)).union
    rw [Set.union_empty] at hboth
    -- after a rejected alternative the second one is matched as if it stood alone
    have halone : S = ∅ → (S'' = ∅ ↔ S' = ∅) := by
      intro hS
      have halike : Alike r t owner (freeNames r t owner second) b (new ++ b) := by
        refine .of_fresh hfirst.matched.fresh fun p hp hmem => ?_
        exact hdisjoint p.1 (hfirst.inner hne hS p hp) hmem (hfirst.matched.fresh p hp).2.2.1
      rw [← hafter.rejects_iff (fun _ _ => rfl) hnow, hsecond.rejects_iff halike hnow]
    have hsame : ∀ {b : Bindings} {e : TypeExpr}, Alike r t owner (freeNames r t owner e) b b :=
      fun _ _ => rfl
    show ¬ _ ↔ ¬ _ ∨ ¬ _
    rw [hboth.rejects_iff hsame hnow, hfirst.rejects_iff hsame hnow, hsecond.rejects_iff hsame hnow,
      absorb_eq_empty_iff, Set.union_empty_iff, not_and_or]
    by_cases hS : S = ∅
    · rw [halone hS]
    · exact iff_of_true (.inl hS) (.inl hS)

/-- A generic class with two parameters, and the pairs 15 of a truth value and a character. -/
def pairTable : Table :=
  Operation.runAll [
    .defineClass "Pair" Builtin.object ["K", "V"],
    .instantiate 14 [Builtin.bool, Builtin.char]] initial

/-- The written type of pairs whose two parts are given by names. -/
def pairOf (first second : String) : TypeExpr :=
  .named ["Pair"] [.named [first] [], .named [second] []]

/-- Pairs whose second part is a truth value are rejected, and the alternative after it admits the
argument as it would alone. -/
theorem restrict_alternatives_pairs :
    let run := fun e => (((restrict resolveType? Builtin.program 15 e).run []).run pairTable).1
    Inferred pairTable ∧ resolveType?.Settled pairTable ∧ Builtin.program < pairTable.size ∧
    15 < pairTable.size ∧
    innerNames resolveType? pairTable Builtin.program (pairOf "T" "Bool") = ["T"] ∧
    freeNames resolveType? pairTable Builtin.program (pairOf "U" "Char") = ["U"] ∧
    (run (pairOf "T" "Bool")).1 = 0 ∧ (run (pairOf "U" "Char")).1 ≠ 0 ∧
    (run (.union [pairOf "T" "Bool", pairOf "U" "Char"])).1 ≠ 0 := by
  have hinf : Inferred pairTable := Inferred.initial.runAll (by decide +kernel)
  obtain ⟨hwf, hl, -⟩ := hinf.invariants
  have hr : resolveType?.Settled pairTable := hwf.settled_resolveType? (by decide +kernel)
  have howner : Builtin.program < pairTable.size := by decide +kernel
  have harg : 15 < pairTable.size := by decide +kernel
  have hinner : innerNames resolveType? pairTable Builtin.program (pairOf "T" "Bool") = ["T"] := by
    decide +kernel
  have hfree : freeNames resolveType? pairTable Builtin.program (pairOf "U" "Char") = ["U"] := by
    decide +kernel
  have hsecond : (((restrict resolveType? Builtin.program 15 (pairOf "U" "Char")).run []).run
      pairTable).1.1 ≠ 0 := by decide +kernel
  obtain ⟨-, hboth⟩ := restrict_alternatives hwf hl hr howner harg (by decide) (b := []) (by simp)
    (pairOf "T" "Bool") (pairOf "U" "Char")
  refine ⟨hinf, hr, howner, harg, hinner, hfree, by decide +kernel, hsecond,
    (hboth ?_).mpr (.inr hsecond)⟩
  rw [hinner, hfree]
  simp

/-- A variable that is mentioned again makes a difference: it admits everything alone, but not after a
rejected alternative has bound it. -/
theorem restrict_pairs_bound :
    let run := fun e => (((restrict resolveType? Builtin.program 15 e).run []).run pairTable).1
    run (pairOf "T" "Bool") = (0, [("T", Builtin.bool)]) ∧
    run (.named ["T"] []) = (15, [("T", 15)]) ∧
    run (.union [pairOf "T" "Bool", .named ["T"] []]) = (0, [("T", Builtin.bool)]) := by
  decide +kernel

end Overload

end TypeFlow
