import TypeFlow.Proofs.Overload.Linear

/-!
# Accepted calls dispatch

An accepted call on arguments that stand for several classes is dispatched combination by combination, and
each combination is resolved on its own. This relies on a complete cover meaning that they are all accepted.
For linear signatures it does: a combination within what a candidate leaves of the whole arguments is
accepted by this candidate (`adds_restrictArgs_linear`, `adds_match_linear`), and so some candidate accepts
it (`Inferred.found_select`).

With a variable that occurs twice it does not (`found_select_pairs`): the variable is bound to a union, both
arguments agree with it, and the cover is complete; a combination of two different classes is rejected.
-/

namespace TypeFlow

namespace Overload

open Table

/-- What is left of arguments is something of each of them. -/
def Parts (t t₂ : Table) (ms args : List TypeId) : Prop :=
  List.Forall₂ (fun m a => m ≠ 0 ∧ m < t₂.size ∧ ∀ c ∈ t₂.concrete m, c ∈ t.concrete a) ms args

variable {r : Resolver} {t t₁ t₂ t₃ : Table} {owner : TypeId} {b : Bindings} {ms args : List TypeId}

theorem Parts.lt_size (hparts : Parts t t₂ ms args) : ∀ m ∈ ms, m < t₂.size := by
  induction hparts with
  | nil => simp
  | cons hm _ ih => exact List.forall_mem_cons.mpr ⟨hm.2.1, ih⟩

theorem Parts.map_concrete (hparts : Parts t t₂ ms args) (h₂ : WellFormed t₂) (hl₂ : Linked t₂)
    (h₃ : Later t₂ t₃) : ms.map t₃.concrete = ms.map t₂.concrete :=
  List.map_congr_left fun m hm => h₃.grown.concrete_eq h₂ hl₂ (hparts.lt_size m hm)

theorem Parts.later (hparts : Parts t t₂ ms args) (h₂ : WellFormed t₂) (hl₂ : Linked t₂)
    (h₃ : Later t₂ t₃) : Parts t t₃ ms args := by
  refine List.Forall₂.imp (fun m a hm => ?_) hparts
  obtain ⟨hne, hlt, hclasses⟩ := hm
  rw [h₃.grown.concrete_eq h₂ hl₂ hlt]
  exact ⟨hne, h₃.lt_size hlt, hclasses⟩

/-- Of arguments that stand for one class each, all is left. -/
theorem Parts.within_single (hparts : Parts t t₂ ms args) (h₂ : WellFormed t₂) (hl₂ : Linked t₂)
    (hargs : ∀ a ∈ args, a ≠ 0 → Single t a) {xs : List TypeId}
    (hxs : xs ∈ product (args.map t.concrete)) : Cover.within (ms.map t₂.concrete) xs = true := by
  induction hparts generalizing xs with
  | nil =>
    obtain rfl : xs = [] := by simpa [product] using hxs
    rfl
  | @cons m a ms args hm _ ih =>
    obtain ⟨hne, -, hclasses⟩ := hm
    obtain ⟨x, hx, ys, hys, rfl⟩ := mem_product_cons.mp hxs
    have ha : a ≠ 0 := by
      rintro rfl
      exact absurd hx (by simp)
    have hself := (hargs a List.mem_cons_self ha).concrete_eq
    obtain ⟨c, hc⟩ := List.exists_mem_of_ne_nil _ (mt (h₂.concrete_eq_nil_iff hl₂).mp hne)
    have hca := hclasses c hc
    rw [hself, List.mem_singleton] at hx hca
    subst hx hca
    simp only [List.map_cons, Cover.within, Bool.and_eq_true, List.contains_iff_mem]
    exact ⟨hc, ih (fun d hd => hargs d (List.mem_cons_of_mem _ hd)) hys⟩

theorem Linear.tail {e : Option TypeExpr} {params : List (Option TypeExpr)}
    (hp : Linear r t owner (e :: params)) : Linear r t owner params := by
  refine ⟨fun d hd => hp.shallow d (List.mem_cons_of_mem _ hd), ?_⟩
  have hnodup := hp.nodup
  rw [List.flatMap_cons] at hnodup
  exact (List.nodup_append.mp hnodup).2.1

section

variable (hs : Shaped t) (h : WellFormed t) (hl : Linked t) (hr : r.Settled t)
  (howner : owner < t.size)

include hs h hl hr howner

/-! ### Arguments -/

/-- **Linear parameters accept every combination within what they leave.** -/
theorem adds_restrictArgs_linear {params : List (Option TypeExpr)} (hp : Linear r t owner params)
    (hargs : ∀ a ∈ args, a < t.size) (hb : Binds r t owner b) (h₁ : Later t t₁) :
    Adds t₁ ((restrictArgs r owner args params).run b) fun t₂ p =>
      BindsOnly r t owner (params.flatMap (paramNames r t owner)) b p.2 ∧
      ∀ ms, p.1 = some ms → Parts t t₂ ms args ∧
        ∀ xs, Cover.within (ms.map t₂.concrete) xs = true →
          Succeeds r t owner t₂ (params.flatMap (paramNames r t owner))
            (restrictArgs r owner xs params) fun left => left.isSome = true := by
  induction args generalizing params b t₁ with
  | nil =>
    rw [restrictArgs]
    refine .pure h₁.wellFormed ⟨.refl hb, ?_⟩
    rintro _ ⟨⟩
    refine ⟨.nil, fun xs hin => ?_⟩
    cases xs with
    | nil =>
      rw [restrictArgs]
      exact .pure rfl
    | cons x xs => exact absurd hin (by simp [Cover.within])
  | cons a args ih =>
    obtain ⟨ha, hargs⟩ := List.forall_mem_cons.mp hargs
    cases params with
    | nil =>
      rw [restrictArgs]
      exact .pure h₁.wellFormed ⟨.refl hb, by simp⟩
    | cons e params =>
      have hnodup := hp.nodup
      rw [List.flatMap_cons] at hnodup ⊢
      rw [run_restrictArgs_cons]
      refine (hp.reliable hs h hl hr howner List.mem_cons_self ha hb h₁).bind_later h₁.linked ?_
      rintro t₂ ⟨m, b₁⟩ h₂ hm
      simp only
      split
      · exact .pure h₂.wellFormed ⟨hm.binds.mono (List.subset_append_left _ _), by simp⟩
      · rename_i hne
        refine (ih hp.tail hargs hm.binds.binds (h₁.trans h₂)).bind_later h₂.linked ?_
        rintro t₃ ⟨left, b₂⟩ h₃ ⟨hb₂, hleft⟩
        refine .pure h₃.wellFormed ⟨hm.binds.trans hb₂, fun ms hms => ?_⟩
        obtain ⟨ns, hns, rfl⟩ := Option.map_eq_some_iff.mp hms
        obtain ⟨hparts, hrest⟩ := hleft ns hns
        have hsame : t₃.concrete m = t₂.concrete m :=
          h₃.grown.concrete_eq h₂.wellFormed h₂.linked hm.known
        refine ⟨.cons ⟨hne, h₃.lt_size hm.known, fun c hc => ?_⟩ hparts, fun xs hin => ?_⟩
        · exact (hm.alone c (hsame ▸ hc)).1
        · cases xs with
          | nil =>
            rw [restrictArgs]
            exact .pure rfl
          | cons x xs =>
            simp only [List.map_cons, Cover.within, Bool.and_eq_true, List.contains_iff_mem,
              hsame] at hin
            rw [restrictArgs]
            refine ((hm.alone x hin.1).2.later h₃).bind hnodup fun t₄ got h₄ hgot => ?_
            rw [if_neg hgot]
            exact ((hrest xs hin.2).later h₄).bind_pure fun left hsome => by simpa using hsome

/-! ### Candidates -/

variable {ι : Type}

theorem adds_match_linear {c : Candidate ι} (hc : Linear r t owner c.restrictions)
    (hargs : ∀ a ∈ args, a < t.size) (h₁ : Later t t₁) :
    Adds t₁ («match» r c owner args) fun t₂ m => ∀ x, m = some x → Parts t t₂ x.argTypes args ∧
      ∀ xs ∈ product (args.map t.concrete), Cover.within (x.argTypes.map t₂.concrete) xs = true →
        ∀ t₃, Later t₂ t₃ → Adds t₃ («match» r c owner xs) fun _ y => y.isSome = true := by
  have hempty : Binds r t owner [] := by simp [Binds]
  unfold «match»
  split
  · exact .pure h₁.wellFormed (by simp)
  · rename_i hlen
    refine (adds_restrictArgs_linear hs h hl hr howner hc hargs hempty h₁).bind ?_
    rintro t₂ ⟨left, b₁⟩ h₂ _ ⟨-, hleft⟩
    refine .pure h₂ fun x hx => ?_
    obtain ⟨ms, hms, rfl⟩ := Option.map_eq_some_iff.mp hx
    obtain ⟨hparts, halone⟩ := hleft ms hms
    refine ⟨hparts, fun xs hxs hin t₃ h₃ => ?_⟩
    have hsame : xs.length = args.length := by simpa using (mem_product.mp hxs).length_eq
    rw [if_neg (hsame ▸ hlen)]
    refine (halone xs hin t₃ h₃ [] hempty (by simp)).bind ?_
    rintro t₄ ⟨left', _⟩ h₄ _ ⟨hsome, -⟩
    exact .pure h₄ (by simpa using hsome)

/-- Arguments that some candidate accepts, now and later, are accepted. -/
theorem adds_matching_first {cs : List (Candidate ι)} (hcs : ∀ c ∈ cs, Linear r t owner c.restrictions)
    (hargs : ∀ a ∈ args, a < t.size) (h₁ : Later t t₁)
    (hsome : ∃ c ∈ cs, ∀ t₂, Later t₁ t₂ →
      Adds t₂ («match» r c owner args) fun _ y => y.isSome = true) :
    Adds t₁ (matching r true owner args cs) fun _ list => list ≠ [] := by
  induction cs generalizing t₁ with
  | nil => exact absurd hsome (by simp)
  | cons c cs ih =>
    obtain ⟨hc, hcs⟩ := List.forall_mem_cons.mp hcs
    obtain ⟨d, hd, haccepts⟩ := hsome
    rw [matching]
    -- the first candidate accepts them, or it is another one that does
    have hfirst : Adds t₁ («match» r c owner args) fun _ y => y = none → d ∈ cs := by
      rcases List.mem_cons.mp hd with rfl | hd
      · refine (haccepts t₁ (.refl h₁.wellFormed h₁.linked)).imp ?_
        rintro _ _ - - hy rfl
        exact absurd hy (by simp)
      · exact (adds_match_linear hs h hl hr howner hc hargs h₁).imp fun _ _ _ _ _ _ => hd
    refine hfirst.bind_later h₁.linked fun t₂ m h₂ hm => ?_
    cases m with
    | some m => exact .pure h₂.wellFormed (by simp)
    | none =>
      exact ih hcs (h₁.trans h₂) ⟨d, hm rfl, fun t₃ h₃ => haccepts t₃ (h₂.trans h₃)⟩

/-- What is said of a match: a combination within it is accepted by some candidate. -/
structure Dispatches (r : Resolver) (t : Table) (owner : TypeId) (cs : List (Candidate ι))
    (args : List TypeId) (t₂ : Table) (ms : List TypeId) : Prop where
  parts : Parts t t₂ ms args
  alone : ∀ xs ∈ product (args.map t.concrete), Cover.within (ms.map t₂.concrete) xs = true →
    ∃ c ∈ cs, ∀ t₃, Later t₂ t₃ → Adds t₃ («match» r c owner xs) fun _ y => y.isSome = true

omit hs h hl hr howner in
theorem Dispatches.later {cs cs' : List (Candidate ι)} (hd : Dispatches r t owner cs args t₂ ms)
    (h₂ : WellFormed t₂) (hl₂ : Linked t₂) (h₃ : Later t₂ t₃) (hsub : cs ⊆ cs') :
    Dispatches r t owner cs' args t₃ ms := by
  refine ⟨hd.parts.later h₂ hl₂ h₃, fun xs hxs hin => ?_⟩
  rw [hd.parts.map_concrete h₂ hl₂ h₃] at hin
  obtain ⟨c, hc, haccepts⟩ := hd.alone xs hxs hin
  exact ⟨c, hsub hc, fun t₄ h₄ => haccepts t₄ (h₃.trans h₄)⟩

theorem adds_matching_linear {cs : List (Candidate ι)}
    (hcs : ∀ c ∈ cs, Linear r t owner c.restrictions) (hargs : ∀ a ∈ args, a < t.size)
    (onlyFirst : Bool) (h₁ : Later t t₁) :
    Adds t₁ (matching r onlyFirst owner args cs) fun t₂ list =>
      ∀ m ∈ list, Dispatches r t owner cs args t₂ m.argTypes := by
  induction cs generalizing t₁ with
  | nil =>
    rw [matching]
    exact .pure h₁.wellFormed (by simp)
  | cons c cs ih =>
    obtain ⟨hc, hcs⟩ := List.forall_mem_cons.mp hcs
    rw [matching]
    refine (adds_match_linear hs h hl hr howner hc hargs h₁).bind_later h₁.linked fun t₂ m h₂ hm => ?_
    have hothers := ih hcs (h₁.trans h₂)
    have hsub : cs ⊆ c :: cs := List.subset_cons_self c cs
    -- what holds of the other candidates holds of all of them
    have hkeep : ∀ {t₃ ns}, Later t₂ t₃ → Dispatches r t owner cs args t₃ ns →
        Dispatches r t owner (c :: cs) args t₃ ns := fun h₃ hd =>
      hd.later h₃.wellFormed h₃.linked (.refl h₃.wellFormed h₃.linked) hsub
    cases m with
    | none =>
      refine hothers.imp fun t₃ list h₃ hg hlist m hm => ?_
      exact hkeep ⟨h₃, h₂.linked.of_grown hg, hg⟩ (hlist m hm)
    | some m =>
      obtain ⟨hparts, halone⟩ := hm m rfl
      have hfirst : Dispatches r t owner (c :: cs) args t₂ m.argTypes :=
        ⟨hparts, fun xs hxs hin => ⟨c, List.mem_cons_self, halone xs hxs hin⟩⟩
      simp only
      split
      · exact .pure h₂.wellFormed (by simpa using hfirst)
      · refine hothers.bind_later h₂.linked fun t₃ list h₃ hlist => .pure h₃.wellFormed ?_
        refine List.forall_mem_cons.mpr ⟨?_, fun d hd => hkeep h₃ (hlist d hd)⟩
        exact hfirst.later h₂.wellFormed h₂.linked h₃ (List.Subset.refl _)

/-- If a call on linear candidates is accepted, every combination lies within some match. -/
theorem adds_select_linear {cs : List (Candidate ι)} (hcs : ∀ c ∈ cs, Linear r t owner c.restrictions)
    (hargs : ∀ a ∈ args, a < t.size) :
    Adds t (select r cs owner args) fun t₂ m => m.found = true →
      ∀ xs ∈ product (args.map t.concrete), ∃ c ∈ cs, ∀ t₃, Later t₂ t₃ →
        Adds t₃ («match» r c owner xs) fun _ y => y.isSome = true := by
  refine Adds.get_bind ?_
  refine (adds_matching_linear hs h hl hr howner hcs hargs _ (.refl h hl)).bind_later hl ?_
  intro t₂ list h₂ hlist
  split
  · refine Adds.get_bind (.pure h₂.wellFormed fun hfound xs hxs => ?_)
    have hdims : args.map t₂.concrete = args.map t.concrete :=
      List.map_congr_left fun a ha => h₂.grown.concrete_eq h hl (hargs a ha)
    have hall := ((Matches.found_of_cover rfl).mp hfound).2
    rw [(Cover.records_marked t₂ args list).all_eq, Cover.dims_marked, hdims, List.all_eq_true] at hall
    obtain ⟨m, hm, hin⟩ := List.any_eq_true.mp (hall xs hxs)
    exact (hlist m hm).alone xs hxs hin
  · rename_i hsingle
    refine .pure h₂.wellFormed fun hfound xs hxs => ?_
    obtain ⟨m, hm⟩ := List.exists_mem_of_ne_nil _ ((Matches.found_of_no_cover rfl).mp hfound)
    have hclasses : ∀ a ∈ args, a ≠ 0 → Single t a := by
      intro a ha hne
      have hnot : ¬ isSeveral t a = true := fun hsev => hsingle (List.any_eq_true.mpr ⟨a, ha, hsev⟩)
      rw [isSeveral_iff, not_or] at hnot
      exact ⟨hne, hargs a ha, not_exists.mp hnot.1, not_exists.mp hnot.2⟩
    exact (hlist m hm).alone xs hxs
      ((hlist m hm).parts.within_single h₂.wellFormed h₂.linked hclasses hxs)

end

end Overload

open Table Overload

/-- **An accepted call dispatches**, if no candidate has a variable that occurs twice: every combination of
classes of the arguments is accepted when it is resolved on its own afterwards. -/
theorem Table.Inferred.found_select {ι : Type} {r : Resolver} {t : Table} (h : Inferred t)
    (hr : r.Settled t) {cs : List (Candidate ι)} {receiver : TypeId} (hreceiver : receiver < t.size)
    (hcs : ∀ c ∈ cs, Linear r t receiver c.restrictions) {args : List TypeId}
    (hargs : ∀ a ∈ args, a < t.size) :
    let result := (select r cs receiver args).run t
    result.1.found = true → ∀ xs ∈ product (args.map t.concrete), ∀ t₁, Later result.2 t₁ →
      ((select r cs receiver xs).run t₁).1.found = true := by
  obtain ⟨hwf, hl, hs⟩ := h.invariants
  have hselect := adds_select_linear hs hwf hl hr hreceiver hcs hargs
  intro result hfound xs hxs t₁ h₁
  have h₁' : Later t t₁ := (Later.of_adds hl hselect).trans h₁
  have hclasses := single_of_mem_product hs hwf hl hargs hxs
  have hseveral : xs.any (isSeveral t₁) = false :=
    List.any_eq_false.mpr fun x hx => not_isSeveral ((hclasses x hx).of_grown h₁'.grown)
  obtain ⟨c, hc, haccepts⟩ := hselect.2.2 hfound xs hxs
  have hlist := adds_matching_first hs hwf hl hr hreceiver hcs
    (fun x hx => (hclasses x hx).lt_size) h₁' ⟨c, hc, fun t₂ h₂ => haccepts t₂ (h₁.trans h₂)⟩
  have halone : Adds t₁ (select r cs receiver xs) fun _ m => m.found = true := by
    refine Adds.get_bind ?_
    rw [hseveral]
    refine hlist.bind fun t₂ list h₂ _ hne => .pure h₂ ?_
    exact (Matches.found_of_no_cover rfl).mpr hne
  exact halone.2.2

/-- The union 14 of nil and the truth values, and the arrays 15 of truth values. -/
def eithers : Table :=
  Operation.runAll [.merge [Builtin.nil, Builtin.bool], .instantiate Builtin.array [Builtin.bool]] initial

/-- Methods with a variable each: the first takes nil and anything, the second anything and an array. -/
def fills : List (Candidate String) :=
  [⟨"nothing", Builtin.program, [("a", some (.named ["Nil"] [])), ("b", some (.named ["T"] []))]⟩,
    ⟨"items", Builtin.program,
      [("a", some (.named ["T"] [])), ("b", some (.named ["Array"] [.named ["U"] []]))]⟩]

/-- The first method accepts nil only, so the call branches; both combinations are accepted. -/
theorem found_select_fills :
    Inferred eithers ∧ resolveType?.Settled eithers ∧ Builtin.program < eithers.size ∧
    (∀ c ∈ fills, Linear resolveType? eithers Builtin.program c.restrictions) ∧
    (∀ a ∈ [14, 15], a < eithers.size) ∧
    ((select resolveType? fills Builtin.program [14, 15]).run eithers).1.found = true ∧
    ((select resolveType? fills Builtin.program [14, 15]).run eithers).1.branches [14, 15] = true ∧
    ∀ xs ∈ [[Builtin.nil, 15], [Builtin.bool, 15]], ∀ t₁,
      Later ((select resolveType? fills Builtin.program [14, 15]).run eithers).2 t₁ →
      ((select resolveType? fills Builtin.program xs).run t₁).1.found = true := by
  have hinf : Inferred eithers := Inferred.initial.runAll (by decide +kernel)
  have hr : resolveType?.Settled eithers := hinf.invariants.1.settled_resolveType? (by decide +kernel)
  have hreceiver : Builtin.program < eithers.size := by decide +kernel
  have hcs : ∀ c ∈ fills, Linear resolveType? eithers Builtin.program c.restrictions := by
    have hnodup : ∀ c ∈ fills, (c.restrictions.flatMap
        (paramNames resolveType? eithers Builtin.program)).Nodup := by decide +kernel
    refine fun c hc => ⟨?_, hnodup c hc⟩
    revert c
    have hname : ∀ n, Shallow resolveType? eithers Builtin.program (.named [n] []) :=
      fun n => .named (by simp)
    have harray : Shallow resolveType? eithers Builtin.program (.named ["Array"] [.named ["U"] []]) :=
      .named (by simp)
    simp [fills, Candidate.restrictions, or_imp, forall_and, hname, harray]
  have hargs : ∀ a ∈ [14, 15], a < eithers.size := by decide +kernel
  have hfound : ((select resolveType? fills Builtin.program [14, 15]).run eithers).1.found = true := by
    decide +kernel
  have hproduct : product ([14, 15].map eithers.concrete) = [[Builtin.nil, 15], [Builtin.bool, 15]] := by
    decide +kernel
  refine ⟨hinf, hr, hreceiver, hcs, hargs, hfound, by decide +kernel, ?_⟩
  rw [← hproduct]
  exact hinf.found_select hr hreceiver hcs hargs hfound

/-- Methods of two arguments: the first takes nothing but nil, the second two that are alike. -/
def pairs : List (Candidate String) :=
  [⟨"nils", Builtin.program, [("a", some (.named ["Nil"] [])), ("b", some (.named ["Nil"] []))]⟩,
    ⟨"alike", Builtin.program, [("a", some (.named ["T"] [])), ("b", some (.named ["T"] []))]⟩]

/-- **An accepted call that does not dispatch.** The variable is bound to the union of nil and the truth
values, with which both arguments agree, so that the cover is complete; nil does not agree with a truth
value. -/
theorem found_select_pairs :
    Inferred eithers ∧ resolveType?.Settled eithers ∧ Builtin.program < eithers.size ∧
    (∀ a ∈ [14, 14], a < eithers.size) ∧
    ((select resolveType? pairs Builtin.program [14, 14]).run eithers).1.found = true ∧
    ((select resolveType? pairs Builtin.program [14, 14]).run eithers).1.branches [14, 14] = true ∧
    [Builtin.nil, Builtin.bool] ∈ product ([14, 14].map eithers.concrete) ∧
    ((select resolveType? pairs Builtin.program [Builtin.nil, Builtin.bool]).run
      ((select resolveType? pairs Builtin.program [14, 14]).run eithers).2).1.found = false := by
  have hinf : Inferred eithers := Inferred.initial.runAll (by decide +kernel)
  have hr : resolveType?.Settled eithers := hinf.invariants.1.settled_resolveType? (by decide +kernel)
  exact ⟨hinf, hr, by decide +kernel⟩

end TypeFlow
