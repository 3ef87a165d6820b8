import TypeFlow.Proofs.Inference.Memo

/-!
# Calls after a failure

A call without block whose instance fails to type leaves the instance behind, and the method remembers it:
it did so before the body was typed. From then on a call that aims at the same method for the same types is
resolved to this instance at once. It types nothing and does not fail, whatever the reason of the failure was
(`Engine.resolveSingle_after_failure`).
-/

namespace TypeFlow

variable {p p' p₁ w w' w₁ : Program} {site site' : Site} {recv recv' owner : TypeId}
  {args args' : List TypeId} {i : InstanceId} {a : Instance}
  {purpose : MethodId × TypeId × List TypeId}

namespace Engine

open Infer

variable {e : Engine}

/-- An instance that is there is the answer, and nothing changes. -/
theorem instantiate_of_instance (hp : p.Ordered) (ha : p.env.instances[i]? = some a)
    (hexpects : p.Expects a.method false) (hblock : site.call.block = none) {m : Match MethodId}
    (hpurpose : a.purpose = (m.candidate.id, owner, m.argTypes)) :
    (e.instantiate site owner m).run.run p = (.ok i, p) := by
  obtain ⟨method, hmethod, hknown⟩ := hp.remembered ha hexpects
  simp only [Instance.purpose, Prod.mk.injEq] at hpurpose
  obtain ⟨hid, howner, hargs⟩ := hpurpose
  rw [hid] at hmethod
  rw [howner, hargs] at hknown
  rw [instantiate, Flow.run_bind_of_ok (run_method hmethod)]
  simp only [hblock, Option.isNone_none, if_true, hknown]
  rfl

/-- What a call aims at: the method that accepts it whole, the receiver type of its instances and their
argument types. -/
def aim? (site : Site) (recv : TypeId) (args : List TypeId) :
    Infer (Option (MethodId × TypeId × List TypeId)) := do
  let (owner, ms) ← matchCall site recv args
  match ms.list with
  | [] => return none
  | m :: _ => return if m.argTypes = args then some (m.candidate.id, owner, args) else none

theorem exists_of_aim? (h : (aim? site recv args).run.run p = (.ok (some purpose), p')) :
    ∃ owner ms m rest, (matchCall site recv args).run.run p = (.ok (owner, ms), p') ∧
      ms.list = m :: rest ∧ m.argTypes = args ∧ purpose = (m.candidate.id, owner, args) := by
  obtain ⟨⟨owner, ms⟩, p₁, hmatch, h⟩ := Flow.exists_of_run_bind h
  simp only at h
  split at h
  · cases h
  · rename_i m rest hlist
    obtain rfl : p₁ = p' := congrArg Prod.snd h
    have hpurpose := Except.ok.inj (congrArg Prod.fst h)
    split at hpurpose
    · rename_i hargs
      exact ⟨owner, ms, m, rest, hmatch, hlist, hargs, (Option.some.inj hpurpose).symm⟩
    · cases hpurpose

/-- A call that aims at a method is resolved by an instance of it. -/
theorem run_resolveSingle (h : (aim? site recv args).run.run p = (.ok (some purpose), p')) :
    ∃ owner m, purpose = (m.candidate.id, owner, m.argTypes) ∧
      p'.Offers m.candidate.id site.call.block.isSome ∧
      (e.resolveSingle site recv args).run.run p = (do
        let i ← e.instantiate site owner m
        return ([(← instanceOf i).result], [.inst i]) : Infer (List NodeId × List Target)).run.run p' := by
  obtain ⟨owner, ms, m, rest, hmatch, hlist, rfl, rfl⟩ := exists_of_aim? h
  refine ⟨owner, m, rfl, offers_of_matchCall hmatch (hlist ▸ List.mem_cons_self), ?_⟩
  rw [resolveSingle, Flow.run_bind_of_ok hmatch]
  have hwhole : ms.branches m.argTypes = false := by
    rw [Matches.branches, hlist]
    simp
  simp only [hwhole, hlist]
  rfl

/-- **A failed call is not tried again.** If a call without block fails after its instance was made, then at
any later time a call without block that aims at the same method for the same types is resolved to that
instance; nothing is typed and nothing else changes. -/
theorem resolveSingle_after_failure {x : Expander} (hw : Acts (.initial x) w) (fuel fuel' : Nat)
    (hblock : site.call.block = none)
    (haim : (aim? site recv args).run.run w = (.ok (some purpose), w₁)) {f : Failure}
    (hfail : ((engine fuel).resolveSingle site recv args).run.run w = (.error f, w'))
    (hmade : w₁.env.instances.size < w'.env.instances.size) (hlater : Acts w' p)
    (hblock' : site'.call.block = none)
    (haim' : (aim? site' recv' args').run.run p = (.ok (some purpose), p₁)) :
    ∃ result, ((engine fuel').resolveSingle site' recv' args').run.run p =
      (.ok ([result], [.inst w₁.env.instances.size]), p₁) := by
  have hmatched : ∀ {site recv args} {q q₁ : Program},
      (aim? site recv args).run.run q = (.ok (some purpose), q₁) → Acts q q₁ := by
    intro site recv args q q₁ h
    obtain ⟨owner, ms, m, rest, hmatch, -⟩ := exists_of_aim? h
    exact (evolving_matchCall _ _ _).acts hmatch
  have hw₁ := Acts.ordered (hw.trans (hmatched haim)) (Program.ordered_initial x)
  obtain ⟨owner, m, rfl, hoffers, hrun⟩ := run_resolveSingle (e := engine fuel) haim
  rw [hrun] at hfail
  -- the failure is that of the instance, which is there nevertheless
  obtain ⟨r, hinstantiate⟩ : ∃ r, ((engine fuel).instantiate site owner m).run.run w₁ = (r, w') := by
    rcases hinst : ((engine fuel).instantiate site owner m).run.run w₁ with ⟨r, q⟩
    cases r with
    | ok i =>
      rw [Flow.run_bind_of_ok hinst] at hfail
      cases hfail
    | error g =>
      have hsame := congrArg Prod.snd ((Flow.run_bind_of_error hinst _).symm.trans hfail)
      exact ⟨.error g, congrArg (Prod.mk _) hsame⟩
  have hacts := ((engine_tame fuel).instantiate site owner m).acts hoffers hinstantiate
  rcases run_instantiate (engine_tame fuel) hw₁ hoffers hinstantiate with ⟨rfl, -⟩ | ⟨-, a, ha, hpurpose⟩
  · exact absurd hmade (Nat.lt_irrefl _)
  have hp₁ : Acts w₁ p₁ := hacts.trans (hlater.trans (hmatched haim'))
  obtain ⟨a', ha', hsame⟩ := Acts.inst (hlater.trans (hmatched haim')) ha
  have hexpects : p₁.Expects a'.method false := by
    have hmethod : a'.method = m.candidate.id := congrArg Prod.fst (hsame.purpose.trans hpurpose)
    rw [hblock] at hoffers
    exact hmethod ▸ hp₁.expects (hw₁.offers hoffers)
  obtain ⟨owner', m', hpurpose', -, hrun'⟩ := run_resolveSingle (e := engine fuel') haim'
  have hknown := instantiate_of_instance (e := engine fuel') (hp₁.ordered hw₁) ha' hexpects hblock'
    ((hsame.purpose.trans hpurpose).trans hpurpose')
  rw [hrun', Flow.run_bind_of_ok hknown]
  exact ⟨_, rfl⟩

/-- The program after a method is declared that calls something undefined. -/
def stranded : Program :=
  ((Program.initial .none).run (Program.infer (forwards "lost" "nowhere"))).2

/-- A call of it. -/
def losing : Site :=
  { call := ⟨⟨none, 0⟩, none, "lost", [], none, false⟩, scope := 0, node := 2 }

/-- The program after the call has failed. -/
def strandedAgain : Program :=
  (((engine 5).resolveSingle losing Builtin.program []).run.run stranded).2

/-- A tree that calls it. -/
def lost : Source :=
  .node none (.call none "lost" none none false)

/-- The call fails, as what its method calls is undefined. Resolved again right afterwards, it succeeds, and so
does a tree that makes the call once that failed. -/
theorem resolveSingle_after_failure_stranded :
    Acts (.initial .none) stranded ∧
    (stranded.run (Program.infer lost)).1.toOption.isNone ∧
    ((stranded.run (Program.infer lost)).2.run (Program.infer lost)).1.toOption.isSome ∧
    (((engine 5).resolveSingle losing Builtin.program []).run.run stranded).1.toOption.isNone ∧
    ∃ p₁ result, ((engine 5).resolveSingle losing Builtin.program []).run.run strandedAgain =
      (.ok ([result], [.inst 0]), p₁) := by
  have hw : Acts (.initial .none) stranded := Session.acts (.tree .initial _)
  have haim : ((aim? losing Builtin.program []).run.run stranded).1.toOption =
      some (some (1, Builtin.program, [])) := by decide +kernel
  have haim' : ((aim? losing Builtin.program []).run.run strandedAgain).1.toOption =
      some (some (1, Builtin.program, [])) := by decide +kernel
  have hnone : (((engine 5).resolveSingle losing Builtin.program []).run.run
      stranded).1.toOption.isNone := by decide +kernel
  have hnext : ((aim? losing Builtin.program []).run.run stranded).2.env.instances.size = 0 := by
    decide +kernel
  have hmade : strandedAgain.env.instances.size = 1 := by decide +kernel
  obtain ⟨f, hfail⟩ := Flow.exists_failure_of_run hnone
  have hagain := resolveSingle_after_failure hw 5 5 rfl (Flow.run_of_toOption haim) hfail
    (hnext.trans_lt (hmade.symm ▸ Nat.one_pos)) .refl rfl (Flow.run_of_toOption haim')
  rw [hnext] at hagain
  exact ⟨hw, by decide +kernel, by decide +kernel, hnone, _, hagain⟩

end Engine

end TypeFlow
