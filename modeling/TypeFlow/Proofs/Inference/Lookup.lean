import TypeFlow.Proofs.Inference.Steps

/-!
# What a call is matched with

Whichever way the overload group of a call is found or made, it is one of the program, filed for calls with a
block if the call has one and for calls without otherwise. So are the methods that a call is matched with
(`Infer.offers_of_matchCall`).
-/

namespace TypeFlow

/-- A group is the one of the program with a key on some type. -/
def Program.Files (p : Program) (g : Group) (key : GroupKey) : Prop :=
  g ∈ p.env.groups ∧ g.key = key

/-- A typing step never gets beyond its failure. -/
def Failing {α : Type} (m : Infer α) : Prop :=
  ∀ p a p', m.run.run p ≠ (.ok a, p')

namespace Failing

variable {α β : Type}

theorem throw (f : Failure) : Failing (throw f : Infer α) :=
  fun _ _ _ h => nomatch h

theorem after {m : Infer β} {k : β → Infer α} (hk : ∀ b, Failing (k b)) : Failing (m >>= k) := by
  intro p a p' h
  obtain ⟨b, p₁, -, hrest⟩ := Flow.exists_of_run_bind h
  exact hk b p₁ a p' hrest

end Failing

namespace Env

variable {e : Env} {owner declaring : TypeId} {key : GroupKey} {g : Group} {t : Table}

theorem mem_of_findGroup? (h : ((e.findGroup? owner key).run t).1 = some g) :
    g ∈ e.groups ∧ g.key = key := by
  obtain ⟨_, -, hg⟩ := List.exists_of_findSome?_eq_some h
  exact (mem_of_group? hg).imp_right And.right

theorem mem_of_findSuperGroup? (h : ((e.findSuperGroup? owner declaring key).run t).1 = some g) :
    g ∈ e.groups ∧ g.key = key := by
  have hanswers : Table.Answers (e.findSuperGroup? owner declaring key) fun found =>
      ∀ g ∈ found, g ∈ e.groups ∧ g.key = key := by
    refine .after fun chain => ?_
    split
    · exact .pure (by rintro g ⟨⟩)
    · refine .pure fun g hg => ?_
      obtain ⟨_, -, hg⟩ := List.exists_of_findSome?_eq_some hg
      exact (mem_of_group? hg).imp_right And.right
  exact hanswers t g h

end Env

namespace Infer

variable {p p' : Program} {key : GroupKey} {g : Group} {site : Site} {recv owner declaring : TypeId}
  {args : List TypeId} {loc : Option Location} {name : String}

/-- A foreign function that a name refers to is filed. -/
theorem names_of_fun? {lib : TypeId} {id : MethodId}
    (h : (fun? lib name).run.run p = (.ok (some id), p')) : p'.Names id := by
  obtain rfl : p = p' := congrArg Prod.snd h
  obtain ⟨x, hx, hid⟩ := Option.map_eq_some_iff.mp (Except.ok.inj (congrArg Prod.fst h))
  obtain rfl : x.2 = id := hid
  exact ⟨x.1, List.mem_of_find?_eq_some hx⟩

/-- What is done with a foreign function may rely on its being filed. -/
theorem evolving_fun?_bind {α : Type} {lib : TypeId} {k : Option MethodId → Infer α}
    (hnone : Evolving (k none)) (hsome : ∀ id, EvolvingFrom (·.Names id) (k (some id))) :
    Evolving (fun? lib name >>= k) := by
  intro p
  refine (((evolving_fun? lib name).from fun _ => True).andThen
    (Q := fun found p => ∀ id, found = some id → p.Names id) ?_ fun found => ?_) p trivial
  · intro p found p' _ hrun id hid
    exact names_of_fun? (hid ▸ hrun)
  · cases found with
    | none => exact hnone.from _
    | some id => exact fun q hq => hsome id q (hq id rfl)

/-! ### Groups that are found -/

theorem files_of_findGroup? (h : (findGroup? owner key).run.run p = (.ok (some g), p')) :
    p'.Files g key := by
  obtain ⟨e, p₁, he, h⟩ := Flow.exists_of_run_bind h
  cases he
  obtain rfl : _ = p' := congrArg Prod.snd h
  exact Env.mem_of_findGroup? (Except.ok.inj (congrArg Prod.fst h))

theorem files_of_lookupSuper
    (h : (lookupSuper site declaring name recv args).run.run p = (.ok (g, owner), p')) :
    p'.Files g { keyOf site args with name } := by
  obtain ⟨e, p₁, he, h⟩ := Flow.exists_of_run_bind h
  cases he
  obtain ⟨found, p₂, hfound, h⟩ := Flow.exists_of_run_bind h
  obtain rfl : _ = p₂ := congrArg Prod.snd hfound
  split at h
  · cases h
    exact Env.mem_of_findSuperGroup? (Except.ok.inj (congrArg Prod.fst hfound))
  · obtain ⟨_, _, -, h⟩ := Flow.exists_of_run_bind h
    obtain ⟨_, _, -, h⟩ := Flow.exists_of_run_bind h
    cases h

theorem files_of_lookupDeclared?
    (h : (lookupDeclared? site recv key).run.run p = (.ok (some (g, owner)), p')) :
    p'.Files g key := by
  obtain ⟨own, p₁, hown, h⟩ := Flow.exists_of_run_bind h
  extract_lets k at h
  have hk : ∀ found (q : Program), (∀ g, found = some g → q.Files g.1 key) →
      (k found).run.run q = (.ok (some (g, owner)), p') → p'.Files g key := by
    intro found q hfound h
    unfold k at h
    split at h
    · cases h
      exact hfound _ rfl
    · split at h
      · obtain ⟨top, p₂, htop, h⟩ := Flow.exists_of_run_bind h
        obtain rfl : p₂ = p' := congrArg Prod.snd h
        obtain ⟨g', hg', heq⟩ := Option.map_eq_some_iff.mp (Except.ok.inj (congrArg Prod.fst h))
        cases heq
        rw [hg'] at htop
        exact files_of_findGroup? htop
      · cases h
  split at h
  · rename_i g'
    obtain ⟨inherited, p₂, hinherited, hlast⟩ := Flow.exists_of_run_bind h
    -- asking where the group comes from changes nothing
    have hsame : p₂ = p₁ := by
      obtain ⟨t, p₃, ht, hinherited⟩ := Flow.exists_of_run_bind hinherited
      cases ht
      split at hinherited <;> exact (congrArg Prod.snd hinherited).symm
    subst hsame
    split at hlast
    · exact hk none p₂ (fun _ hg => nomatch hg) hlast
    · refine hk (some (g', recv)) p₂ (fun found hfound => ?_) hlast
      cases hfound
      exact files_of_findGroup? hown
  · obtain ⟨found, p₂, hfound, h⟩ := Flow.exists_of_run_bind h
    cases hfound
    exact hk none p₁ (fun g' hg' => nomatch hg') h

/-! ### Groups that are made -/

theorem files_of_defineNew (h : (defineNew recv key loc).run.run p = (.ok (some g), p')) :
    p'.Files g key := by
  obtain ⟨t, p₁, ht, h⟩ := Flow.exists_of_run_bind h
  simp only at h
  split at h
  · cases h
  · split at h
    · cases h
    · split at h
      · cases h
      · obtain ⟨found, p₂, -, h⟩ := Flow.exists_of_run_bind h
        split at h
        · split at h
          · cases h
          · obtain ⟨groups, p₃, -, h⟩ := Flow.exists_of_run_bind h
            split at h
            · cases h
            · obtain ⟨_, _, -, h⟩ := Flow.exists_of_run_bind h
              exact files_of_findGroup? h
        · obtain ⟨_, _, -, h⟩ := Flow.exists_of_run_bind h
          exact files_of_findGroup? h

theorem files_of_defineMissing (h : (defineMissing recv key loc).run.run p = (.ok (some g), p')) :
    p'.Files g key := by
  unfold defineMissing at h
  split at h
  · cases h
  · obtain ⟨found, p₁, -, h⟩ := Flow.exists_of_run_bind h
    split at h
    · cases h
    · obtain ⟨_, _, -, h⟩ := Flow.exists_of_run_bind h
      obtain ⟨_, _, -, h⟩ := Flow.exists_of_run_bind h
      exact files_of_findGroup? h

theorem files_of_lookupMade? (h : (lookupMade? site recv key).run.run p = (.ok (some g), p')) :
    p'.Files g key := by
  obtain ⟨t, p₁, ht, h⟩ := Flow.exists_of_run_bind h
  extract_lets k at h
  have hk : ∀ made (q : Program), (∀ g, made = some g → q.Files g key) →
      (k made).run.run q = (.ok (some g), p') → p'.Files g key := by
    intro made q hmade h
    cases made with
    | some g' =>
      cases h
      exact hmade g rfl
    | none => exact files_of_defineMissing h
  split at h
  · obtain ⟨made, p₂, hmade, h⟩ := Flow.exists_of_run_bind h
    refine hk made p₂ (fun g' hg' => ?_) h
    rw [hg'] at hmade
    exact files_of_defineNew hmade
  · obtain ⟨made, p₂, hmade, h⟩ := Flow.exists_of_run_bind h
    cases hmade
    exact hk none p₁ (fun g' hg' => nomatch hg') h

/-! ### The group of a call -/

theorem failing_undefined {α : Type} (s : ScopeId) (text : String) :
    Failing (undefined s text : Infer α) :=
  .after fun _ => .throw _

theorem failing_unknownCall {α : Type} (site : Site) (recv : TypeId) (args : List TypeId) :
    Failing (unknownCall site recv args : Infer α) := by
  refine .after fun keys => ?_
  split
  · unfold unknownName
    simp only
    split
    · exact .after fun _ => failing_undefined _ _
    · split <;> exact failing_undefined _ _
  · split
    · split <;> exact .throw _
    · exact .throw _

theorem failing_noOverload {α : Type} (g : Group) (owner : TypeId) (args : List TypeId)
    (ms : Matches MethodId) : Failing (noOverload g owner args ms : Infer α) := by
  unfold noOverload
  extract_lets l k
  have hl : ∀ rejected, Failing (l rejected) := by
    intro rejected
    unfold l
    split
    · exact .after fun _ => .throw _
    · exact .after fun _ => .throw _
  have hk : ∀ primitive, Failing (k primitive) := by
    intro primitive
    unfold k
    split <;> exact .after hl
  split <;> exact .after hk

/-- The group of a call is one for its number of arguments, and for a block if it has one. -/
theorem files_of_lookup (h : (lookup site recv args).run.run p = (.ok (g, owner), p')) :
    ∃ name, p'.Files g { keyOf site args with name } := by
  unfold lookup at h
  split at h
  · exact ⟨_, files_of_lookupSuper h⟩
  · obtain ⟨declared, p₁, hdeclared, h⟩ := Flow.exists_of_run_bind h
    split at h
    · cases h
      exact ⟨_, files_of_lookupDeclared? hdeclared⟩
    · obtain ⟨made, p₂, hmade, h⟩ := Flow.exists_of_run_bind h
      split at h
      · cases h
        exact ⟨_, files_of_lookupMade? hmade⟩
      · exact absurd h (failing_unknownCall _ _ _ _ _ _)

/-- What a call is matched with are candidates of a group for its number of arguments, each with a type for
every argument. -/
theorem group_of_matchCall {ms : Matches MethodId}
    (h : (matchCall site recv args).run.run p = (.ok (owner, ms), p')) :
    ∃ g name, p'.Files g { keyOf site args with name } ∧
      ∀ m ∈ ms.list, m.candidate ∈ g.candidates ∧ m.argTypes.length = args.length := by
  obtain ⟨⟨g, owner'⟩, p₁, hlookup, h⟩ := Flow.exists_of_run_bind h
  obtain ⟨called, hg⟩ := files_of_lookup hlookup
  obtain ⟨ms', p₂, hselect, h⟩ := Flow.exists_of_run_bind h
  obtain rfl : _ = p₂ := congrArg Prod.snd hselect
  have hms' : ∀ m ∈ ms'.list, m.candidate ∈ g.candidates ∧ m.argTypes.length = args.length := by
    rw [← Except.ok.inj (congrArg Prod.fst hselect)]
    exact Overload.answers_select _ _ _ _
  split at h
  · cases h
    exact ⟨g, called, hg, hms'⟩
  · exact absurd h (failing_noOverload _ _ _ _ _ _ _)

/-- **The methods that a call is matched with are filed for it**: for calls with a block if it has one, for
calls without otherwise. -/
theorem offers_of_matchCall {ms : Matches MethodId}
    (h : (matchCall site recv args).run.run p = (.ok (owner, ms), p')) {m : Match MethodId}
    (hm : m ∈ ms.list) : p'.Offers m.candidate.id site.call.block.isSome := by
  obtain ⟨g, name, ⟨hmem, hkey⟩, hms⟩ := group_of_matchCall h
  exact ⟨g, hmem, congrArg GroupKey.yields hkey, m.candidate, (hms m hm).1, rfl⟩

end Infer

end TypeFlow
