import TypeFlow.Inference.Methods
import TypeFlow.Proofs.Inference.Evolving
import TypeFlow.Proofs.Overload.Specificity

/-!
# Filing methods

A method that is declared gets the next number and is filed under every number of arguments that it accepts. In
the group of each it takes its place among the candidates, or opens the group (`Infer.run_fileUnder`). The other
groups stay as they are, and those that change have the new method as a candidate (`Infer.run_register`).
-/

namespace TypeFlow

/-- A search in a list of which one element changes, as far as the search does not see it. -/
theorem find?_modify {α : Type} {p : α → Bool} {f : α → α} (hf : ∀ a, p (f a) = p a) (l : List α) (i : Nat) :
    (l.modify i f).find? p = if l.findIdx? p = some i then (l.find? p).map f else l.find? p := by
  induction l generalizing i with
  | nil => rw [List.modify_nil]; rfl
  | cons a l ih =>
    cases i with
    | zero =>
      rw [List.modify_zero_cons, List.find?_cons, List.find?_cons, List.findIdx?_cons, hf]
      cases p a
      · cases h : l.findIdx? p <;> simp
      · simp
    | succ i =>
      rw [List.modify_succ_cons, List.find?_cons, List.find?_cons, List.findIdx?_cons, ih]
      cases p a
      · cases h : l.findIdx? p <;> simp
      · simp

theorem findIdx?_toList {α : Type} (p : α → Bool) (xs : Array α) : xs.toList.findIdx? p = xs.findIdx? p := by
  rw [← List.findIdx?_toArray, Array.toArray_toList]

/-- Whether a group is the one with a key on a type. -/
def Group.isAt (owner : TypeId) (key : GroupKey) (g : Group) : Bool :=
  g.owner == owner && g.key == key

theorem Group.isAt_iff {owner : TypeId} {key : GroupKey} {g : Group} :
    g.isAt owner key = true ↔ g.owner = owner ∧ g.key = key := by
  rw [isAt, Bool.and_eq_true, beq_iff_eq, beq_iff_eq]

namespace Env

theorem group?_eq (e : Env) (owner : TypeId) (key : GroupKey) :
    e.group? owner key = e.groups.toList.find? (·.isAt owner key) := by
  rw [group?, ← Array.find?_toList]
  rfl

/-- The group with a key on a type is one that has this key. -/
theorem mem_of_group? {e : Env} {owner : TypeId} {key : GroupKey} {g : Group}
    (h : e.group? owner key = some g) : g ∈ e.groups ∧ g.owner = owner ∧ g.key = key := by
  rw [group?_eq] at h
  exact ⟨Array.mem_toList_iff.mp (List.mem_of_find?_eq_some h), Group.isAt_iff.mp (List.find?_some h)⟩

/-- One group among others is new or takes the place of the one that had its key on its type. -/
structure Places (e : Env) (g : Group) (gs : Array Group) : Prop where
  mem : ∀ h ∈ gs, h ∈ e.groups ∨ h = g
  find : ∀ owner key, gs.toList.find? (·.isAt owner key) =
    if g.owner = owner ∧ g.key = key then some g else e.group? owner key

theorem places_push {e : Env} {g : Group} (hnone : e.group? g.owner g.key = none) :
    e.Places g (e.groups.push g) := by
  refine ⟨fun h hh => Array.mem_push.mp hh, fun owner key => ?_⟩
  rw [Array.toList_push, List.find?_append, ← group?_eq, List.find?_singleton]
  by_cases hg : g.owner = owner ∧ g.key = key
  · rw [if_pos hg, if_pos (Group.isAt_iff.mpr hg), ← hg.1, ← hg.2, hnone]
    rfl
  · rw [if_neg hg, if_neg (mt Group.isAt_iff.mp hg), Option.or_none]

theorem places_modify {e : Env} {owner : TypeId} {key : GroupKey} {i : Nat} {cs : List (Candidate MethodId)}
    (hi : e.groups.findIdx? (·.isAt owner key) = some i) :
    e.Places ⟨key, owner, cs⟩ (e.groups.modify i fun g => { g with candidates := cs }) := by
  obtain ⟨hlt, hat, -⟩ := Array.findIdx?_eq_some_iff_getElem.mp hi
  obtain ⟨howner, hkey⟩ := Group.isAt_iff.mp hat
  refine ⟨fun h hh => ?_, fun owner' key' => ?_⟩
  · obtain ⟨j, hj⟩ := Array.mem_iff_getElem?.mp hh
    rw [Array.getElem?_modify] at hj
    split at hj
    · rename_i hij
      rw [← hij, Array.getElem?_eq_getElem hlt] at hj
      obtain rfl := Option.some.inj hj
      exact .inr (by simp only [howner, hkey])
    · exact .inl (Array.mem_of_getElem? hj)
  · let f : Group → Group := fun g => { g with candidates := cs }
    have hf : ∀ g : Group, (f g).isAt owner' key' = g.isAt owner' key' := fun _ => rfl
    rw [Array.toList_modify, find?_modify hf, findIdx?_toList, ← group?_eq]
    by_cases hg : owner = owner' ∧ key = key'
    · obtain ⟨rfl, rfl⟩ := hg
      rw [if_pos hi, if_pos ⟨rfl, rfl⟩, group?_eq, List.find?_eq_bind_findIdx?_getElem?, findIdx?_toList,
        hi, Option.bind_some, Array.getElem?_toList, Array.getElem?_eq_getElem hlt, Option.map_some]
      simp only [f, howner, hkey]
    · rw [if_neg hg, if_neg]
      intro hi'
      obtain ⟨hlt', hat', -⟩ := Array.findIdx?_eq_some_iff_getElem.mp hi'
      obtain ⟨howner', hkey'⟩ := Group.isAt_iff.mp hat'
      exact hg ⟨howner.symm.trans howner', hkey.symm.trans hkey'⟩

end Env

namespace Infer

variable {p : Program}

/-- The candidates of a group with a method among them. -/
def filed (id : MethodId) (m : Method) (key : GroupKey) (p : Program) : List (Candidate MethodId) × Table :=
  (Overload.insert Table.resolveType? ((p.env.group? m.owner key).elim [] Group.candidates)
    ⟨id, m.signature⟩).run p.types

theorem mem_filed {id : MethodId} {m : Method} {key : GroupKey} :
    (⟨id, m.signature⟩ : Candidate MethodId) ∈ (filed id m key p).1 :=
  (Overload.kept_insert p.types).1

/-- Filing a method adds no other candidate than it. -/
theorem mem_of_filed {id : MethodId} {m : Method} {key : GroupKey} {c : Candidate MethodId}
    (hc : c ∈ (filed id m key p).1) :
    c = ⟨id, m.signature⟩ ∨ ∃ g, p.env.group? m.owner key = some g ∧ c ∈ g.candidates := by
  rcases Overload.answers_insert _ p.types c hc with rfl | hc
  · exact .inl rfl
  · cases hg : p.env.group? m.owner key with
    | none =>
      rw [hg] at hc
      cases hc
    | some g =>
      rw [hg] at hc
      exact .inr ⟨g, rfl, hc⟩

/-- A method takes its place among the candidates of a group; the other groups stay as they are. -/
theorem run_fileUnder (id : MethodId) (m : Method) (key : GroupKey) (p : Program) :
    ∃ gs, (fileUnder id m key).run.run p =
        (.ok (), { p with types := (filed id m key p).2, env := { p.env with groups := gs } }) ∧
      p.env.Places ⟨key, m.owner, (filed id m key p).1⟩ gs := by
  have hfind : p.env.group? m.owner key =
      (p.env.groups.findIdx? (·.isAt m.owner key)).bind (p.env.groups[·]?) := by
    rw [Env.group?_eq, List.find?_eq_bind_findIdx?_getElem?, findIdx?_toList]
    simp only [Array.getElem?_toList]
  have hat : (fun g : Group => g.owner == m.owner && g.key == key) = (·.isAt m.owner key) := rfl
  unfold fileUnder
  rw [run_env_bind, hat]
  cases hi : p.env.groups.findIdx? (·.isAt m.owner key) with
  | none =>
    rw [hi] at hfind
    have hfiled : filed id m key p = ([⟨id, m.signature⟩], p.types) := by
      rw [filed, hfind]
      rfl
    rw [hfiled]
    exact ⟨_, rfl, Env.places_push hfind⟩
  | some i =>
    rw [hi, Option.bind_some] at hfind
    have hcs : ((p.env.groups[i]?).map Group.candidates).getD [] =
        (p.env.group? m.owner key).elim [] Group.candidates := by
      rw [hfind]
      cases p.env.groups[i]? <;> rfl
    simp only
    rw [hcs]
    exact ⟨_, rfl, Env.places_modify hi⟩

/-! ### Acts -/

/-- Filing a method under a number of arguments that it takes. -/
theorem wellFiled_fileUnder {id : MethodId} {m : Method} {key : GroupKey} {gs : Array Group}
    (hm : p.env.methods[id]? = some m) (harity : key.arity ∈ m.definition.arities)
    (hplaces : p.env.Places ⟨key, m.owner, (filed id m key p).1⟩ gs) (hfiled : p.env.WellFiled) :
    Env.WellFiled { p.env with groups := gs } := by
  intro g hg
  rcases hplaces.mem g hg with hold | rfl
  · exact hfiled g hold
  · refine ⟨List.ne_nil_of_mem mem_filed, fun c hc => ?_⟩
    rcases mem_of_filed hc with rfl | ⟨g, hg, hc⟩
    · exact ⟨m, hm, rfl, harity⟩
    · obtain ⟨hmem, -, hkey⟩ := Env.mem_of_group? hg
      exact hkey ▸ (hfiled g hmem).2 c hc

/-- Filing a method under several numbers of arguments that it takes. The other candidates stay, and the groups that change
have the new one. -/
theorem run_fileAll (id : MethodId) (m : Method) (arities : List Nat)
    (hm : p.env.methods[id]? = some m) (hforeign : m.isForeign = false)
    (harities : ∀ arity ∈ arities, arity ∈ m.definition.arities) :
    ∃ t gs, (forIn arities PUnit.unit fun arity _ => do
          fileUnder id m { name := m.definition.name, arity, yields := m.definition.yields }
          return ForInStep.yield PUnit.unit : Infer PUnit).run.run p =
        (.ok ⟨⟩, { p with types := t, env := { p.env with groups := gs } }) ∧
      Acts p { p with types := t, env := { p.env with groups := gs } } ∧
      (∀ owner key g, p.env.group? owner key = some g →
        ∃ g', gs.toList.find? (·.isAt owner key) = some g' ∧ (g' = g ∨ ∃ c ∈ g'.candidates, c.id = id)) ∧
      (p.env.WellFiled → Env.WellFiled { p.env with groups := gs }) := by
  induction arities generalizing p with
  | nil =>
    exact ⟨p.types, p.env.groups, rfl, .refl, fun owner key g hg => ⟨g, Env.group?_eq .. ▸ hg, .inl rfl⟩, fun h => h⟩
  | cons arity arities ih =>
    obtain ⟨harity, harities⟩ := List.forall_mem_cons.mp harities
    let key : GroupKey := { name := m.definition.name, arity, yields := m.definition.yields }
    obtain ⟨gs, hrun, hplaces⟩ := run_fileUnder id m key p
    let q : Program := { p with types := (filed id m key p).2, env := { p.env with groups := gs } }
    have hacts : Acts p q := by
      have htypes : Acts p { p with types := (filed id m key p).2 } :=
        .single (.change (.types (Overload.widening_insert _ _ _ p.types)) rfl)
      refine htypes.tail (.file fun h hh c hc => ?_)
      rcases hplaces.mem h hh with hold | rfl
      · exact .inl ⟨h, hold, rfl, c, hc, rfl⟩
      · rcases mem_of_filed hc with rfl | ⟨g, hg, hc⟩
        · exact .inr ⟨m, hm, hforeign, rfl⟩
        · obtain ⟨hmem, -, hkey⟩ := Env.mem_of_group? hg
          exact .inl ⟨g, hmem, congrArg GroupKey.yields hkey, c, hc, rfl⟩
    have hgroups : ∀ owner k g, p.env.group? owner k = some g → ∃ g', q.env.group? owner k = some g' ∧
        (g' = g ∨ ∃ c ∈ g'.candidates, c.id = id) := by
      intro owner k g hg
      rw [Env.group?_eq q.env, hplaces.find]
      split
      · exact ⟨_, rfl, .inr ⟨_, mem_filed, rfl⟩⟩
      · exact ⟨g, hg, .inl rfl⟩
    obtain ⟨t, gs', hrest, hacts', hgroups', hfiled'⟩ := ih (p := q) hm harities
    refine ⟨t, gs', ?_, hacts.trans hacts', fun owner k g hg => ?_, fun hfiled =>
      hfiled' (wellFiled_fileUnder hm harity hplaces hfiled)⟩
    · rw [List.forIn_cons, bind_assoc, Flow.run_bind_of_ok hrun]
      exact hrest
    · obtain ⟨g', hg', hsame⟩ := hgroups owner k g hg
      obtain ⟨g'', hg'', hsame'⟩ := hgroups' owner k g' hg'
      refine ⟨g'', hg'', ?_⟩
      rcases hsame' with rfl | hnew
      · exact hsame
      · exact .inr hnew

/-- A method that is declared gets the next number. The groups that change have it as a candidate. -/
theorem run_register {m : Method} (hm : m.isForeign = false) (hmemo : m.memo = [])
    (hext : m.external = none) (p : Program) :
    ∃ t gs, (register m).run.run p = (.ok p.env.methods.size, { p with
        types := t, env := { p.env with methods := p.env.methods.push m, groups := gs } }) ∧
      Advances p { p with
        types := t, env := { p.env with methods := p.env.methods.push m, groups := gs } } := by
  let q : Program := { p with env := { p.env with methods := p.env.methods.push m } }
  have hmade : Acts p q := .single (.declare m hmemo hext)
  have hid : q.env.methods[p.env.methods.size]? = some m := Array.getElem?_push_size
  have hkept : p.env.WellFiled → q.env.WellFiled := by
    intro h g hg
    obtain ⟨hne, hsuits⟩ := h g hg
    exact ⟨hne, fun c hc => (hsuits c hc).later hmade⟩
  obtain ⟨t, gs, hrun, hacts, hgroups, hfiled⟩ :=
    run_fileAll p.env.methods.size m m.definition.arities hid hm fun _ harity => harity
  refine ⟨t, gs, Flow.run_bind_of_ok hrun fun _ => Pure.pure p.env.methods.size,
    ⟨hmade.trans hacts, .beside rfl rfl rfl⟩, .of_eq rfl, .of_eq rfl, List.suffix_refl _, rfl,
    fun _ _ h => h, fun _ _ h => .inl h, fun owner key g hg => ?_, fun _ h => hfiled (hkept h)⟩
  obtain ⟨g', hg', hsame⟩ := hgroups owner key g hg
  refine ⟨g', (Env.group?_eq ..).trans hg', ?_⟩
  rcases hsame with rfl | ⟨c, hc, hnew⟩
  · exact .inl rfl
  · exact .inr ⟨c, hc, hnew ▸ Array.getElem?_eq_none le_rfl⟩

theorem evolving_register {m : Method} (hm : m.isForeign = false) (hmemo : m.memo = [])
    (hext : m.external = none) : Evolving (register m) := by
  intro p
  obtain ⟨t, gs, hrun, hadvances⟩ := run_register hm hmemo hext p
  rw [hrun]
  exact hadvances

theorem isForeign_kindOf (d : Definition) (owner : TypeId) :
    Method.isForeign { definition := d, kind := kindOf d, owner } = false := by
  unfold kindOf
  split <;> rfl

theorem evolving_addMethod (owner : TypeId) (d : Definition) : Evolving (addMethod owner d) :=
  (evolving_register (isForeign_kindOf d owner) rfl rfl).bind fun _ => .pure _

theorem evolving_addConstructor (owner : TypeId) (d : Definition) :
    Evolving (addConstructor owner d) :=
  (evolving_register rfl rfl rfl).bind fun _ => .pure _

end Infer

end TypeFlow
