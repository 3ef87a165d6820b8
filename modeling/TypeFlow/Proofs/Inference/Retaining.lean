import TypeFlow.Inference.Macros
import TypeFlow.Inference.Methods
import TypeFlow.Proofs.Inference.Keeping

/-!
# What is remembered

Three things are looked up by a name, and what they say stays as it is, up to a point:

* A variable that a scope sees stays where it is declared, and what a scope has of narrowed views stays until
  all views of a variable are dropped (`Env.Declares`, `Scope.Drops`).
* The expansion of a macro call is that of the first call with the same key, by the macro that was the latest
  of its name then (`Env.Expands`).
* An overload group stays as it is until a method is filed in it that was not there before. It never gets empty,
  and its candidates take as many arguments as it is for (`Env.WellFiled`).

`Program.Retains` states this of two states of a program, and `Advances p p'` says that acts lead from `p` to
`p'`, on the way of which everything stays connected and is remembered.
-/

namespace TypeFlow

/-! ### Scopes -/

/-- The view of a variable that a scope itself has, the innermost one. -/
def Scope.narrowed? (s : Scope) (name : String) : Option NodeId :=
  s.filters.findSome? (assoc? · name)

/-- Of every variable, a scope has the same views as before, or none any more. -/
def Scope.Drops (s s' : Scope) : Prop :=
  ∀ name, s'.filters.map (assoc? · name) = s.filters.map (assoc? · name) ∨
    s'.filters.map (assoc? · name) = s.filters.map fun _ => none

namespace Scope.Drops

variable {s s' s'' : Scope}

theorem refl (s : Scope) : Drops s s :=
  fun _ => .inl rfl

/-- The views of a scope stay. -/
theorem of_filters (h : s'.filters = s.filters) : Drops s s' :=
  fun _ => .inl (by rw [h])

theorem trans (h : Drops s s') (h' : Drops s' s'') : Drops s s'' := by
  intro name
  have hlength : s'.filters.map (fun _ => (none : Option NodeId)) = s.filters.map fun _ => none := by
    have hsame : s'.filters.length = s.filters.length := by
      rcases h name with h | h <;> simpa using congrArg List.length h
    rw [List.map_const', List.map_const', hsame]
  rcases h' name with h' | h'
  · rw [h']
    exact h name
  · exact .inr (h'.trans hlength)

/-- A layer of views that is put on a scope can be taken off again. -/
theorem tail {layer : List (String × NodeId)}
    (h : Drops { s with filters := layer :: s.filters } s') :
    Drops s { s' with filters := s'.filters.tail } := by
  intro name
  have htail := (h name).imp (congrArg List.tail) (congrArg List.tail)
  simpa only [List.map_tail, List.map_cons, List.tail_cons] using htail

/-- Dropping the views of one variable leaves those of the others. -/
theorem dropViews (s : Scope) (name : String) : Drops s (s.dropViews name) := by
  intro other
  have hlayer : ∀ l : List (String × NodeId),
      assoc? (l.filter fun x => x.1 != name) other = if name = other then none else assoc? l other := by
    intro l
    induction l with
    | nil => simp [assoc?]
    | cons x l ih =>
      obtain ⟨k, id⟩ := x
      rw [List.filter_cons, assoc?_cons]
      by_cases hk : k = name
      · subst hk
        simp only [bne_self_eq_false, Bool.false_eq_true, if_false, ih]
        split <;> rfl
      · simp only [bne_iff_ne, ne_eq, hk, not_false_eq_true, if_true, assoc?_cons, ih]
        split
        · rename_i hother
          rw [if_neg fun h => hk (hother.trans h.symm)]
        · rfl
  have hfilters : (s.dropViews name).filters.map (assoc? · other) =
      s.filters.map fun l => if name = other then none else assoc? l other := by
    simp only [Scope.dropViews, List.map_map]
    exact List.map_congr_left fun l _ => hlayer l
  rw [hfilters]
  by_cases hother : name = other
  · exact .inr (by simp only [hother, if_true])
  · exact .inl (by simp only [hother, if_false])

end Scope.Drops

namespace Env

variable {e e' e'' : Env}

theorem scopesUpTo_of_some {s : ScopeId} {sc : Scope} (hs : e.scopes[s]? = some sc) (fuel : Nat) :
    e.scopesUpTo (fuel + 1) s = (s, sc) :: sc.parent.elim [] (e.scopesUpTo fuel) := by
  rw [scopesUpTo, hs]
  simp only
  cases sc.parent <;> rfl

theorem scopesUpTo_of_none {s : ScopeId} (hs : e.scopes[s]? = none) (fuel : Nat) :
    e.scopesUpTo fuel s = [] := by
  cases fuel with
  | zero => rfl
  | succ fuel => rw [scopesUpTo, hs]

theorem mem_scopesUpTo {fuel : Nat} {s t : ScopeId} {sc : Scope}
    (h : (t, sc) ∈ e.scopesUpTo fuel s) : e.scopes[t]? = some sc := by
  induction fuel generalizing s with
  | zero => cases h
  | succ fuel ih =>
    cases hs : e.scopes[s]? with
    | none =>
      rw [scopesUpTo_of_none hs] at h
      cases h
    | some top =>
      rw [scopesUpTo_of_some hs] at h
      rcases List.mem_cons.mp h with heq | h
      · cases heq
        exact hs
      · cases hp : top.parent with
        | none =>
          rw [hp] at h
          cases h
        | some u =>
          rw [hp] at h
          exact ih h

/-- Scopes change, but each from which `f` is found outwards keeps its parent and what `g` says of it. If `g` is
found wherever `f` is, a search for `g` from there still finds the same. -/
theorem findSome?_scopesUpTo {α β : Type} {f : Scope → Option α} {g : Scope → Option β}
    (hfg : ∀ sc, (f sc).isSome → (g sc).isSome) {fuel fuel' : Nat} (hle : fuel ≤ fuel') {s : ScopeId}
    (hfound : ((e.scopesUpTo fuel s).findSome? fun x => f x.2).isSome)
    (hstep : ∀ k ≤ fuel, ∀ t sc, (t, sc) ∈ e.scopesUpTo fuel s → e.scopes[t]? = some sc →
      ((e.scopesUpTo k t).findSome? fun x => f x.2).isSome →
      ∃ sc', e'.scopes[t]? = some sc' ∧ sc'.parent = sc.parent ∧ g sc' = g sc) :
    ((e'.scopesUpTo fuel' s).findSome? fun x => g x.2) =
      (e.scopesUpTo fuel s).findSome? fun x => g x.2 := by
  induction fuel generalizing s fuel' with
  | zero => cases hfound
  | succ fuel ih =>
    obtain ⟨fuel', rfl⟩ : ∃ k, fuel' = k + 1 := Nat.exists_eq_succ_of_ne_zero (by omega)
    cases hs : e.scopes[s]? with
    | none =>
      rw [scopesUpTo_of_none hs] at hfound
      cases hfound
    | some sc =>
      have hchain := scopesUpTo_of_some hs fuel
      obtain ⟨sc', hs', hparent, hg⟩ := hstep (fuel + 1) le_rfl s sc (hchain ▸ List.mem_cons_self) hs hfound
      rw [hchain, List.findSome?_cons] at hfound
      rw [scopesUpTo_of_some hs', hchain, List.findSome?_cons, List.findSome?_cons, hparent]
      simp only [hg]
      cases hgs : g sc with
      | some b => rfl
      | none =>
        -- nothing here, so what is found under `f` is found further out
        have hf : f sc = none := by
          rw [Option.eq_none_iff_forall_not_mem]
          intro a ha
          have hsome := hfg sc (by rw [ha]; rfl)
          rw [hgs] at hsome
          cases hsome
        rw [hf] at hfound
        cases hp : sc.parent with
        | none =>
          rw [hp] at hfound
          cases hfound
        | some t =>
          rw [hp] at hfound
          refine ih (by omega) hfound fun k hk u sc ht => hstep k (by omega) u sc ?_
          rw [hchain, hp]
          exact List.mem_cons_of_mem _ ht

/-- Every scope stays and keeps its parent, and a variable that it sees stays declared where it is. -/
def Declares (e e' : Env) : Prop :=
  ∀ (s : ScopeId) sc, e.scopes[s]? = some sc →
    ∃ sc', e'.scopes[s]? = some sc' ∧ sc'.parent = sc.parent ∧
      ∀ name, (e.declared? s name).isSome → assoc? sc'.vars name = assoc? sc.vars name

namespace Declares

theorem size (h : Declares e e') : e.scopes.size ≤ e'.scopes.size := by
  refine Nat.le_of_not_lt fun hlt => ?_
  obtain ⟨sc', hs', -⟩ := h _ _ (Array.getElem?_eq_getElem hlt)
  exact absurd (Array.getElem?_eq_some_iff.mp hs').1 (Nat.lt_irrefl _)

theorem declared_of_found {k : Nat} (hk : k ≤ e.scopes.size) {s : ScopeId} {name : String}
    (hfound : ((e.scopesUpTo k s).findSome? fun x => assoc? x.2.vars name).isSome) :
    (e.declared? s name).isSome := by
  have hsame : e.declared? s name = (e.scopesUpTo k s).findSome? fun x => assoc? x.2.vars name :=
    findSome?_scopesUpTo (f := fun sc => assoc? sc.vars name) (g := fun sc => assoc? sc.vars name)
      (fun _ h => h) hk hfound fun _ _ t sc _ ht _ => ⟨sc, ht, rfl, rfl⟩
  rwa [hsame]

/-- A search outwards from a scope that sees a variable ends the same, if it ends where the variable is declared
at the latest and nothing changes in the scopes on the way. -/
theorem findSome? (h : Declares e e') {α : Type} {g : Scope → Option α} {s : ScopeId} {name : String}
    (hg : ∀ sc, (assoc? sc.vars name).isSome → (g sc).isSome) (hs : (e.declared? s name).isSome)
    (hstep : ∀ t sc sc', (t, sc) ∈ e.enclosing s → e'.scopes[t]? = some sc' →
      assoc? sc'.vars name = assoc? sc.vars name → g sc' = g sc) :
    ((e'.enclosing s).findSome? fun x => g x.2) = (e.enclosing s).findSome? fun x => g x.2 := by
  refine findSome?_scopesUpTo (f := fun sc => assoc? sc.vars name) hg h.size hs ?_
  intro k hk t sc hmem ht hfound
  obtain ⟨sc', ht', hparent, hvars⟩ := h t sc ht
  exact ⟨sc', ht', hparent, hstep t sc sc' hmem ht' (hvars name (declared_of_found hk hfound))⟩

/-- **A variable stays declared where it is.** -/
theorem declared? (h : Declares e e') {s : ScopeId} {name : String} (hs : (e.declared? s name).isSome) :
    e'.declared? s name = e.declared? s name :=
  h.findSome? (fun _ h => h) hs fun _ _ _ _ _ hvars => hvars

/-- **A scope looks a variable up as before** as long as no scope around it loses views of it. -/
theorem lookupVar? (h : Declares e e') {s : ScopeId} {name : String} (hs : (e.declared? s name).isSome)
    (hviews : ∀ t sc sc', (t, sc) ∈ e.enclosing s → e'.scopes[t]? = some sc' →
      sc'.narrowed? name = sc.narrowed? name) :
    e'.lookupVar? s name = e.lookupVar? s name := by
  refine h.findSome? (g := fun sc => sc.view? name) (fun sc hsome => ?_) hs fun t sc sc' ht ht' hvars => ?_
  · rw [Scope.view?, Option.isSome_or, hsome, Bool.or_true]
  · have hnarrowed := hviews t sc sc' ht ht'
    rw [Scope.narrowed?, Scope.narrowed?] at hnarrowed
    rw [Scope.view?, Scope.view?, hnarrowed, hvars]

theorem trans (h : Declares e e') (h' : Declares e' e'') : Declares e e'' := by
  intro s sc hs
  obtain ⟨sc', hs', hparent, hvars⟩ := h s sc hs
  obtain ⟨sc'', hs'', hparent', hvars'⟩ := h' s sc' hs'
  refine ⟨sc'', hs'', hparent'.trans hparent, fun name hname => ?_⟩
  exact (hvars' name (h.declared? hname ▸ hname)).trans (hvars name hname)

/-- Scopes change, but none of them its parent or its variables. -/
theorem of_scopes (h : ∀ (s : ScopeId) sc, e.scopes[s]? = some sc →
    ∃ sc', e'.scopes[s]? = some sc' ∧ sc'.parent = sc.parent ∧ sc'.vars = sc.vars) : Declares e e' := by
  intro s sc hs
  obtain ⟨sc', hs', hparent, hvars⟩ := h s sc hs
  exact ⟨sc', hs', hparent, fun _ _ => by rw [hvars]⟩

theorem of_eq (h : e'.scopes = e.scopes) : Declares e e' :=
  .of_scopes fun _ sc hs => ⟨sc, h ▸ hs, rfl, rfl⟩

theorem of_push {sc : Scope} (h : e'.scopes = e.scopes.push sc) : Declares e e' := by
  refine .of_scopes fun s old hs => ⟨old, ?_, rfl, rfl⟩
  rw [h, Array.getElem?_push, if_neg (Nat.ne_of_lt (Array.getElem?_eq_some_iff.mp hs).1), hs]

theorem of_modify {s : ScopeId} {f : Scope → Scope} (h : e'.scopes = e.scopes.modify s f)
    (hf : ∀ sc, (f sc).parent = sc.parent ∧ (f sc).vars = sc.vars) : Declares e e' := by
  refine .of_scopes fun t sc ht => ?_
  rw [h, Array.getElem?_modify, ht]
  split
  · exact ⟨f sc, rfl, hf sc⟩
  · exact ⟨sc, rfl, rfl, rfl⟩

/-- A variable that no scope around has is declared. -/
theorem of_declare {s : ScopeId} {name : String} {id : NodeId} (hnone : e.declared? s name = none)
    (h : e'.scopes = e.scopes.modify s fun sc => { sc with vars := (name, id) :: sc.vars }) :
    Declares e e' := by
  intro t sc ht
  rw [h, Array.getElem?_modify, ht]
  split
  · rename_i hst
    refine ⟨_, rfl, rfl, fun other hother => ?_⟩
    have hne : name ≠ other := by
      rintro rfl
      rw [← hst, hnone] at hother
      cases hother
    exact (assoc?_cons name id sc.vars other).trans (if_neg hne)
  · exact ⟨sc, rfl, rfl, fun _ _ => rfl⟩

end Declares

/-- Every scope has the views that it had, or of some variables none any more. -/
def Drops (e e' : Env) : Prop :=
  ∀ (s : ScopeId) sc sc', e.scopes[s]? = some sc → e'.scopes[s]? = some sc' → sc.Drops sc'

namespace Drops

theorem trans (h : Drops e e') (h' : Drops e' e'') (hd : Declares e e') : Drops e e'' := by
  intro s sc sc'' hs hs''
  obtain ⟨sc', hs', -⟩ := hd s sc hs
  exact (h s sc sc' hs hs').trans (h' s sc' sc'' hs' hs'')

theorem of_eq (h : e'.scopes = e.scopes) : Drops e e' := by
  intro s sc sc' hs hs'
  rw [h, hs] at hs'
  exact Option.some.inj hs' ▸ .refl sc

theorem of_push {sc : Scope} (h : e'.scopes = e.scopes.push sc) : Drops e e' := by
  intro s old new hs hs'
  rw [h, Array.getElem?_push, if_neg (Nat.ne_of_lt (Array.getElem?_eq_some_iff.mp hs).1), hs] at hs'
  exact Option.some.inj hs' ▸ .refl old

theorem of_modify {s : ScopeId} {f : Scope → Scope} (h : e'.scopes = e.scopes.modify s f)
    (hf : ∀ sc : Scope, sc.Drops (f sc)) : Drops e e' := by
  intro t sc sc' ht ht'
  rw [h, Array.getElem?_modify, ht] at ht'
  split at ht'
  · exact Option.some.inj ht' ▸ hf sc
  · exact Option.some.inj ht' ▸ .refl sc

/-- A layer of views is put on a scope, and the outermost layer is taken off it later. -/
theorem of_layer {e₁ e₂ : Env} {s : ScopeId} {layer : List (String × NodeId)} (h : Drops e₁ e₂)
    (hd : Declares e₁ e₂)
    (hs : e₁.scopes = e.scopes.modify s fun sc => { sc with filters := layer :: sc.filters })
    (hs' : e'.scopes = e₂.scopes.modify s fun sc => { sc with filters := sc.filters.tail }) : Drops e e' := by
  intro t sc sc' ht ht'
  obtain ⟨sc₁, ht₁, -⟩ := Declares.of_modify hs (fun _ => ⟨rfl, rfl⟩) t sc ht
  obtain ⟨sc₂, ht₂, -⟩ := hd t sc₁ ht₁
  have hviews := h t sc₁ sc₂ ht₁ ht₂
  rw [hs, Array.getElem?_modify, ht] at ht₁
  rw [hs', Array.getElem?_modify, ht₂] at ht'
  split at ht₁
  · rename_i hst
    rw [if_pos hst] at ht'
    obtain rfl := Option.some.inj ht₁
    obtain rfl := Option.some.inj ht'
    exact hviews.tail
  · rename_i hst
    rw [if_neg hst] at ht'
    obtain rfl := Option.some.inj ht₁
    obtain rfl := Option.some.inj ht'
    exact hviews

end Drops

end Env

/-- No method goes. -/
theorem Acts.method_eq_none {p p' : Program} (h : Acts p p') {id : MethodId}
    (hid : p'.env.methods[id]? = none) : p.env.methods[id]? = none := by
  refine Option.eq_none_iff_forall_not_mem.mpr fun m hm => ?_
  obtain ⟨m', hm', -⟩ := h.method hm
  rw [hid] at hm'
  cases hm'

/-! ### Expansions -/

/-- What a macro call expands to when nothing is remembered. -/
def Expansion.fresh (c : Expansion.Call) : Except Failure Expanded :=
  ((Expansion.substitute c).mapError Failure.plain).bind (Infer.normalize c.name)

/-- A macro call is one of the latest macro of its name. -/
def Env.Latest (e : Env) (c : Expansion.Call) : Prop :=
  assoc? e.macros c.name = some ⟨c.params, c.body⟩

/-- What is remembered under a key was made for a call with this key, of the macro that was the latest of its
name then. -/
def Env.Expands (e : Env) (key : String) (x : Expanded) : Prop :=
  ∃ c ms, ms <:+ e.macros ∧ assoc? ms c.name = some ⟨c.params, c.body⟩ ∧
    Infer.expansionKey c.name c.args = key ∧ (e.expander = .substitute → Expansion.fresh c = .ok x)

theorem Env.Expands.later {e e' : Env} {key : String} {x : Expanded} (h : e.Expands key x)
    (hmacros : e.macros <:+ e'.macros) (hexpander : e'.expander = e.expander) : e'.Expands key x := by
  obtain ⟨c, ms, hms, hc, hkey, hfresh⟩ := h
  exact ⟨c, ms, hms.trans hmacros, hc, hkey, hexpander ▸ hfresh⟩

/-! ### Groups -/

/-- A candidate is a method that takes as many arguments as the group with a key is for. -/
def Env.Suits (e : Env) (key : GroupKey) (c : Candidate MethodId) : Prop :=
  ∃ m, e.methods[c.id]? = some m ∧ c.signature.params = m.signature.params ∧
    key.arity ∈ m.definition.arities

/-- Every group has candidates, and all of them suit it. -/
def Env.WellFiled (e : Env) : Prop :=
  ∀ g ∈ e.groups, g.candidates ≠ [] ∧ ∀ c ∈ g.candidates, e.Suits g.key c

theorem Env.Suits.later {p p' : Program} (h : Acts p p') {key : GroupKey} {c : Candidate MethodId}
    (hc : p.env.Suits key c) : p'.env.Suits key c := by
  obtain ⟨m, hm, hparams, harity⟩ := hc
  obtain ⟨m', hm', hextends⟩ := h.method hm
  have hsame : m'.signature.params = m.signature.params := by
    rw [Method.signature, Method.signature, hextends.definition]
  exact ⟨m', hm', hparams.trans hsame.symm, hextends.definition ▸ harity⟩

/-! ### Programs -/

/-- The books that are kept of macros and overload groups. -/
def Env.books (e : Env) :
    List (String × MacroDefinition) × Expander × List (String × Expanded) × Array Group :=
  (e.macros, e.expander, e.expansions, e.groups)

/-- What is looked up by a name: scopes, macros and overload groups. -/
def Env.named (e : Env) : Array Scope × List (String × MacroDefinition) × Expander ×
    List (String × Expanded) × Array Group :=
  (e.scopes, e.books)

namespace Program

/-- Macros, their expansions and overload groups are found again. -/
structure Remembers (p p' : Program) : Prop where
  macros : p.env.macros <:+ p'.env.macros
  expander : p'.env.expander = p.env.expander
  expanded : ∀ key x, assoc? p.env.expansions key = some x → assoc? p'.env.expansions key = some x
  expands : ∀ key x, assoc? p'.env.expansions key = some x →
    assoc? p.env.expansions key = some x ∨ p'.env.Expands key x
  /-- A group stays as it is until a method is filed in it that was not there before. -/
  groups : ∀ owner key g, p.env.group? owner key = some g →
    ∃ g', p'.env.group? owner key = some g' ∧
      (g' = g ∨ ∃ c ∈ g'.candidates, p.env.methods[c.id]? = none)
  filed : Acts p p' → p.env.WellFiled → p'.env.WellFiled

namespace Remembers

variable {p p' p'' : Program}

theorem trans (h : Remembers p p') (h' : Remembers p' p'') (hacts : Acts p p') (hacts' : Acts p' p'') :
    Remembers p p'' := by
  refine ⟨h.macros.trans h'.macros, h'.expander.trans h.expander,
    fun key x hx => h'.expanded key x (h.expanded key x hx), fun key x hx => ?_, fun owner key g hg => ?_,
    fun _ hfiled => h'.filed hacts' (h.filed hacts hfiled)⟩
  · rcases h'.expands key x hx with hx | hx
    · exact (h.expands key x hx).imp_right (·.later h'.macros h'.expander)
    · exact .inr hx
  · obtain ⟨g', hg', hsame⟩ := h.groups owner key g hg
    obtain ⟨g'', hg'', hsame'⟩ := h'.groups owner key g' hg'
    refine ⟨g'', hg'', ?_⟩
    rcases hsame' with rfl | ⟨c, hc, hnew⟩
    · exact hsame
    · exact .inr ⟨c, hc, hacts.method_eq_none hnew⟩

/-- The same groups are filed as well later. -/
theorem wellFiled_of_eq (h : p'.env.groups = p.env.groups) (hacts : Acts p p') (hfiled : p.env.WellFiled) :
    p'.env.WellFiled := by
  intro g hg
  obtain ⟨hne, hall⟩ := hfiled g (h ▸ hg)
  exact ⟨hne, fun c hc => (hall c hc).later hacts⟩

theorem of_eq (h : p'.env.books = p.env.books) : Remembers p p' := by
  simp only [Env.books, Prod.mk.injEq] at h
  obtain ⟨hmacros, hexpander, hexpansions, hgroups⟩ := h
  refine ⟨hmacros ▸ List.suffix_refl _, hexpander, fun key x h => hexpansions ▸ h,
    fun key x h => .inl (hexpansions ▸ h), fun owner key g h => ⟨g, ?_, .inl rfl⟩, wellFiled_of_eq hgroups⟩
  rw [Env.group?, hgroups]
  exact h

/-- A macro is declared. -/
theorem of_declared {m : String × MacroDefinition}
    (h : p'.env.books = (m :: p.env.macros, p.env.expander, p.env.expansions, p.env.groups)) :
    Remembers p p' := by
  simp only [Env.books, Prod.mk.injEq] at h
  obtain ⟨hmacros, hexpander, hexpansions, hgroups⟩ := h
  refine ⟨hmacros ▸ List.suffix_cons _ _, hexpander, fun key x h => hexpansions ▸ h,
    fun key x h => .inl (hexpansions ▸ h), fun owner key g h => ⟨g, ?_, .inl rfl⟩, wellFiled_of_eq hgroups⟩
  rw [Env.group?, hgroups]
  exact h

/-- An expansion is remembered under a key that has none yet. -/
theorem of_expansion {key : String} {x : Expanded} (hnone : assoc? p.env.expansions key = none)
    (hx : p.env.Expands key x)
    (h : p'.env.books = (p.env.macros, p.env.expander, (key, x) :: p.env.expansions, p.env.groups)) :
    Remembers p p' := by
  simp only [Env.books, Prod.mk.injEq] at h
  obtain ⟨hmacros, hexpander, hexpansions, hgroups⟩ := h
  have hsuffix : p.env.macros <:+ p'.env.macros := hmacros ▸ List.suffix_refl _
  refine ⟨hsuffix, hexpander, fun k y hy => ?_, fun k y hy => ?_, fun owner key g h => ⟨g, ?_, .inl rfl⟩,
    wellFiled_of_eq hgroups⟩
  · rw [hexpansions, assoc?_cons, if_neg, hy]
    rintro rfl
    rw [hnone] at hy
    cases hy
  · rw [hexpansions, assoc?_cons] at hy
    split at hy
    · rename_i hk
      exact .inr (Option.some.inj hy ▸ hk ▸ hx.later hsuffix hexpander)
    · exact .inl hy
  · rw [Env.group?, hgroups]
    exact h

end Remembers

/-- What is looked up by a name is found again. -/
structure Retains (p p' : Program) : Prop where
  declares : p.env.Declares p'.env
  drops : p.env.Drops p'.env
  remembers : p.Remembers p'

namespace Retains

variable {p p' p'' : Program}

theorem trans (h : Retains p p') (h' : Retains p' p'') (hacts : Acts p p') (hacts' : Acts p' p'') :
    Retains p p'' :=
  ⟨h.declares.trans h'.declares, h.drops.trans h'.drops h.declares,
    h.remembers.trans h'.remembers hacts hacts'⟩

/-- Scopes stay as they are. -/
theorem of_remembers (h : p.Remembers p') (hs : p'.env.scopes = p.env.scopes) : Retains p p' :=
  ⟨.of_eq hs, .of_eq hs, h⟩

/-- Nothing changes that is looked up by a name. -/
theorem of_named (h : p'.env.named = p.env.named) : Retains p p' :=
  .of_remembers (.of_eq (congrArg Prod.snd h)) (congrArg Prod.fst h)

theorem refl (p : Program) : Retains p p :=
  .of_named rfl

/-- A scope is opened. -/
theorem of_push {sc : Scope} (hs : p'.env.scopes = p.env.scopes.push sc) (hb : p'.env.books = p.env.books) :
    Retains p p' :=
  ⟨.of_push hs, .of_push hs, .of_eq hb⟩

/-- A scope changes, but neither its parent nor its variables, and its views are dropped or stay. -/
theorem of_modify {s : ScopeId} {f : Scope → Scope} (hs : p'.env.scopes = p.env.scopes.modify s f)
    (hf : ∀ sc, (f sc).parent = sc.parent ∧ (f sc).vars = sc.vars ∧ sc.Drops (f sc))
    (hb : p'.env.books = p.env.books) : Retains p p' :=
  ⟨.of_modify hs fun sc => ⟨(hf sc).1, (hf sc).2.1⟩, .of_modify hs fun sc => (hf sc).2.2, .of_eq hb⟩

/-- A variable that no scope around has is declared. -/
theorem of_declare {s : ScopeId} {name : String} {id : NodeId} (hnone : p.env.declared? s name = none)
    (hs : p'.env.scopes = p.env.scopes.modify s fun sc => { sc with vars := (name, id) :: sc.vars })
    (hb : p'.env.books = p.env.books) : Retains p p' :=
  ⟨.of_declare hnone hs, .of_modify hs fun _ => .of_filters rfl, .of_eq hb⟩

end Retains

end Program

/-- Acts lead from a program to a later one, everything stays connected, and what is looked up by a name is found
again. -/
structure Advances (p p' : Program) : Prop extends Proceeds p p' where
  retains : p.Retains p'

namespace Advances

variable {p p' p'' : Program}

theorem refl : Advances p p :=
  ⟨.refl, .refl p⟩

theorem trans (h : Advances p p') (h' : Advances p' p'') : Advances p p'' :=
  ⟨h.toProceeds.trans h'.toProceeds, h.retains.trans h'.retains h.acts h'.acts⟩

theorem single (h : p.Act p') (hk : p.Keeps p') (hr : p.Retains p') : Advances p p' :=
  ⟨.single h hk, hr⟩

/-- An act that concerns neither nodes nor calls nor blocks, nor anything that is looked up by a name. -/
theorem beside (h : p.Act p') (hg : p'.graph = p.graph) (hs : p'.env.sites = p.env.sites)
    (hb : p'.env.blocks = p.env.blocks) (hr : p.Retains p') : Advances p p' :=
  ⟨.beside h hg hs hb, hr⟩

/-- A change of the graph alone. -/
theorem graph {g : Graph} (hg : p.graph.Keeps g) : Advances p { p with graph := g } :=
  ⟨.graph hg, .of_named rfl⟩

end Advances

/-! ### Layers of views -/

/-- Puts a layer of views on a scope. -/
def Program.putLayer (p : Program) (s : ScopeId) (layer : List (String × NodeId)) : Program :=
  { p with env := { p.env with
    scopes := p.env.scopes.modify s fun sc => { sc with filters := layer :: sc.filters } } }

/-- Takes the outermost layer of views off a scope. -/
def Program.takeLayer (p : Program) (s : ScopeId) : Program :=
  { p with env := { p.env with
    scopes := p.env.scopes.modify s fun sc => { sc with filters := sc.filters.tail } } }

/-- What is done between putting a layer of views on a scope and taking it off again leaves no trace of it. -/
theorem Advances.inLayer {p q : Program} {s : ScopeId} {layer : List (String × NodeId)}
    (h : Advances (p.putLayer s layer) q) : Advances p (q.takeLayer s) := by
  have hput : Proceeds p (p.putLayer s layer) := .beside (.change (.books rfl rfl) rfl) rfl rfl rfl
  have htake : Proceeds q (q.takeLayer s) := .beside (.change (.books rfl rfl) rfl) rfl rfl rfl
  have hp : p.env.Declares (p.putLayer s layer).env :=
    .of_modify (f := fun sc => { sc with filters := layer :: sc.filters }) rfl fun _ => ⟨rfl, rfl⟩
  have hq : q.env.Declares (q.takeLayer s).env :=
    .of_modify (f := fun sc => { sc with filters := sc.filters.tail }) rfl fun _ => ⟨rfl, rfl⟩
  refine ⟨(hput.trans h.toProceeds).trans htake, (hp.trans h.retains.declares).trans hq,
    .of_layer h.retains.drops h.retains.declares rfl rfl, ?_⟩
  have hfirst : p.Remembers (p.putLayer s layer) := .of_eq rfl
  have hlast : q.Remembers (q.takeLayer s) := .of_eq rfl
  exact (hfirst.trans h.retains.remembers hput.acts h.acts).trans hlast (hput.acts.trans h.acts) htake.acts

theorem Infer.run_env_bind {α : Type} (k : Env → Infer α) (p : Program) :
    (env >>= k).run.run p = (k p.env).run.run p :=
  rfl

end TypeFlow
