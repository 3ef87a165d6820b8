import TypeFlow.Proofs.Types.Representation

/-!
# Computations that only add types

`Adds t x Q` says that the computation `x`, run on the table `t`, only adds types, keeps the
representation invariant, and ends with a result and a table that satisfy `Q`. It composes along `bind`,
and the rules of this section are all that later proofs use of the state monad.

Interning is the one way in which derived types are added: it gives the type with the wanted entry,
and on a well-formed table there is no other one. Generic instances are found by their template and
arguments instead, to the same effect (`WellFormed.adds_instantiate`).
-/

namespace TypeFlow.Table

variable {t t' : Table} {α β : Type}

/-! ### Rules -/

/-- Run on `t`, the computation only adds types, keeps the invariant, and ends in `Q`. -/
def Adds (t : Table) (x : TableM α) (Q : Table → α → Prop) : Prop :=
  WellFormed (x.run t).2 ∧ Grown t (x.run t).2 ∧ Q (x.run t).2 (x.run t).1

namespace Adds

variable {Q : Table → α → Prop} {R : Table → β → Prop}

theorem pure (h : WellFormed t) {a : α} (hq : Q t a) : Adds t (pure a) Q :=
  ⟨h, Grown.refl t, hq⟩

theorem bind {x : TableM α} {f : α → TableM β} (hx : Adds t x Q)
    (hf : ∀ t' a, WellFormed t' → Grown t t' → Q t' a → Adds t' (f a) R) : Adds t (x >>= f) R := by
  obtain ⟨hwf, hgrown, hq⟩ := hx
  obtain ⟨hwf', hgrown', hr⟩ := hf _ _ hwf hgrown hq
  exact ⟨hwf', hgrown.trans hgrown', hr⟩

theorem get_bind {f : Table → TableM β} (hf : Adds t (f t) R) : Adds t (get >>= f) R :=
  hf

theorem imp {Q' : Table → α → Prop} {x : TableM α} (hx : Adds t x Q)
    (hQ : ∀ t' a, WellFormed t' → Grown t t' → Q t' a → Q' t' a) : Adds t x Q' :=
  ⟨hx.1, hx.2.1, hQ _ _ hx.1 hx.2.1 hx.2.2⟩

/-- A list of computations, each of which can be run after the others, ends with a result for each of
them. What holds of a result has to survive the additions made for the later ones. -/
theorem mapM (h : WellFormed t) {γ : Type} {f : γ → TableM α} {S : γ → Table → α → Prop} {l : List γ}
    (hf : ∀ c ∈ l, ∀ t', WellFormed t' → Grown t t' → Adds t' (f c) (S c))
    (hkeep : ∀ c ∈ l, ∀ t' t'' a, WellFormed t' → WellFormed t'' → Grown t t' → Grown t' t'' →
      S c t' a → S c t'' a) :
    Adds t (l.mapM f) fun t' as =>
      (∀ a ∈ as, ∃ c ∈ l, S c t' a) ∧ ∀ c ∈ l, ∃ a ∈ as, S c t' a := by
  induction l generalizing t with
  | nil => exact pure h ⟨by simp, by simp⟩
  | cons c l ih =>
    rw [List.mapM_cons]
    refine bind (hf c List.mem_cons_self t h (Grown.refl t)) fun t₁ a hwf₁ hg₁ ha => ?_
    refine bind (ih hwf₁ ?_ ?_) fun t₂ as hwf₂ hg₂ ⟨hall, hex⟩ => pure hwf₂ ?_
    · exact fun d hd t' hwf' hg' => hf d (List.mem_cons_of_mem _ hd) t' hwf' (hg₁.trans hg')
    · exact fun d hd t' t'' b hwf' hwf'' hg' hg'' =>
        hkeep d (List.mem_cons_of_mem _ hd) t' t'' b hwf' hwf'' (hg₁.trans hg') hg''
    · have ha₂ := hkeep c List.mem_cons_self t₁ t₂ a hwf₁ hwf₂ hg₁ hg₂ ha
      refine ⟨fun b hb => ?_, fun d hd => ?_⟩
      · rcases List.mem_cons.mp hb with rfl | hb
        · exact ⟨c, List.mem_cons_self, ha₂⟩
        · obtain ⟨d, hd, hdb⟩ := hall b hb
          exact ⟨d, List.mem_cons_of_mem _ hd, hdb⟩
      · rcases List.mem_cons.mp hd with rfl | hd
        · exact ⟨a, List.mem_cons_self, ha₂⟩
        · obtain ⟨b, hb, hdb⟩ := hex d hd
          exact ⟨b, List.mem_cons_of_mem _ hb, hdb⟩

end Adds

/-! ### Interning -/

theorem get?_of_find? {e : Entry} {id : TypeId} (h : t.find? e = some id) :
    t.get? id = some e := by
  obtain ⟨n, hn, rfl⟩ := Option.map_eq_some_iff.mp h
  obtain ⟨hlt, heq, -⟩ := Array.findIdx?_eq_some_iff_getElem.mp hn
  rw [get?_succ, Array.getElem?_eq_getElem hlt]
  exact congrArg some (by simpa using heq)

theorem get?_ne_of_find? {e : Entry} (h : t.find? e = none) (id : TypeId) : t.get? id ≠ some e := by
  match id with
  | 0 => simp
  | n + 1 =>
    rw [find?, Option.map_eq_none_iff, Array.findIdx?_eq_none_iff] at h
    intro hget
    have := h e (Array.mem_of_getElem? hget)
    simp at this

theorem run_intern_of_some {e : Entry} {id : TypeId} (h : t.find? e = some id) :
    (intern e).run t = (id, t) := by
  simp only [intern, StateT.run_bind, StateT.run_get, pure_bind, h]
  rfl

theorem run_intern_of_none {e : Entry} (h : t.find? e = none) : (intern e).run t = (push e).run t := by
  simp only [intern, StateT.run_bind, StateT.run_get, pure_bind, h]

/-- A pushed entry is the one of the new type, and nothing else changed. -/
theorem adds_push (h : WellFormed t) {e : Entry} (ha : Admits t e)
    (ho : ∀ o, e = .object o → (t.lookup? o.name).isSome ∧ o.subclasses = [] ∧ o.includes = []) :
    Adds t (push e) fun t' id => t'.get? id = some e := by
  have he : ((push e).run t).2.entries = t.entries.push e := rfl
  refine ⟨h.of_push he id (fun o heq => (ho o heq).1) ha, ⟨?_, rfl, fun {id o} hle hid => ?_⟩, ?_⟩
  · exact fun hx => get?_of_push_old he hx
  · rcases get?_of_push_cases he hid with ⟨-, heq⟩ | hid
    · exact (ho o heq.symm).2
    · exact absurd (lt_size_of_get? hid) (Nat.not_lt.mpr hle)
  · exact (get?_of_push he t.size).trans (if_pos rfl)

namespace WellFormed

/-- **Interning gives the type with the wanted entry.** -/
theorem adds_intern (h : WellFormed t) {e : Entry} (hd : e.IsDerived) (hl : ∀ c ∈ e.links, c < t.size)
    (hu : ∀ ms, e = .union ms → IsUnion t ms) :
    Adds t (intern e) fun t' id => t'.get? id = some e := by
  refine Adds.get_bind ?_
  split
  · rename_i id hfind
    exact Adds.pure h (get?_of_find? hfind)
  · rename_i hfind
    have hobj : ∀ o, e ≠ .object o := by
      rintro o rfl
      exact hd
    refine adds_push h ⟨hl, fun _ => get?_ne_of_find? hfind, hu, ?_, ?_, ?_, ?_⟩ ?_
    all_goals exact fun o ho => absurd ho (hobj o)

theorem adds_pointerOf (h : WellFormed t) {id : TypeId} (hid : id < t.size) :
    Adds t (pointerOf id) fun t' p => t'.get? p = some (.pointer id) :=
  h.adds_intern trivial (by simpa [Entry.links] using hid) (by simp)

theorem adds_metaclassOf (h : WellFormed t) {id : TypeId} (hid : id < t.size) :
    Adds t (metaclassOf id) fun t' m => t'.get? m = some (.metaclass id) :=
  h.adds_intern trivial (by simpa [Entry.links] using hid) (by simp)

theorem adds_hierarchyOf (h : WellFormed t) {id : TypeId} (hid : id < t.size) :
    Adds t (hierarchyOf id) fun t' m => t'.get? m = some (.hierarchy id) :=
  h.adds_intern trivial (by simpa [Entry.links] using hid) (by simp)

theorem adds_typeVarOf (h : WellFormed t) (name : String) :
    Adds t (typeVarOf name) fun t' v => t'.get? v = some (.typeVar name) :=
  h.adds_intern trivial (by simp [Entry.links]) (by simp)

end WellFormed

/-! ### Generic instances -/

/-- The instance of a template for some arguments, which is a pointer for the pointers. -/
def IsInstanceFor (t : Table) (template : TypeId) (args : List TypeId) (id : TypeId) : Prop :=
  if template = Builtin.pointer then t.get? id = some (.pointer (args.headD 0))
  else ∃ o, t.get? id = some (.object o) ∧ o.generic = template ∧ o.madeFor = args

theorem get?_of_instance? {template id : TypeId} {args : List TypeId}
    (h : t.instance? template args = some id) :
    ∃ o, t.get? id = some (.object o) ∧ o.generic = template ∧ o.madeFor = args := by
  obtain ⟨n, hn, rfl⟩ := Option.map_eq_some_iff.mp h
  obtain ⟨hlt, heq, -⟩ := Array.findIdx?_eq_some_iff_getElem.mp hn
  split at heq
  · rename_i o ho
    simp only [Bool.and_eq_true, beq_iff_eq] at heq
    exact ⟨o, by rw [get?_succ, Array.getElem?_eq_getElem hlt, ho], heq.1.1, heq.2⟩
  · exact absurd heq (by simp)

theorem ne_of_instance? {template : TypeId} {args : List TypeId} (hne : template ≠ 0)
    (h : t.instance? template args = none) {id : TypeId} {o : ObjectEntry}
    (ho : t.get? id = some (.object o)) (hg : o.generic = template) : o.madeFor ≠ args := by
  match id with
  | 0 => simp at ho
  | n + 1 =>
    rw [instance?, Option.map_eq_none_iff, Array.findIdx?_eq_none_iff] at h
    have := h _ (Array.mem_of_getElem? ho)
    intro hargs
    simp [hg, hargs, hne] at this

/-- **Instantiation gives the instance**, or an error that says what is wrong and adds nothing. -/
theorem WellFormed.adds_instantiate (h : WellFormed t) {template : TypeId} {args : List TypeId}
    (hargs : ∀ a ∈ args, a < t.size) :
    Adds t (instantiate template args) fun t' r =>
      (∀ id, r = .ok id → t'.IsInstanceFor template args id ∧ id < t'.size) := by
  refine Adds.get_bind ?_
  split
  · exact Adds.pure h (by simp)
  · rename_i o ho
    obtain ⟨hobj, htemp⟩ := Option.filter_eq_some_iff.mp ho
    have hget := object?_eq_some_iff.mp hobj
    split
    · exact Adds.pure h (by simp)
    · rename_i hlen
      split
      · rename_i hptr
        have hhead : args.headD 0 < t.size := by
          cases args with
          | nil => exact t.size_pos
          | cons a as => exact hargs a List.mem_cons_self
        refine (h.adds_pointerOf hhead).bind fun t₁ p hwf hg hp => Adds.pure hwf ?_
        rintro id ⟨⟩
        exact ⟨by rw [IsInstanceFor, if_pos (by simpa using hptr)]; exact hp, lt_size_of_get? hp⟩
      · rename_i hptr
        have hfor : ∀ {t₁ : Table} {id : TypeId} {o : ObjectEntry}, t₁.get? id = some (.object o) →
            o.generic = template → o.madeFor = args →
              t₁.IsInstanceFor template args id ∧ id < t₁.size := by
          intro t₁ id o ho hgen hmade
          exact ⟨by rw [IsInstanceFor, if_neg (by simpa using hptr)]; exact ⟨o, ho, hgen, hmade⟩,
            lt_size_of_get? ho⟩
        split
        · rename_i id hinst
          obtain ⟨p, hp, hgen, hmade⟩ := get?_of_instance? hinst
          refine Adds.pure h ?_
          rintro _ ⟨⟩
          exact hfor hp hgen hmade
        · rename_i hinst
          have hpos : template ≠ 0 := Nat.ne_of_gt (pos_of_get? hget)
          refine Adds.bind (adds_push h ?_ ?_) fun t₁ id hwf hg hid => Adds.pure hwf ?_
          · refine ⟨?_, by simp [Entry.IsDerived], by simp, ?_, ?_, ?_, ?_⟩
            · intro c hc
              simp only [Entry.links, List.mem_cons] at hc
              rcases hc with rfl | rfl | hc
              · have := h.links_lt hget o.superclass (by simp [Entry.links])
                exact Nat.lt_trans this (lt_size_of_get? hget)
              · exact lt_size_of_get? hget
              · exact hargs c hc
            · rintro _ ⟨⟩
              rfl
            · rintro _ ⟨⟩ hs
              exact h.superclass (o := o) hget hs
            · rintro _ ⟨⟩ hg
              exact absurd hg hpos
            · rintro _ ⟨⟩ -
              refine ⟨⟨o, hget, htemp, rfl, rfl, by simpa using hlen⟩, fun id p hp hgen hmade => ?_⟩
              exact ne_of_instance? hpos hinst hp hgen.symm hmade.symm
          · rintro _ ⟨⟩
            exact ⟨h.known (o := o) hget, rfl, rfl⟩
          · rintro _ ⟨⟩
            exact hfor hid rfl rfl

end TypeFlow.Table
