import TypeFlow.Proofs.Types.Repeating

/-!
# Results that do not depend on what the table holds besides

A table that has grown may have a type where another one would only add it, so a computation about types
of `t` gives different numbers on different later tables. What it gives has the same parts on all of
them, though, as long as it does nothing but look at types of `t` and join what it finds. `Gives t x S`
says that the computation `x` gives a type with the parts `S` on every later table.

`Repeats` compares two runs of which one continues on what the other has left. `Gives` also compares runs
on tables of which neither has grown to the other. Narrowing is such a computation (`gives_restrict`).
-/

namespace TypeFlow.Table

variable {t t₁ t₂ : Table}

/-! ### What a union absorbs -/

/-- Parts without what never yields a value, unless there is nothing else. -/
def absorb (S : Set Part) : Set Part :=
  {p | p ∈ S ∧ (p = .one Builtin.noReturn → S ⊆ {.one Builtin.noReturn})}

theorem absorb_eq_empty_iff {S : Set Part} : absorb S = ∅ ↔ S = ∅ := by
  refine ⟨fun hnone => ?_, fun hS => by simp [absorb, hS]⟩
  have hdropped : ∀ p ∈ S, p = .one Builtin.noReturn := by
    intro p hp
    by_contra hne
    have hkept : p ∈ absorb S := ⟨hp, fun heq => absurd heq hne⟩
    simp [hnone] at hkept
  refine Set.eq_empty_iff_forall_notMem.mpr fun p hp => ?_
  have hkept : p ∈ absorb S := ⟨hp, fun _ => hdropped⟩
  simp [hnone] at hkept

namespace WellFormed

/-- The parts of a union are those of its arguments, as far as they are not absorbed. -/
theorem adds_unionOf_absorb (h : WellFormed t) {ids : List TypeId} (hids : ∀ id ∈ ids, id < t.size) :
    Adds t (unionOf ids) fun t' m => m < t'.size ∧ t'.parts m = absorb (t.partsOf ids) := by
  refine (h.adds_unionOf hids).imp fun t' m _ hg ⟨hm, hmembers⟩ => ⟨hm, ?_⟩
  rw [absorb, ← h.partsIn_flatten]
  ext p
  rw [parts, partsIn, hmembers]
  refine exists_congr fun n => and_congr_right fun hn => ?_
  rw [hg.toExtends.part_eq ((h.flat_flatten hids).known n hn).2]

theorem parts_eq_empty_iff (h : WellFormed t) {id : TypeId} : t.parts id = ∅ ↔ id = 0 :=
  ⟨fun hnone => h.parts_injective (hnone.trans (parts_zero t).symm), fun h0 => h0 ▸ parts_zero t⟩

end WellFormed

/-- What is no type contributes nothing. -/
theorem partsOf_filter_ne_zero (t : Table) (ids : List TypeId) :
    t.partsOf (ids.filter (· ≠ 0)) = t.partsOf ids := by
  induction ids with
  | nil => rfl
  | cons id ids ih =>
    by_cases h0 : id = 0
    · rw [List.filter_cons_of_neg (by simpa using h0), ih, partsOf_cons, h0, parts_zero, Set.empty_union]
    · rw [List.filter_cons_of_pos (by simpa using h0), partsOf_cons, partsOf_cons, ih]

/-! ### Results with given parts -/

/-- On whatever `t` may have grown to, the computation gives a type with the parts `S`. -/
def Gives (t : Table) (x : TableM TypeId) (S : Set Part) : Prop :=
  ∀ t₁, Later t t₁ → Adds t₁ x fun t₂ m => m < t₂.size ∧ t₂.parts m = S

namespace Gives

variable {x y : TableM TypeId} {S : Set Part}

theorem pure (h : WellFormed t) {id : TypeId} (hid : id < t.size) : Gives t (pure id) (t.parts id) :=
  fun _ h₁ => .pure h₁.wellFormed ⟨h₁.lt_size hid, h₁.grown.toExtends.parts_eq h hid⟩

/-- Only what a computation does counts. -/
theorem of_run_eq (hy : Gives t y S) (hxy : ∀ t₁, Later t t₁ → x.run t₁ = y.run t₁) : Gives t x S :=
  fun t₁ h₁ => (hy t₁ h₁).of_run_eq (hxy t₁ h₁)

/-- What is read of the table has to be the same later. -/
theorem get_bind {f : Table → TableM TypeId} (hf : Gives t (f t) S)
    (hsame : ∀ t₁, Later t t₁ → (f t₁).run t₁ = (f t).run t₁) : Gives t (get >>= f) S :=
  hf.of_run_eq hsame

theorem exists_get_bind {f : Table → TableM TypeId} (hf : ∃ S, Gives t (f t) S)
    (hsame : ∀ t₁, Later t t₁ → (f t₁).run t₁ = (f t).run t₁) : ∃ S, Gives t (get >>= f) S :=
  hf.imp fun _ hS => hS.get_bind hsame

/-- The union of what is left of several types. -/
theorem union_mapM {γ : Type} {l : List γ} {f : γ → TableM TypeId} {S : γ → Set Part}
    (hf : ∀ c ∈ l, Gives t (f c) (S c)) :
    Gives t (do let parts ← l.mapM f; unionOf (parts.filter (· ≠ 0)))
      (absorb {p | ∃ c ∈ l, p ∈ S c}) := by
  intro t₁ h₁
  refine (Adds.mapM h₁.wellFormed (S := fun c t₂ m => m < t₂.size ∧ t₂.parts m = S c) ?_ ?_).bind ?_
  · exact fun c hc t₂ h₂ hg => hf c hc t₂ (h₁.trans ⟨h₂, h₁.linked.of_grown hg, hg⟩)
  · rintro c - t₂ t₃ m h₂ - - hg ⟨hm, hparts⟩
    exact ⟨hg.lt_size hm, (hg.toExtends.parts_eq h₂ hm).trans hparts⟩
  · rintro t₂ ms h₂ - ⟨hall, hex⟩
    have hparts : t₂.partsOf (ms.filter (· ≠ 0)) = {p | ∃ c ∈ l, p ∈ S c} := by
      rw [partsOf_filter_ne_zero]
      ext p
      constructor
      · rintro ⟨m, hm, hp⟩
        obtain ⟨c, hc, -, heq⟩ := hall m hm
        exact ⟨c, hc, heq ▸ hp⟩
      · rintro ⟨c, hc, hp⟩
        obtain ⟨m, hm, -, heq⟩ := hex c hc
        exact ⟨m, hm, heq ▸ hp⟩
    rw [← hparts]
    refine h₂.adds_unionOf_absorb fun m hm => ?_
    obtain ⟨c, -, hlt, -⟩ := hall m (List.mem_of_mem_filter hm)
    exact hlt

/-- The same where nothing is said about the parts but that there are some. -/
theorem exists_union_mapM {γ : Type} {l : List γ} {f : γ → TableM TypeId}
    (hf : ∀ c ∈ l, ∃ S, Gives t (f c) S) :
    ∃ S, Gives t (do let parts ← l.mapM f; unionOf (parts.filter (· ≠ 0))) S := by
  classical
  have hall : ∀ c, ∃ S, c ∈ l → Gives t (f c) S := by
    intro c
    by_cases hc : c ∈ l
    · obtain ⟨S, hS⟩ := hf c hc
      exact ⟨S, fun _ => hS⟩
    · exact ⟨∅, fun h => absurd h hc⟩
  choose S hS using hall
  exact ⟨_, union_mapM hS⟩

end Gives

theorem gives_hierarchyOf {base : TypeId} (hbase : base < t.size) :
    Gives t (hierarchyOf base) {.whole base} := by
  intro t₁ h₁
  refine (h₁.wellFormed.adds_hierarchyOf (h₁.lt_size hbase)).imp fun t₂ m _ _ hm => ?_
  refine ⟨lt_size_of_get? hm, ?_⟩
  rw [parts_of_not_union (Nat.ne_of_gt (pos_of_get? hm)) (by simp [hm]), part_of_hierarchy hm]

/-! ### Narrowing -/

theorem gives_restrictBelow (h : WellFormed t) (hl : Linked t) {restriction base : TypeId}
    {fuel : Nat} (hbase : base < t.size) (hr : restriction < t.size) :
    ∃ S, Gives t (restrictBelow restriction fuel base) S := by
  induction fuel generalizing base with
  | zero => exact ⟨_, .pure h t.size_pos⟩
  | succ fuel ih =>
    have hsame : ∀ t₁, Later t t₁ → t₁.implements base restriction = t.implements base restriction ∧
        t₁.object? base = t.object? base := fun t₁ h₁ =>
      ⟨h₁.grown.implements_eq h h₁.wellFormed hl hbase hr, h₁.grown.object?_eq hbase⟩
    by_cases hfit : t.implements base restriction = true
    · refine ⟨_, .get_bind (?_ : Gives t _ {.whole base}) fun t₁ h₁ => ?_⟩
      · simpa only [if_pos hfit] using gives_hierarchyOf hbase
      · simp only [hsame t₁ h₁]
    · obtain ⟨S, hS⟩ := Gives.exists_union_mapM (t := t) (f := restrictBelow restriction fuel)
        (l := ((t.object? base).map ObjectEntry.subclasses).getD []) fun c hc =>
          ih (hl.listed.subclasses_lt hc)
      refine ⟨S, .get_bind ?_ fun t₁ h₁ => ?_⟩
      · simpa only [if_neg hfit] using hS
      · simp only [hsame t₁ h₁]

theorem gives_restrictUpTo (h : WellFormed t) (hl : Linked t) {fuel : Nat}
    {id restriction : TypeId} (hid : id < t.size) (hr : restriction < t.size) :
    ∃ S, Gives t (restrictUpTo fuel id restriction) S := by
  induction fuel generalizing id restriction with
  | zero => exact ⟨_, .pure h t.size_pos⟩
  | succ fuel ih =>
    refine Gives.exists_get_bind ?_ fun t₁ h₁ => ?_
    · split
      · exact ⟨_, .pure h t.size_pos⟩
      · split
        · exact ⟨_, .pure h hid⟩
        · split
          · exact ⟨_, .pure h hid⟩
          · rename_i ms hms _
            exact Gives.exists_union_mapM fun m hm => ih (Nat.lt_trans (h.links_lt hms m hm) hid) hr
          · rename_i base hbase _
            have hlt : base < id := h.links_lt hbase base (by simp [Entry.links])
            exact gives_restrictBelow h hl (Nat.lt_trans hlt hid) hr
          · rename_i ms hms _ _
            exact Gives.exists_union_mapM fun m hm => ih hid (Nat.lt_trans (h.links_lt hms m hm) hr)
          · split
            · exact ⟨_, .pure h hid⟩
            · exact ⟨_, .pure h t.size_pos⟩
    · -- what is read of the table is the same later, and so is the search below a class
      simp only [h₁.grown.get?_eq hid, h₁.grown.get?_eq hr,
        h₁.grown.implements_eq h h₁.wellFormed hl hid hr]
      split
      · rfl
      · split
        · rfl
        · split
          · rfl
          · rfl
          · rename_i base hbase _
            have hlt : base < t.size :=
              Nat.lt_trans (h.links_lt hbase base (by simp [Entry.links])) hid
            have hsize := h₁.grown.size_le
            exact Later.restrictBelow_fuel h hl hlt (by lia) (by lia) h₁
          · rfl
          · rfl

/-- **Narrowing gives a type with the same parts, whatever has been added to the table.** -/
theorem gives_restrict (h : WellFormed t) (hl : Linked t) {id restriction : TypeId}
    (hid : id < t.size) (hr : restriction < t.size) : ∃ S, Gives t (restrict id restriction) S := by
  obtain ⟨S, hS⟩ : ∃ S, Gives t (restrictUpTo (2 * t.size + 1) id restriction) S :=
    gives_restrictUpTo h hl hid hr
  refine ⟨S, .get_bind hS fun t₁ h₁ => ?_⟩
  have hsize := h₁.grown.size_le
  exact h₁.restrictUpTo_fuel (h₁.lt_size hid) (h₁.lt_size hr) (by lia) (by lia)

end TypeFlow.Table
