import TypeFlow.Unification
import TypeFlow.Proofs.Unification.Rewriting

/-!
# Representatives along a unification

What every unification keeps, also one in which a type is met again while it is visited, or which runs out
of steps. A type is changed only while it is visited, so the entry of a representative stays from the moment
on at which it is chosen (`Follows.frozen`), and so does its fingerprint. At that moment no earlier
representative equals it. Components of earlier representatives may be changed later, so this is not said
of the table at the end, but in a form that survives: no simulation *among the representatives chosen up to
then* relates it to an earlier one (`Sane.apart`).
-/

namespace TypeFlow.Unifier

open Table (Tidy Contained Qualified Rewrites Enlarges)

variable {t t₀ t₁ t' : Table} {u u₀ u₁ u' : Unifier} {id : TypeId} {α β : Type}

/-- The representatives. -/
def reps (u : Unifier) : List TypeId :=
  u.chosen.map Prod.snd

/-- A relation that is about certain types only, apart from relating types to themselves. -/
def Among (ids : List TypeId) (R : TypeId → TypeId → Prop) : Prop :=
  ∀ a b, R a b → a = b ∨ a ∈ ids ∧ b ∈ ids

/-- **What every unification keeps.** -/
structure Sane (t : Table) (u : Unifier) : Prop where
  tidy : Tidy t
  closed : Contained t
  qualified : Qualified t
  /-- What stands for a type is in the table. -/
  known_lt : ∀ p ∈ u.known, p.2 < t.size
  chosen_lt : ∀ p ∈ u.chosen, p.2 < t.size
  /-- A representative was seen. -/
  seen : ∀ p ∈ u.chosen, u.known? p.2 ≠ none
  /-- The fingerprints of representatives are noted. -/
  prints : ∀ p ∈ u.chosen, p.1 = t.fingerprint p.2
  /-- No representative equalled an earlier one when it was chosen. -/
  apart : ∀ l₁ p l₂, u.chosen = l₁ ++ p :: l₂ → ∀ R, t.Simulation R →
    Among ((l₁ ++ [p]).map Prod.snd) R → ∀ q ∈ l₁, q.1 = p.1 → ¬ R p.2 q.2

/-- Types were rewritten, and representatives were chosen and noted. -/
structure Grows (t : Table) (u : Unifier) (t' : Table) (u' : Unifier) : Prop where
  rewrites : Rewrites t t'
  chosen : u.chosen <+: u'.chosen
  /-- A type that was seen keeps its representative. -/
  known : ∀ {a b : TypeId}, u.known? a = some b → u'.known? a = some b

/-- What becomes of a table and a unifier between the begin and the end of a step. -/
structure Follows (t : Table) (u : Unifier) (t' : Table) (u' : Unifier) : Prop extends Grows t u t' u' where
  /-- A type that was seen, or is visited, stays what it is. -/
  frozen : ∀ {a : TypeId}, a < t.size → u.known? a ≠ none ∨ a ∈ u.visiting → t'.get? a = t.get? a
  visiting : ∀ v ∈ u.visiting, v ∈ u'.visiting
  /-- No type is dealt with while it is visited. -/
  unknown : ∀ v ∈ u.visiting, u.known? v = none → u'.known? v = none

theorem Grows.refl (t : Table) (u : Unifier) : Grows t u t u :=
  ⟨.refl t, List.prefix_refl _, id⟩

theorem Grows.trans (h : Grows t₀ u₀ t u) (h' : Grows t u t' u') : Grows t₀ u₀ t' u' :=
  ⟨h.rewrites.trans h'.rewrites, h.chosen.trans h'.chosen, fun ha => h'.known (h.known ha)⟩

/-- The table was rewritten. -/
theorem Grows.of_rewrites (h : Rewrites t t') : Grows t u t' u :=
  ⟨h, List.prefix_refl _, id⟩

theorem Grows.mem_reps (h : Grows t u t' u') (hid : id ∈ u.reps) : id ∈ u'.reps :=
  (h.chosen.map Prod.snd).subset hid

namespace Follows

theorem refl (t : Table) (u : Unifier) : Follows t u t u :=
  ⟨.refl t u, fun _ _ => rfl, fun _ h => h, fun _ _ h => h⟩

theorem trans (h : Follows t₀ u₀ t u) (h' : Follows t u t' u') : Follows t₀ u₀ t' u' where
  toGrows := h.toGrows.trans h'.toGrows
  frozen {a} ha hor := by
    refine (h'.frozen (h.rewrites.lt_size ha) ?_).trans (h.frozen ha hor)
    refine hor.imp (fun hne => ?_) (h.visiting a)
    obtain ⟨b, hb⟩ := Option.ne_none_iff_exists'.mp hne
    rw [h.known hb]
    exact nofun
  visiting v hv := h'.visiting v (h.visiting v hv)
  unknown v hv hn := h'.unknown v (h.visiting v hv) (h.unknown v hv hn)

end Follows

/-! ### Changes of the table -/

/-- A rewriting that leaves the representatives alone. -/
theorem Sane.of_rewrites (h : Sane t u) (hr : Rewrites t t')
    (hfrozen : ∀ p ∈ u.chosen, t'.get? p.2 = t.get? p.2) (ht : Tidy t') (hc : Contained t') : Sane t' u where
  tidy := ht
  closed := hc
  qualified := hr.qualified h.qualified
  known_lt p hp := hr.lt_size (h.known_lt p hp)
  chosen_lt p hp := hr.lt_size (h.chosen_lt p hp)
  seen := h.seen
  prints p hp := by
    rw [hr.fingerprint_eq h.qualified h.closed (h.chosen_lt p hp) (hfrozen p hp)]
    exact h.prints p hp
  apart l₁ p l₂ hsplit R hR hamong := by
    -- a simulation among representatives is one in the table as it was
    refine h.apart l₁ p l₂ hsplit R (fun a b hab => ?_) hamong
    have hsame : ∀ c ∈ (l₁ ++ [p]).map Prod.snd, t'.get? c = t.get? c := by
      intro c hmem
      obtain ⟨q, hq, rfl⟩ := List.mem_map.mp hmem
      refine hfrozen q ?_
      rw [hsplit]
      rcases List.mem_append.mp hq with hq | hq
      · exact List.mem_append_left _ hq
      · exact List.mem_append_right _ (List.mem_singleton.mp hq ▸ List.mem_cons_self)
    rcases hamong a b hab with rfl | ⟨ha, hb⟩
    · exact .inl rfl
    · refine (hR a b hab).imp_right ?_
      rintro ⟨x, y, hx, hy, hm⟩
      exact ⟨x, y, hsame a ha ▸ hx, hsame b hb ▸ hy, hm⟩

/-- Added types are no representatives yet. -/
theorem Sane.of_enlarges (h : Sane t u) (hl : Enlarges t t') (ht : Tidy t') (hc : Contained t') : Sane t' u :=
  h.of_rewrites hl.rewrites (fun p hp => hl.get?_eq (h.chosen_lt p hp)) ht hc

theorem Follows.of_enlarges (h : Follows t₀ u₀ t u) (hl : Enlarges t t') : Follows t₀ u₀ t' u where
  rewrites := h.rewrites.trans hl.rewrites
  chosen := h.chosen
  frozen ha hor := (hl.get?_eq (h.rewrites.lt_size ha)).trans (h.frozen ha hor)
  known := h.known
  visiting := h.visiting
  unknown := h.unknown

/-- A type that was not seen is no representative. -/
theorem Sane.ne_of_unknown (h : Sane t u) (hid : u.known? id = none) : ∀ p ∈ u.chosen, p.2 ≠ id := by
  rintro p hp rfl
  exact h.seen p hp hid

/-- A change of an object that was not seen and keeps its shape. -/
theorem Sane.modifyObject (h : Sane t u) (hid : u.known? id = none) {f : ObjectEntry → ObjectEntry}
    (hshape : ∀ o, t.get? id = some (.object o) → o.SameShape (f o))
    (hlt : ∀ o, t.get? id = some (.object o) → ∀ c ∈ (Entry.object (f o)).compared, c < t.size) :
    Sane ((Table.modifyObject id f).run t).2 u := by
  have hr := Table.rewrites_modifyObject hshape
  have hfrozen : ∀ p ∈ u.chosen, ((Table.modifyObject id f).run t).2.get? p.2 = t.get? p.2 := by
    intro p hp
    rw [Table.get?_modifyObject, if_neg (h.ne_of_unknown hid p hp)]
  exact h.of_rewrites hr hfrozen (hr.tidy h.tidy (t.size_modifyObject id f)) (h.closed.modifyObject hlt)

/-- An object may be changed if it was neither seen nor visited at the begin. -/
theorem Follows.modifyObject (h : Follows t₀ u₀ t u) (hnew : u₀.known? id = none) (hv : id ∉ u₀.visiting)
    {f : ObjectEntry → ObjectEntry} (hshape : ∀ o, t.get? id = some (.object o) → o.SameShape (f o)) :
    Follows t₀ u₀ ((Table.modifyObject id f).run t).2 u where
  rewrites := h.rewrites.trans (Table.rewrites_modifyObject hshape)
  chosen := h.chosen
  frozen {a} ha hor := by
    have hne : a ≠ id := by
      rintro rfl
      exact hor.elim (· hnew) hv
    rw [Table.get?_modifyObject, if_neg hne]
    exact h.frozen ha hor
  known := h.known
  visiting := h.visiting
  unknown := h.unknown

/-! ### Changes of the unifier -/

theorem known?_cons (u : Unifier) (a b id : TypeId) :
    { u with known := (a, b) :: u.known }.known? id = if a = id then some b else u.known? id := by
  unfold known?
  rw [List.find?_cons]
  by_cases h : a = id
  · simp [h]
  · simp [h]

/-- The state in which a type is noted to have a representative. -/
def folded (u : Unifier) (id rep : TypeId) : Unifier :=
  { u with
    known := (id, rep) :: u.known
    stats := if rep = id then u.stats else { u.stats with folded := u.stats.folded + 1 } }

/-- The state in which a type is noted to be a representative. -/
def withChosen (u : Unifier) (f : Fingerprint) (id : TypeId) : Unifier :=
  { u with
    chosen := u.chosen ++ [(f, id)]
    known := (id, id) :: u.known
    stats := { u.stats with canonical := u.stats.canonical + 1 } }

theorem known?_folded (u : Unifier) (id rep a : TypeId) :
    (u.folded id rep).known? a = if id = a then some rep else u.known? a :=
  u.known?_cons id rep a

theorem known?_withChosen (u : Unifier) (f : Fingerprint) (id a : TypeId) :
    (u.withChosen f id).known? a = if id = a then some id else u.known? a :=
  u.known?_cons id id a

theorem Sane.folded (h : Sane t u) {rep : TypeId} (hrep : rep < t.size) : Sane t (u.folded id rep) where
  tidy := h.tidy
  closed := h.closed
  qualified := h.qualified
  known_lt := List.forall_mem_cons.mpr ⟨hrep, h.known_lt⟩
  chosen_lt := h.chosen_lt
  seen p hp := by
    rw [known?_folded]
    split
    · exact nofun
    · exact h.seen p hp
  prints := h.prints
  apart := h.apart

/-- What holds of every item and those before it, if it holds of the last. -/
theorem forall_split_snoc {P : List α → α → Prop} {xs : List α} {x : α}
    (h : ∀ l₁ y l₂, xs = l₁ ++ y :: l₂ → P l₁ y) (hx : P xs x) :
    ∀ l₁ y l₂, xs ++ [x] = l₁ ++ y :: l₂ → P l₁ y := by
  intro l₁ y l₂ hsplit
  rcases List.eq_nil_or_concat l₂ with rfl | ⟨l₂, last, rfl⟩
  · obtain ⟨rfl, hy⟩ := List.append_inj' hsplit rfl
    exact (List.cons.inj hy).1 ▸ hx
  · have hsnoc : xs ++ [x] = (l₁ ++ y :: l₂) ++ [last] := by simpa using hsplit
    exact h l₁ y l₂ (List.append_inj' hsnoc rfl).1

/-- No representative equals the type, if none is found. -/
theorem not_equal_of_find? (hfind : u.find? t id = none) :
    ∀ p ∈ u.chosen, p.1 = t.fingerprint id → t.equal id p.2 = false := by
  rintro ⟨f, rep⟩ hp hprint
  have hnone := List.find?_eq_none.mp (Option.map_eq_none_iff.mp hfind) _ hp
  simp only at hprint hnone
  rw [hprint, beq_self_eq_true, Bool.true_and] at hnone
  exact Bool.eq_false_iff.mpr hnone

theorem Sane.withChosen (h : Sane t u) (hid : id < t.size) (hfind : u.find? t id = none) :
    Sane t (u.withChosen (t.fingerprint id) id) where
  tidy := h.tidy
  closed := h.closed
  qualified := h.qualified
  known_lt := List.forall_mem_cons.mpr ⟨hid, h.known_lt⟩
  chosen_lt := List.forall_mem_append.mpr ⟨h.chosen_lt, List.forall_mem_singleton.mpr hid⟩
  seen p hp := by
    rw [known?_withChosen]
    split
    · exact nofun
    · rename_i hne
      rcases List.mem_append.mp hp with hp | hp
      · exact h.seen p hp
      · exact absurd (List.mem_singleton.mp hp ▸ rfl) hne
  prints := List.forall_mem_append.mpr ⟨h.prints, List.forall_mem_singleton.mpr rfl⟩
  apart := by
    refine forall_split_snoc h.apart fun R hR _ q hq hprint hrel => ?_
    -- nothing was found for the new one
    have hequal := Table.equal_iff_similar.mpr ⟨R, hR, hrel⟩
    exact absurd hequal (by rw [not_equal_of_find? hfind q hq hprint]; exact Bool.false_ne_true)

/-- A type that is new gets a representative. -/
theorem Grows.folded (hnew : u.known? id = none) (rep : TypeId) : Grows t u t (u.folded id rep) := by
  refine ⟨.refl t, List.prefix_refl _, fun {a b} ha => ?_⟩
  rwa [known?_folded, if_neg (by rintro rfl; exact absurd (ha.symm.trans hnew) nofun)]

/-- A type that is new becomes a representative. -/
theorem Grows.withChosen (hnew : u.known? id = none) (f : Fingerprint) : Grows t u t (u.withChosen f id) := by
  refine ⟨.refl t, List.prefix_append _ _, fun {a b} ha => ?_⟩
  rwa [known?_withChosen, if_neg (by rintro rfl; exact absurd (ha.symm.trans hnew) nofun)]

theorem Follows.folded (h : Follows t₀ u₀ t u) (hnew : u₀.known? id = none) (hv : id ∉ u₀.visiting)
    (rep : TypeId) : Follows t₀ u₀ t (u.folded id rep) where
  rewrites := h.rewrites
  chosen := h.chosen
  frozen := h.frozen
  known {a b} ha := by
    rw [known?_folded, if_neg (by rintro rfl; exact absurd (ha.symm.trans hnew) nofun)]
    exact h.known ha
  visiting := h.visiting
  unknown v hmem hn := by
    rw [known?_folded, if_neg (by rintro rfl; exact hv hmem)]
    exact h.unknown v hmem hn

theorem Follows.withChosen (h : Follows t₀ u₀ t u) (hnew : u₀.known? id = none) (hv : id ∉ u₀.visiting)
    (f : Fingerprint) : Follows t₀ u₀ t (u.withChosen f id) where
  rewrites := h.rewrites
  chosen := h.chosen.trans (List.prefix_append _ _)
  frozen := h.frozen
  known {a b} ha := by
    rw [known?_withChosen, if_neg (by rintro rfl; exact absurd (ha.symm.trans hnew) nofun)]
    exact h.known ha
  visiting := h.visiting
  unknown v hmem hn := by
    rw [known?_withChosen, if_neg (by rintro rfl; exact hv hmem)]
    exact h.unknown v hmem hn

/-- All that counts are the representatives and what they stand for. -/
theorem Sane.of_eq (h : Sane t u) (hc : u'.chosen = u.chosen) (hk : u'.known = u.known) : Sane t u' := by
  obtain ⟨digest, chosen, known, visiting, stats⟩ := u
  obtain ⟨digest', chosen', known', visiting', stats'⟩ := u'
  obtain rfl : chosen' = chosen := hc
  obtain rfl : known' = known := hk
  exact ⟨h.tidy, h.closed, h.qualified, h.known_lt, h.chosen_lt, h.seen, h.prints, h.apart⟩

end TypeFlow.Unifier
