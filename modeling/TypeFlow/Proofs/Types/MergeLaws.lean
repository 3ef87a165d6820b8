import TypeFlow.Proofs.Types.Built

/-!
# The laws of joining types

Joining types is a join: the result depends only on what the arguments are made of, and types may be
joined in groups (`Built.merge_laws`). What does not matter about the arguments is `Rearranged`: their
order, repetitions, arguments that are no type, and whether a union is given or its members are.

Joining adds types to the table, so the results that are compared come from calls one after the other,
each on the table that the one before has left.
-/

namespace TypeFlow.Table

variable {t : Table}

/-- The same arguments up to order, repetitions, absent types and the opening of unions. -/
inductive Rearranged (t : Table) : List TypeId → List TypeId → Prop
  | perm {xs ys : List TypeId} : xs.Perm ys → Rearranged t xs ys
  | again {x : TypeId} {xs : List TypeId} : x ∈ xs → Rearranged t xs (x :: xs)
  | absent {xs : List TypeId} : Rearranged t xs (0 :: xs)
  | opened {u : TypeId} {ms xs : List TypeId} : t.get? u = some (.union ms) →
      Rearranged t (u :: xs) (ms ++ xs)
  | symm {xs ys : List TypeId} : Rearranged t xs ys → Rearranged t ys xs
  | trans {xs ys zs : List TypeId} : Rearranged t xs ys → Rearranged t ys zs → Rearranged t xs zs

namespace Rearranged

variable {xs ys : List TypeId}

/-- Rearranged types are known if the given ones are. -/
theorem known_iff (h : WellFormed t) (hr : Rearranged t xs ys) :
    (∀ x ∈ xs, x < t.size) ↔ ∀ y ∈ ys, y < t.size := by
  induction hr with
  | perm hp => exact forall_congr' fun x => by rw [hp.mem_iff]
  | again hx =>
    rw [List.forall_mem_cons]
    exact ⟨fun hall => ⟨hall _ hx, hall⟩, fun hall => hall.2⟩
  | absent =>
    rw [List.forall_mem_cons]
    exact ⟨fun hall => ⟨t.size_pos, hall⟩, fun hall => hall.2⟩
  | opened hu =>
    rw [List.forall_mem_cons, List.forall_mem_append]
    refine and_congr_left fun _ => iff_of_true (lt_size_of_get? hu) fun m hm => ?_
    obtain ⟨e, he⟩ := (h.union hu).known m hm
    exact lt_size_of_get? he
  | symm _ ih => exact ih.symm
  | trans _ _ ih ih' => exact ih.trans ih'

/-- The members of a union are made of what the union is made of. -/
theorem partsOf_members (h : WellFormed t) {u : TypeId} {ms : List TypeId}
    (hu : t.get? u = some (.union ms)) : t.partsOf ms = t.parts u := by
  have hself : ∀ m ∈ ms, t.members m = [m] := by
    intro m hm
    obtain ⟨e, he⟩ := (h.union hu).known m hm
    exact members_of_not_union (Nat.ne_of_gt (pos_of_get? he)) ((h.union hu).flat m hm)
  ext p
  rw [parts, members_of_union hu]
  constructor
  · rintro ⟨m, hm, n, hn, rfl⟩
    rw [hself m hm, List.mem_singleton] at hn
    exact ⟨m, hm, by rw [hn]⟩
  · rintro ⟨m, hm, rfl⟩
    exact ⟨m, hm, m, by simp [hself m hm], rfl⟩

/-- Rearranged types are made of the same parts. -/
theorem partsOf_eq (h : WellFormed t) (hr : Rearranged t xs ys) : t.partsOf xs = t.partsOf ys := by
  induction hr with
  | perm hp =>
    ext p
    exact exists_congr fun x => by rw [hp.mem_iff]
  | again hx =>
    rw [partsOf_cons, eq_comm, Set.union_eq_right]
    exact fun p hp => ⟨_, hx, hp⟩
  | absent => rw [partsOf_cons, parts_zero, Set.empty_union]
  | opened hu => rw [partsOf_cons, partsOf_append, partsOf_members h hu]
  | symm _ ih => exact ih.symm
  | trans _ _ ih ih' => exact ih.trans ih'

end Rearranged

/-- **Joining types is determined by what they are made of, associative and idempotent.** -/
theorem Built.merge_laws (h : Built t) {xs ys : List TypeId} (hxs : ∀ x ∈ xs, x < t.size)
    (hys : ∀ y ∈ ys, y < t.size) :
    (∀ zs, Rearranged t xs zs →
      let joined := (merge xs).run t
      ((merge zs).run joined.2).1 = joined.1) ∧
    (let joined := (merge (xs ++ ys)).run t
     let left := (merge xs).run joined.2
     let right := (merge ys).run left.2
     ((merge [left.1, right.1]).run right.2).1 = joined.1) ∧
    (let left := (merge xs).run t
     let right := (merge ys).run left.2
     let joined := (merge [left.1, right.1]).run right.2
     ((merge (xs ++ ys)).run joined.2).1 = joined.1) ∧
    (let joined := (merge xs).run t
     ((merge [joined.1]).run joined.2).1 = joined.1) := by
  have hwf := h.wellFormed
  -- each call gives the join of its arguments, in its own table and in all later ones
  have hcall : ∀ {u : Table} {ids : List TypeId}, WellFormed u → (∀ x ∈ ids, x < u.size) →
      WellFormed ((merge ids).run u).2 ∧ Extends u ((merge ids).run u).2 ∧
        IsJoin ((merge ids).run u).2 ids ((merge ids).run u).1 := by
    intro u ids hu hids
    obtain ⟨hwf', hg, hj⟩ := hu.adds_isJoin hids
    exact ⟨hwf', hg.toExtends, hj⟩
  have hxys : ∀ x ∈ xs ++ ys, x < t.size := List.forall_mem_append.mpr ⟨hxs, hys⟩
  have hlater : ∀ {u u' : Table} {ids : List TypeId}, Extends u u' → (∀ x ∈ ids, x < u.size) →
      ∀ x ∈ ids, x < u'.size := fun hx hids x hmem => hx.lt_size (hids x hmem)
  have hpair : ∀ {u : Table} {a b : TypeId}, a < u.size → b < u.size → ∀ x ∈ [a, b], x < u.size := by
    intro u a b ha hb
    simpa using ⟨ha, hb⟩
  refine ⟨fun zs hz => ?_, ?_, ?_, ?_⟩
  · obtain ⟨h₁, hx₁, hj₁⟩ := hcall hwf hxs
    obtain ⟨h₂, hx₂, hj₂⟩ := hcall h₁ (hlater hx₁ ((hz.known_iff hwf).mp hxs))
    refine IsJoin.unique h₂ hj₂ (hj₁.later h₁ h₂ hx₂) ?_
    have hx := hx₁.trans hx₂
    rw [hx.partsOf_eq hwf hxs, hx.partsOf_eq hwf ((hz.known_iff hwf).mp hxs), hz.partsOf_eq hwf]
  · obtain ⟨h₁, hx₁, hj₁⟩ := hcall hwf hxys
    obtain ⟨h₂, hx₂, hj₂⟩ := hcall h₁ (hlater hx₁ hxs)
    obtain ⟨h₃, hx₃, hj₃⟩ := hcall h₂ (hlater (hx₁.trans hx₂) hys)
    have hj₂' := hj₂.later h₂ h₃ hx₃
    obtain ⟨h₄, hx₄, hj₄⟩ := hcall h₃ (hpair hj₂'.lt_size hj₃.lt_size)
    have happ := IsJoin.append h₄ (hj₂'.later h₃ h₄ hx₄) (hj₃.later h₃ h₄ hx₄) hj₄
    exact IsJoin.unique h₄ happ (hj₁.later h₁ h₄ (hx₂.trans (hx₃.trans hx₄))) rfl
  · obtain ⟨h₁, hx₁, hj₁⟩ := hcall hwf hxs
    obtain ⟨h₂, hx₂, hj₂⟩ := hcall h₁ (hlater hx₁ hys)
    have hj₁' := hj₁.later h₁ h₂ hx₂
    obtain ⟨h₃, hx₃, hj₃⟩ := hcall h₂ (hpair hj₁'.lt_size hj₂.lt_size)
    have happ := IsJoin.append h₃ (hj₁'.later h₂ h₃ hx₃) (hj₂.later h₂ h₃ hx₃) hj₃
    obtain ⟨h₄, hx₄, hj₄⟩ := hcall h₃ (hlater (hx₁.trans (hx₂.trans hx₃)) hxys)
    exact IsJoin.unique h₄ hj₄ (happ.later h₃ h₄ hx₄) rfl
  · obtain ⟨h₁, hx₁, hj₁⟩ := hcall hwf hxs
    obtain ⟨h₂, hx₂, hj₂⟩ := hcall h₁ (hj₁.self h₁).known
    exact IsJoin.unique h₂ hj₂ ((hj₁.self h₁).later h₁ h₂ hx₂) rfl

/-- Nil and the numbers, joined in another order with repetitions, and joined with all values. -/
theorem merge_laws_numeric :
    (∀ x ∈ [Builtin.numeric, Builtin.nil], x < initial.size) ∧
    (∀ y ∈ [Builtin.value, Builtin.string], y < initial.size) ∧
    Rearranged initial [Builtin.numeric, Builtin.nil]
      [0, Builtin.nil, Builtin.nil, Builtin.numeric] ∧
    (let joined := (merge [Builtin.numeric, Builtin.nil]).run initial
     ((merge [0, Builtin.nil, Builtin.nil, Builtin.numeric]).run joined.2).1 = joined.1) ∧
    (let joined :=
      (merge ([Builtin.numeric, Builtin.nil] ++ [Builtin.value, Builtin.string])).run initial
     let left := (merge [Builtin.numeric, Builtin.nil]).run joined.2
     let right := (merge [Builtin.value, Builtin.string]).run left.2
     ((merge [left.1, right.1]).run right.2).1 = joined.1) := by
  have hxs : ∀ x ∈ [Builtin.numeric, Builtin.nil], x < initial.size := by decide
  have hys : ∀ y ∈ [Builtin.value, Builtin.string], y < initial.size := by decide
  have hz : Rearranged initial [Builtin.numeric, Builtin.nil]
      [0, Builtin.nil, Builtin.nil, Builtin.numeric] :=
    .trans (.trans (.perm (List.Perm.swap _ _ _)) (.again List.mem_cons_self)) .absent
  obtain ⟨hsame, hgroup, -, -⟩ := Built.initial.merge_laws hxs hys
  exact ⟨hxs, hys, hz, hsame _ hz, hgroup⟩

end TypeFlow.Table
