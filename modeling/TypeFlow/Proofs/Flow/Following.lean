import TypeFlow.Proofs.Flow.Quiescence

/-!
# Nodes that follow another one

A node with the default mapping and one dependency should have the type of that dependency. What it has
is the join of that one type, and joining combines what narrowing has kept apart: of the classes below
a class those that include a module, say, become the whole hierarchy again.

`Apart` says when nothing combines: no two members of a type stand below one ancestor directly below a
root. This is exactly when a join leaves the type as it is (`WellFormed.join_parts_eq_iff`), so it is
exactly when the type survives one more edge (`runEach_following`). What a node has joined is apart, and
survives all further ones.
-/

namespace TypeFlow

namespace Table

variable {t : Table}

/-- No two members of a type combine. -/
def Apart (t : Table) (id : TypeId) : Prop :=
  ∀ a ∈ t.members id, ∀ b ∈ t.members id, t.Combines (t.part a) → t.Combines (t.part b) →
    t.topAncestor (t.part a).base = t.topAncestor (t.part b).base → a = b

namespace WellFormed

/-- What never yields a value is no part of a type beside others. -/
theorem noReturn_alone (h : WellFormed t) (id : TypeId)
    (hn : .one Builtin.noReturn ∈ t.parts id) : t.parts id ⊆ {.one Builtin.noReturn} := by
  obtain ⟨m, hm, hpart⟩ := hn
  obtain rfl := part_eq_one hpart
  by_cases hu : ∃ ms, t.get? id = some (.union ms)
  · obtain ⟨ms, hms⟩ := hu
    rw [members_of_union hms] at hm
    exact absurd hm (h.union hms).absorbed
  · have hne : id ≠ 0 := by
      rintro rfl
      exact absurd hm (by simp)
    rw [members_of_not_union hne (not_exists.mp hu), List.mem_singleton] at hm
    rw [parts_of_not_union hne (not_exists.mp hu), ← hm, hpart]

/-- Joining leaves a type as it is if and only if no two of its members combine. -/
theorem join_parts_eq_iff (h : WellFormed t) (id : TypeId) :
    t.join (t.parts id) = t.parts id ↔ t.Apart id := by
  rw [h.join_eq_self_iff (h.noReturn_alone id)]
  constructor
  · intro hsub a ha b hb hca hcb htop
    have hmem : t.part a ∈ t.family (t.parts id) (t.topAncestor (t.part b).base) :=
      ⟨⟨a, ha, rfl⟩, hca, htop⟩
    exact h.part_injective (hsub _ hmem ⟨⟨b, hb, rfl⟩, hcb, rfl⟩)
  · rintro hapart top p ⟨⟨a, ha, rfl⟩, hca, hta⟩ q ⟨⟨b, hb, rfl⟩, hcb, htb⟩
    rw [hapart a ha b hb hca hcb (hta.trans htb.symm)]

/-- Something is left of what is joined. -/
theorem join_nonempty (h : WellFormed t) {S : Set Part} (hS : S.Nonempty) : (t.join S).Nonempty := by
  rw [Set.nonempty_iff_ne_empty]
  intro hempty
  have hsub : S ⊆ {.one Builtin.noReturn} := by
    rw [← h.join_subset_noReturn_iff, hempty]
    exact Set.empty_subset _
  obtain ⟨p, hp⟩ := hS
  have hpn : p = .one Builtin.noReturn := hsub hp
  have hin : p ∈ t.join S := .inl ⟨hp, hpn ▸ h.not_combines_noReturn, fun _ => hsub⟩
  rw [hempty] at hin
  exact hin

/-- A type is made of something. -/
theorem parts_nonempty (h : WellFormed t) {id : TypeId} (hid : id ≠ 0) : (t.parts id).Nonempty := by
  have hmembers : t.members id ≠ [] := by
    by_cases hu : ∃ ms, t.get? id = some (.union ms)
    · obtain ⟨ms, hms⟩ := hu
      have hlen := (h.union hms).several
      rw [members_of_union hms]
      exact List.ne_nil_of_length_pos (by omega)
    · rw [members_of_not_union hid (not_exists.mp hu)]
      exact List.cons_ne_nil _ _
  obtain ⟨m, hm⟩ := List.exists_mem_of_ne_nil _ hmembers
  exact ⟨t.part m, m, hm, rfl⟩

end WellFormed

/-- A join of several types is none of them only if all of them are none. -/
theorem IsJoin.ne_zero (h : WellFormed t) {ids : List TypeId} {m : TypeId} (hj : IsJoin t ids m)
    {id : TypeId} (hmem : id ∈ ids) (hid : id ≠ 0) : m ≠ 0 := by
  rintro rfl
  obtain ⟨p, hp⟩ := h.parts_nonempty hid
  have hne := h.join_nonempty (S := t.partsOf ids) ⟨p, id, hmem, hp⟩
  rw [← hj.parts_eq, parts_zero] at hne
  exact Set.not_nonempty_empty hne

/-- What was joined is apart. -/
theorem IsJoin.apart (h : WellFormed t) {ids : List TypeId} {m : TypeId} (hj : IsJoin t ids m) :
    t.Apart m := by
  rw [← h.join_parts_eq_iff, hj.parts_eq, h.join_join]

/-- A join of one type is that type if and only if it is apart. -/
theorem IsJoin.eq_iff_apart (h : WellFormed t) {id m : TypeId} (hj : IsJoin t [id] m) :
    m = id ↔ t.Apart id := by
  have hparts : t.parts m = t.join (t.parts id) := by simpa using hj.parts_eq
  rw [← h.join_parts_eq_iff, ← hparts]
  exact ⟨fun heq => by rw [heq], h.parts_injective⟩

end Table

namespace Flow

open Table (IsJoin)

variable {κ : Type}

/-- In a steady world, a node with the default mapping has the join of what it depends on, if any type
is known of that. -/
theorem Steady.isJoin {w : World (Trace κ)} (hs : Steady [] w) {x : NodeId} {n : Graph.Node}
    (hn : w.graph.view x = some n) (hf : n.frozen = false) (hm : n.mapping = .merge) {d : NodeId}
    (hd : d ∈ n.deps) (htype : w.graph.typeOf d ≠ 0) :
    IsJoin w.types (n.deps.map w.graph.typeOf) n.type := by
  have hwf := hs.sane.wellFormed
  have hknown : ∀ id ∈ n.deps.map w.graph.typeOf, id < w.types.size := by
    intro id hid
    obtain ⟨c, -, rfl⟩ := List.mem_map.mp hid
    exact hs.sane.typed c
  obtain ⟨hwf', hg, hj⟩ := hwf.adds_isJoin hknown
  -- the default mapping takes the join as it is
  have hmade : made (fun _ _ => pure false) w.graph n =
      Table.merge (n.deps.map w.graph.typeOf) := by
    rw [made, ← bind_pure (Table.merge _)]
    refine congrArg (Table.merge _ >>= ·) (funext fun m => ?_)
    split
    · rename_i h0
      rw [h0]
    · rw [image, hm]
  have hself : Table.Later w.types w.types := .refl hwf hs.sane.linked
  have hfresh := (hs.fresh x n hn hf (List.ne_nil_of_mem hd)).resolve_right (by simp)
    (fun _ _ => pure false) w.types hself
  rw [hmade] at hfresh
  -- a join of something known is something known
  have hne := hj.ne_zero hwf' (List.mem_map_of_mem hd) htype
  rw [hfresh.resolve_left hne] at hj
  -- nothing about the types was added that the world does not have
  have hlt : n.type < w.types.size := by
    rw [← Graph.typeOf_of_view hn]
    exact hs.sane.typed x
  refine ⟨hknown, hlt, ?_⟩
  have hx := hg.toExtends
  rw [← hx.parts_eq hwf hlt, hj.parts_eq, hx.partsOf_eq hwf hknown,
    hx.join_eq hwf hwf' (hwf.known_partsOf hknown)]

/-- Nothing waits in a graph without nodes. -/
theorem pending_empty : Graph.Pending {} [] := by
  rintro o ⟨n, hn, -⟩
  obtain ⟨hpos, hlt⟩ := Graph.isSome_get?_iff.mp (Option.isSome_of_mem hn)
  exact absurd (Nat.lt_one_iff.mp hlt) (Nat.ne_of_gt hpos)

/-- The node `x` follows the node `d`: its type is not fixed, it has the default mapping, and `d` is all it
depends on. -/
def Follows (g : Graph) (x d : NodeId) : Prop :=
  ∃ n, g.get? x = some n ∧ n.frozen = false ∧ n.mapping = .merge ∧ n.deps = [d]

instance (g : Graph) (x d : NodeId) : Decidable (Follows g x d) :=
  match hx : g.get? x with
  | none => .isFalse fun ⟨_, hn, _⟩ => by simp [hx] at hn
  | some n => decidable_of_iff (n.frozen = false ∧ n.mapping = .merge ∧ n.deps = [d])
      (by simp [Follows, hx])

/-- **When a node has the type of the node it follows.** Whatever operations are performed, as long as
none fails: a node that follows one of a known type has the join of that type. It has the type itself if
and only if no two members of it combine. What it has survives further edges. -/
theorem runEach_following {t : Table} (hbuilt : t.Built)
    (responds : Trace κ → TypeId → String → TableM Bool) (budget : Nat) (script : NodeId → Script κ)
    (depth : Nat) (own : κ) (ops : List Operation) :
    let h := hooks responds budget script depth
    let run := runEach (·.perform h) ops ⟨t, {}, ⟨own, fun _ _ => 0⟩⟩
    (∀ r ∈ run.1, r = .ok ()) → ∀ x d, Follows run.2.graph x d → run.2.graph.typeOf d ≠ 0 →
      IsJoin run.2.types [run.2.graph.typeOf d] (run.2.graph.typeOf x) ∧
      (run.2.graph.typeOf x = run.2.graph.typeOf d ↔ run.2.types.Apart (run.2.graph.typeOf d)) ∧
      run.2.types.Apart (run.2.graph.typeOf x) := by
  rintro h run hok x d ⟨n, hn, hf, hm, hdeps⟩ htype
  have hs : Steady [] run.2 := by
    have hstart := steady_empty (κ := κ) hbuilt.wellFormed hbuilt.linked ⟨own, fun _ _ => 0⟩
    exact (runEach_steady (quietHooks responds budget script depth) ops pending_empty).2 hok hstart
  have hview := Graph.view_of_get? hn
  have hunmarked : n.unmarked.deps = [d] := hdeps
  have hj := hs.isJoin hview hf hm (hunmarked ▸ List.mem_singleton_self d) htype
  rw [hunmarked, ← Graph.typeOf_of_view hview] at hj
  exact ⟨hj, hj.eq_iff_apart hs.sane.wellFormed, hj.apart hs.sane.wellFormed⟩

/-- Figures, 14: circles, 15, and squares, 16, are filled, and lines, 17, are not. What is filled is the
module 18, and all figures together are the type 19. -/
def figures : Table :=
  let declared : TableM Unit := do
    discard (Table.defineClass "Figure" Builtin.object [])
    discard (Table.defineClass "Circle" 14 [])
    discard (Table.defineClass "Square" 14 [])
    discard (Table.defineClass "Line" 14 [])
    discard (Table.defineModule "Filled")
    Table.include 15 18
    Table.include 16 18
    discard (Table.hierarchyOf 14)
  (declared.run .initial).2

theorem built_figures : figures.Built :=
  Table.Built.initial
    |>.step (.defineClass "Figure" Builtin.object []) ⟨by decide +kernel, .inr ⟨_, rfl, rfl⟩⟩
    |>.step (.defineClass "Circle" 14 []) ⟨by decide +kernel, .inr ⟨_, rfl, rfl⟩⟩
    |>.step (.defineClass "Square" 14 []) ⟨by decide +kernel, .inr ⟨_, rfl, rfl⟩⟩
    |>.step (.defineClass "Line" 14 []) ⟨by decide +kernel, .inr ⟨_, rfl, rfl⟩⟩
    |>.step (.defineModule "Filled") rfl
    |>.step (.include 15 18) ⟨_, rfl, rfl⟩
    |>.step (.include 16 18) ⟨_, rfl, rfl⟩
    |>.step (.hierarchyOf 14) (Nat.lt_of_sub_eq_succ rfl)

/-- A node for all figures, one that keeps those that fit a type, and one that follows the latter. -/
def narrowed (target : TypeId) : List (Except Failure Unit) × World (Trace Unit) :=
  let h := hooks (fun _ _ _ => pure false) 10 (fun _ => .done) 1
  runEach (·.perform h)
    [.newNode "figure", .newNode "kept", .newNode "read", .setFilter 2 (.isA target ""),
      .setType 1 19, .bind 2 [1], .bind 3 [2]]
    ⟨figures, {}, ⟨(), fun _ _ => 0⟩⟩

theorem eq_ok_of_toBool {r : Except Failure Unit} (hr : r.toBool = true) : r = .ok () := by
  cases r with
  | ok _ => rfl
  | error _ => cases hr

/-- Of all figures the circles are kept, and the node that follows has them. -/
theorem runEach_following_circles :
    (∀ r ∈ (narrowed 15).1, r = .ok ()) ∧ Follows (narrowed 15).2.graph 3 2 ∧
    (narrowed 15).2.types.name ((narrowed 15).2.graph.typeOf 2) = "Circle+" ∧
    (narrowed 15).2.graph.typeOf 3 = (narrowed 15).2.graph.typeOf 2 := by
  have hall : ∀ r ∈ (narrowed 15).1, r.toBool = true := by decide +kernel
  have hok : ∀ r ∈ (narrowed 15).1, r = .ok () := fun r hr => eq_ok_of_toBool (hall r hr)
  have hfollows : Follows (narrowed 15).2.graph 3 2 := by decide +kernel
  have hone : (narrowed 15).2.types.members ((narrowed 15).2.graph.typeOf 2) = [20] := by
    decide +kernel
  have hapart : (narrowed 15).2.types.Apart ((narrowed 15).2.graph.typeOf 2) := by
    intro a ha b hb _ _ _
    rw [hone, List.mem_singleton] at ha hb
    rw [ha, hb]
  have hjoined := runEach_following built_figures (fun _ _ _ => pure false) 10 (fun _ => .done) 1 ()
    _ hok 3 2 hfollows (by decide +kernel)
  exact ⟨hok, hfollows, by decide +kernel, hjoined.2.1.mpr hapart⟩

/-- **A narrowed type is lost on the way.** Of all figures the filled ones are kept, circles and squares;
the node that follows has all figures again. -/
theorem runEach_following_filled :
    (∀ r ∈ (narrowed 18).1, r = .ok ()) ∧ Follows (narrowed 18).2.graph 3 2 ∧
    (narrowed 18).2.types.name ((narrowed 18).2.graph.typeOf 2) = "(Circle+ | Square+)" ∧
    (narrowed 18).2.graph.typeOf 2 = ((Table.restrict 19 18).run (narrowed 18).2.types).1 ∧
    (narrowed 18).2.types.name ((narrowed 18).2.graph.typeOf 3) = "Figure+" ∧
    (narrowed 18).2.graph.typeOf 3 ≠ (narrowed 18).2.graph.typeOf 2 := by
  have hall : ∀ r ∈ (narrowed 18).1, r.toBool = true := by decide +kernel
  refine ⟨fun r hr => eq_ok_of_toBool (hall r hr), ?_⟩
  decide +kernel

end Flow

end TypeFlow
