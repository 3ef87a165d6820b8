import Mathlib.Data.Finset.Prod
import Mathlib.Logic.Relation
import TypeFlow.Flow.Graph
import TypeFlow.Proofs.Types.Parts

/-!
# Values that flow along dependencies

The worklist seen without queues and numbers of types: nodes have dependencies and values, which are
sets of parts, and a node with dependencies is given the join of their values, again and again. A node
without dependencies is a *source*.

`Supported` is what holds throughout: the value of a node is the join of some sources that it reaches,
and it adds nothing to the values of its dependencies. Giving a node the join of its dependencies keeps
this (`Supported.update`). Where every node has the join of its dependencies, it has the join of *all*
sources that it reaches (`Supported.eq_join_sources`), whatever the order in which this came about and
whether or not there are cycles.

A node with dependencies is determined by the sources whose values are within its own, and these only
ever get more. So a node can change at most as often as there are sources, which bounds the work
(`Supported.covered_ssubset`).
-/

namespace TypeFlow.Flow

open Relation (ReflTransGen)

/-- The values of several nodes together. -/
def gather (val : NodeId → Set Part) (xs : List NodeId) : Set Part :=
  {p | ∃ x ∈ xs, p ∈ val x}

/-- The node `y` is `x` or is reached from it along dependencies. -/
def Reaches (deps : NodeId → List NodeId) (x y : NodeId) : Prop :=
  ReflTransGen (fun a b => b ∈ deps a) x y

theorem Reaches.mono {deps deps' : NodeId → List NodeId} {x k : NodeId}
    (hsub : ∀ y, ∀ d ∈ deps y, d ∈ deps' y) (hr : Reaches deps x k) : Reaches deps' x k :=
  ReflTransGen.mono (fun a b hb => hsub a b hb) _ _ hr

section Gather

variable {t : Table} {val val' : NodeId → Set Part} {xs ys : List NodeId} {T : Set Part}

theorem subset_gather {x : NodeId} (hx : x ∈ xs) : val x ⊆ gather val xs :=
  fun _ hp => ⟨x, hx, hp⟩

theorem gather_subset (h : ∀ x ∈ xs, x ∈ ys) : gather val xs ⊆ gather val ys :=
  fun _ ⟨x, hx, hp⟩ => ⟨x, h x hx, hp⟩

theorem gather_congr (h : ∀ x ∈ xs, val' x = val x) : gather val' xs = gather val xs := by
  ext p
  exact exists_congr fun x => and_congr_right fun hx => by rw [h x hx]

theorem within_gather (h : t.WellFormed) (hall : ∀ x ∈ xs, t.Within (val x) T) :
    t.Within (gather val xs) T := by
  induction xs with
  | nil => exact t.within_of_subset (by simp [gather])
  | cons x xs ih =>
    have hcons : gather val (x :: xs) = val x ∪ gather val xs := by
      ext p
      simp [gather]
    rw [hcons]
    exact h.within_union (hall x List.mem_cons_self) (ih fun y hy => hall y (List.mem_cons_of_mem x hy))

/-- Values that grow stay within. -/
theorem gather_within_gather (h : t.WellFormed) (hall : ∀ x ∈ xs, t.Within (val x) (val' x)) :
    t.Within (gather val xs) (gather val' xs) :=
  within_gather h fun x hx => h.within_trans (hall x hx) (t.within_of_subset (subset_gather hx))

end Gather

/-- What holds of the values throughout a propagation. -/
structure Supported (t : Table) (deps : NodeId → List NodeId) (val : NodeId → Set Part) : Prop where
  /-- A value is the join of sources that the node reaches. -/
  generated : ∀ x, deps x ≠ [] → ∃ ks, (∀ k ∈ ks, deps k = [] ∧ Reaches deps x k) ∧
    val x = t.join (gather val ks)
  /-- A value adds nothing to those of the dependencies. -/
  below : ∀ x, deps x ≠ [] → t.Within (val x) (gather val (deps x))

namespace Supported

variable {t : Table} {deps : NodeId → List NodeId} {val : NodeId → Set Part} {x : NodeId}

/-- A value is a join, so it is its own join. -/
theorem join_val (hs : Supported t deps val) (h : t.WellFormed) (hx : deps x ≠ []) :
    t.join (val x) = val x := by
  obtain ⟨ks, -, hks⟩ := hs.generated x hx
  rw [hks, h.join_join]

/-- The join of the dependencies is the join of sources. -/
theorem exists_sources (hs : Supported t deps val) (h : t.WellFormed) (x : NodeId) (ds : List NodeId)
    (hds : ∀ d ∈ ds, d ∈ deps x) :
    ∃ ks, (∀ k ∈ ks, deps k = [] ∧ Reaches deps x k) ∧
      t.join (gather val ds) = t.join (gather val ks) := by
  induction ds with
  | nil => exact ⟨[], by simp, rfl⟩
  | cons d ds ih =>
    obtain ⟨ks, hks, heq⟩ := ih fun e he => hds e (List.mem_cons_of_mem d he)
    have hd : d ∈ deps x := hds d List.mem_cons_self
    -- a dependency is a source itself, or is the join of sources
    obtain ⟨ls, hls, hval⟩ : ∃ ls, (∀ k ∈ ls, deps k = [] ∧ Reaches deps x k) ∧
        t.join (val d) = t.join (gather val ls) := by
      by_cases hleaf : deps d = []
      · refine ⟨[d], by simpa using ⟨hleaf, ReflTransGen.single hd⟩, ?_⟩
        congr 1
        ext p
        simp [gather]
      · obtain ⟨ls, hls, hval⟩ := hs.generated d hleaf
        refine ⟨ls, fun k hk => ⟨(hls k hk).1, ReflTransGen.head hd (hls k hk).2⟩, ?_⟩
        rw [hval, h.join_join]
    refine ⟨ls ++ ks, ?_, ?_⟩
    · intro k hk
      rcases List.mem_append.mp hk with hk | hk
      · exact hls k hk
      · exact hks k hk
    · have hleft : gather val (d :: ds) = val d ∪ gather val ds := by
        ext p
        simp [gather]
      have hright : gather val (ls ++ ks) = gather val ls ∪ gather val ks := by
        ext p
        simp [gather, or_and_right, exists_or]
      rw [hleft, hright, ← h.join_join_union, hval, ← h.join_union_join, heq, h.join_join_union,
        h.join_union_join]

/-- **Giving a node the join of its dependencies keeps the values supported.** -/
theorem update (hs : Supported t deps val) (h : t.WellFormed) (hx : deps x ≠ []) (hself : x ∉ deps x) :
    Supported t deps (Function.update val x (t.join (gather val (deps x)))) := by
  obtain ⟨v, hv⟩ : ∃ v, v = Function.update val x (t.join (gather val (deps x))) := ⟨_, rfl⟩
  rw [← hv]
  have hvx : v x = t.join (gather val (deps x)) := by rw [hv, Function.update_self]
  have hother : ∀ y, y ≠ x → v y = val y := fun y hy => by rw [hv, Function.update_of_ne hy]
  have hgrow : ∀ y, t.Within (val y) (v y) := by
    intro y
    by_cases hy : y = x
    · subst hy
      rw [hvx]
      exact h.within_join_right.mpr (hs.below y hx)
    · rw [hother y hy]
      exact t.within_of_subset (Set.Subset.refl _)
  have hsources : ∀ {ks : List NodeId}, (∀ k ∈ ks, deps k = []) → gather v ks = gather val ks := by
    intro ks hks
    refine gather_congr fun k hk => hother k ?_
    rintro rfl
    exact hx (hks k hk)
  refine ⟨fun y hy => ?_, fun y hy => ?_⟩
  · by_cases hyx : y = x
    · subst hyx
      obtain ⟨ks, hks, heq⟩ := hs.exists_sources h y (deps y) fun d hd => hd
      refine ⟨ks, hks, ?_⟩
      rw [hvx, heq, hsources fun k hk => (hks k hk).1]
    · obtain ⟨ks, hks, heq⟩ := hs.generated y hy
      refine ⟨ks, hks, ?_⟩
      rw [hother y hyx, heq, hsources fun k hk => (hks k hk).1]
  · by_cases hyx : y = x
    · subst hyx
      have hdeps : gather v (deps y) = gather val (deps y) :=
        gather_congr fun d hd => hother d fun heq => hself (heq ▸ hd)
      rw [hvx, hdeps]
      exact h.within_join_left.mpr (t.within_of_subset (Set.Subset.refl _))
    · rw [hother y hyx]
      exact h.within_trans (hs.below y hy) (gather_within_gather h fun d _ => hgrow d)

/-- Nodes of no value may be left out of those whose join a value is. -/
theorem exists_sources_ne (hs : Supported t deps val) {y : NodeId} (hx : deps x ≠ [])
    (hempty : deps y = [] → val y = ∅) :
    ∃ ks, (∀ k ∈ ks, deps k = [] ∧ k ≠ y ∧ Reaches deps x k) ∧ val x = t.join (gather val ks) := by
  obtain ⟨ks, hks, heq⟩ := hs.generated x hx
  refine ⟨ks.filter (· ≠ y), fun k hk => ?_, ?_⟩
  · obtain ⟨hmem, hne⟩ := List.mem_filter.mp hk
    exact ⟨(hks k hmem).1, by simpa using hne, (hks k hmem).2⟩
  · rw [heq]
    congr 1
    ext p
    constructor
    · rintro ⟨k, hk, hp⟩
      refine ⟨k, List.mem_filter.mpr ⟨hk, ?_⟩, hp⟩
      by_contra hky
      obtain rfl : k = y := by simpa using hky
      rw [hempty (hks k hk).1] at hp
      exact hp
    · rintro ⟨k, hk, hp⟩
      exact ⟨k, List.mem_of_mem_filter hk, hp⟩

/-- A source of no value may be given one. -/
theorem set_source (hs : Supported t deps val) (h : t.WellFormed) {y : NodeId} (hy : deps y = [])
    (hempty : val y = ∅) (S : Set Part) : Supported t deps (Function.update val y S) := by
  have hother : ∀ z, z ≠ y → Function.update val y S z = val z := fun z hz =>
    Function.update_of_ne hz _ _
  have hne : ∀ {z}, deps z ≠ [] → z ≠ y := fun hz heq => hz (heq ▸ hy)
  refine ⟨fun x hx => ?_, fun x hx => ?_⟩
  · obtain ⟨ks, hks, heq⟩ := hs.exists_sources_ne hx fun _ => hempty
    refine ⟨ks, fun k hk => ⟨(hks k hk).1, (hks k hk).2.2⟩, ?_⟩
    rw [hother x (hne hx), heq, gather_congr fun k hk => hother k (hks k hk).2.1]
  · rw [hother x (hne hx)]
    refine h.within_trans (hs.below x hx) (gather_within_gather h fun d _ => ?_)
    refine t.within_of_subset ?_
    by_cases hd : d = y
    · rw [hd, hempty]
      exact Set.empty_subset _
    · rw [hother d hd]

/-- A node may be given further dependencies, provided it has no value as long as it has none. -/
theorem add_deps (hs : Supported t deps val) (h : t.WellFormed) {deps' : NodeId → List NodeId}
    {y : NodeId} (hother : ∀ z, z ≠ y → deps' z = deps z) (hsub : ∀ d ∈ deps y, d ∈ deps' y)
    (hempty : deps y = [] → val y = ∅) : Supported t deps' val := by
  have hmono : ∀ z, ∀ d ∈ deps z, d ∈ deps' z := by
    intro z d hd
    by_cases hz : z = y
    · exact hz ▸ hsub d (hz ▸ hd)
    · rw [hother z hz]
      exact hd
  refine ⟨fun x hx => ?_, fun x hx => ?_⟩
  · by_cases hx' : deps x = []
    · -- only the node itself can have got its first dependencies
      obtain rfl : x = y := by
        by_contra hxy
        rw [hother x hxy] at hx
        exact hx hx'
      refine ⟨[], by simp, ?_⟩
      rw [hempty hx']
      simp [gather]
    · obtain ⟨ks, hks, heq⟩ := hs.exists_sources_ne hx' hempty
      refine ⟨ks, fun k hk => ⟨?_, (hks k hk).2.2.mono hmono⟩, heq⟩
      rw [hother k (hks k hk).2.1]
      exact (hks k hk).1
  · by_cases hx' : deps x = []
    · obtain rfl : x = y := by
        by_contra hxy
        rw [hother x hxy] at hx
        exact hx hx'
      rw [hempty hx']
      exact t.within_of_subset (Set.empty_subset _)
    · exact h.within_trans (hs.below x hx') (t.within_of_subset (gather_subset (hmono x)))

/-- Where every node has the join of its dependencies, the sources that it reaches are within it. -/
theorem within_of_reaches (h : t.WellFormed)
    (hfix : ∀ y, deps y ≠ [] → val y = t.join (gather val (deps y))) {k : NodeId}
    (hr : Reaches deps x k) (hx : deps x ≠ []) (hk : deps k = []) : t.Within (val k) (val x) := by
  induction hr using ReflTransGen.head_induction_on with
  | refl => exact absurd hk hx
  | @head a d hd hr ih =>
    rw [hfix a hx]
    refine h.within_join_right.mpr ?_
    by_cases hleaf : deps d = []
    · -- a source reaches nothing but itself
      obtain rfl : d = k := by
        rcases ReflTransGen.cases_head hr with heq | ⟨e, he, -⟩
        · exact heq
        · exact absurd he (by simp [hleaf])
      exact t.within_of_subset (subset_gather hd)
    · exact h.within_trans (ih hleaf) (t.within_of_subset (subset_gather hd))

/-- **Where every node has the join of its dependencies, it has the join of all sources that it
reaches.** -/
theorem eq_join_sources (hs : Supported t deps val) (h : t.WellFormed)
    (hfix : ∀ y, deps y ≠ [] → val y = t.join (gather val (deps y))) (hx : deps x ≠ [])
    {ks : List NodeId} (hks : ∀ k, k ∈ ks ↔ deps k = [] ∧ Reaches deps x k) :
    val x = t.join (gather val ks) := by
  rw [← hs.join_val h hx]
  refine Table.join_eq_of_within ?_ (within_gather h fun k hk => ?_)
  · obtain ⟨ls, hls, heq⟩ := hs.generated x hx
    rw [heq, h.within_join_left]
    exact t.within_of_subset (gather_subset fun k hk => (hks k).mpr (hls k hk))
  · obtain ⟨hleaf, hr⟩ := (hks k).mp hk
    exact within_of_reaches h hfix hr hx hleaf

open Classical in
/-- The nodes below `size` with the sources whose values are within theirs. -/
noncomputable def covered (t : Table) (deps : NodeId → List NodeId) (val : NodeId → Set Part)
    (size : Nat) : Finset (NodeId × NodeId) :=
  (Finset.range size ×ˢ Finset.range size).filter fun p =>
    deps p.1 ≠ [] ∧ deps p.2 = [] ∧ t.Within (val p.2) (val p.1)

theorem mem_covered {size : Nat} {p : NodeId × NodeId} :
    p ∈ covered t deps val size ↔ (p.1 < size ∧ p.2 < size) ∧
      deps p.1 ≠ [] ∧ deps p.2 = [] ∧ t.Within (val p.2) (val p.1) := by
  simp [covered]

theorem card_covered_le (t : Table) (deps : NodeId → List NodeId) (val : NodeId → Set Part)
    (size : Nat) : (covered t deps val size).card ≤ size * size := by
  classical
  calc (covered t deps val size).card
      ≤ (Finset.range size ×ˢ Finset.range size).card := Finset.card_filter_le _ _
    _ = size * size := by rw [Finset.card_product, Finset.card_range]

/-- **A change covers more sources.** -/
theorem covered_ssubset (hs : Supported t deps val) (h : t.WellFormed) {size : Nat}
    (hsize : ∀ y d, d ∈ deps y → d < size) (hlt : x < size) (hx : deps x ≠ []) (hself : x ∉ deps x)
    (hne : t.join (gather val (deps x)) ≠ val x) :
    covered t deps val size ⊂
      covered t deps (Function.update val x (t.join (gather val (deps x)))) size := by
  have hs' := hs.update h hx hself
  obtain ⟨v, hv⟩ : ∃ v, v = Function.update val x (t.join (gather val (deps x))) := ⟨_, rfl⟩
  rw [← hv] at hs' ⊢
  have hvx : v x = t.join (gather val (deps x)) := by rw [hv, Function.update_self]
  have hother : ∀ y, y ≠ x → v y = val y := fun y hy => by rw [hv, Function.update_of_ne hy]
  have hsource : ∀ k, deps k = [] → v k = val k := fun k hk => hother k fun heq => hx (heq ▸ hk)
  have hgrow : t.Within (val x) (v x) := by
    rw [hvx]
    exact h.within_join_right.mpr (hs.below x hx)
  refine Finset.ssubset_iff_subset_ne.mpr ⟨fun p hp => ?_, fun heq => ?_⟩
  · obtain ⟨hrange, hp₁, hp₂, hw⟩ := mem_covered.mp hp
    refine mem_covered.mpr ⟨hrange, hp₁, hp₂, ?_⟩
    rw [hsource p.2 hp₂]
    by_cases hpx : p.1 = x
    · rw [hpx] at hw ⊢
      exact h.within_trans hw hgrow
    · rw [hother p.1 hpx]
      exact hw
  · -- were no further source covered, the new value would be within the old one
    obtain ⟨ks, hks, hval⟩ := hs'.generated x hx
    have hback : t.Within (v x) (val x) := by
      rw [hval, h.within_join_left]
      refine within_gather h fun k hk => ?_
      have hksize : k < size := by
        rcases ReflTransGen.cases_tail (hks k hk).2 with rfl | ⟨y, -, hy⟩
        · exact hlt
        · exact hsize y k hy
      have hmem : (x, k) ∈ covered t deps v size := by
        refine mem_covered.mpr ⟨⟨hlt, hksize⟩, hx, (hks k hk).1, ?_⟩
        rw [hval]
        exact h.within_join_right.mpr (t.within_of_subset (subset_gather hk))
      rw [← heq] at hmem
      rw [hsource k (hks k hk).1]
      exact (mem_covered.mp hmem).2.2.2
    refine hne ?_
    rw [← hvx, ← hs'.join_val h hx, ← hs.join_val h hx]
    exact Table.join_eq_of_within hback hgrow

end Supported

end TypeFlow.Flow
