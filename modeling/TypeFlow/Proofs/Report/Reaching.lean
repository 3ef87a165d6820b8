import TypeFlow.Proofs.Inference.Climbing
import TypeFlow.Proofs.Report.Walking

/-!
# What is reachable is what calls lead to

In every state of a program, whatever a call leads to was placed after it (`Session.stratified`), so trees
nest at most as deep as there are occurrences (`Stage.Stratified.shallow`). Hence a walk ends, and what it
finds is what is visible from the top level through calls.

`Program.Visible` says what is looked at when calls are followed into the bodies of the instances of a set,
without any mention of a walk. The instances that a program lists as reachable are the least set that all
visible calls stay in (`Session.reachable_least`).
-/

namespace TypeFlow

open TypeFlow.Tree (Numbered)

/-! ### Placed programs are shallow -/

/-- A tree that is numbered from `k` on, or the conversion of one. -/
inductive Tree.Layered (n k : Nat) : Placed → Prop
  | placed {t : Placed} (h : t.Numbered n k) : Layered n k t
  | converted {m : Mark} {t : Placed} (low : k ≤ m.occ) (high : m.occ < n) (h : t.Numbered n k) :
    Layered n k (wrapped m t)

/-- What became of the arguments of a call and of those that were added to it. -/
theorem Note.mem_edit {n : Note} {added args : List Placed} {a : Placed} (h : a ∈ n.edit added wrapped args) :
    ∃ b ∈ args ++ added, a = b ∨ ∃ c ∈ n.conversions, a = wrapped c.2 b := by
  obtain ⟨i, hi, rfl⟩ := List.mem_mapIdx.mp h
  refine ⟨_, List.getElem_mem hi, ?_⟩
  cases hm : assoc? n.conversions i with
  | none => exact .inl rfl
  | some m =>
    obtain ⟨c, hc, rfl⟩ := Option.map_eq_some_iff.mp hm
    exact .inr ⟨c, List.mem_of_find?_eq_some hc, rfl⟩

/-- The arguments that a call was written with. -/
def Placed.writtenArgs (t : Placed) : List Placed :=
  match t.form with
  | .call _ _ args _ _ => args.getD []
  | _ => []

theorem Placed.writtenArgs_subset (t : Placed) : t.writtenArgs ⊆ t.children := by
  intro a ha
  rw [writtenArgs] at ha
  split at ha
  · rename_i args _ _ hform
    show a ∈ Tree.nodesOf t.form
    rw [hform]
    cases args with
    | none => cases ha
    | some args =>
      have ha : a ∈ args := ha
      simp [Tree.nodesOf, Form.fields, ha]
  · cases ha

/-- A child of a node with its edits is a child of the node, or comes from an argument of the call that it
is. -/
theorem Env.mem_childrenOf {e : Env} {t c : Placed} (h : c ∈ e.childrenOf t) :
    c ∈ t.children ∨ ∃ b ∈ t.writtenArgs ++ (e.note t.mark.occ).added,
      c = b ∨ ∃ m ∈ (e.note t.mark.occ).conversions, c = wrapped m.2 b := by
  change c ∈ Tree.nodesOf (e.shape t) at h
  rw [shape] at h
  split at h
  · rename_i obj name args block parens hform
    have hwritten : t.writtenArgs = args.getD [] := by rw [Placed.writtenArgs, hform]
    have hparts (as : Option (List Placed)) (b : Placed) : b ∈ Tree.nodesOf (.call obj name as block parens) ↔
        b ∈ obj ∨ b ∈ as.getD [] ∨ ∃ b' ∈ block, b = Tree.ofBlock b' := by
      cases as <;> simp [Tree.nodesOf, Form.fields, Option.mem_def]
    change c ∈ Tree.nodesOf t.form ∨ _
    rw [hform, hwritten, hparts]
    dsimp only at h
    split at h
    · -- the receiver and the block are as they were, the arguments were edited
      rcases (hparts _ c).mp h with hobj | hedit | hblock
      · exact .inl (.inl hobj)
      · exact .inr (Note.mem_edit hedit)
      · exact .inl (.inr (.inr hblock))
    · exact .inl ((hparts args c).mp h)
  · exact .inl h

namespace Stage.Stratified

variable {p : Program} {origin : Nat → Nat} (hS : Stage.Stratified ⟨p.env, origin⟩)
include hS

theorem leads (o : Nat) : Stage.Leads ⟨p.env, origin⟩ o (p.env.note o) := by
  rw [Env.note]
  cases hn : p.env.notes[o]? with
  | none => exact .empty _ _
  | some n => exact hS.notes o n hn

/-- The subcalls of a dispatch that a call resolved to come after the call. -/
theorem subcallsOf {o d : Nat} (ht : .dispatch d ∈ (p.env.note o).targets) {c : Placed} (hc : c ∈ p.subcallsOf d) :
    c.Numbered p.env.notes.size (o + 1) := by
  obtain ⟨-, horigin⟩ := (leads hS o).targets _ ht
  rw [Program.subcallsOf] at hc
  cases hd : p.env.dispatches[d]? with
  | none =>
    rw [hd] at hc
    cases hc
  | some x =>
    rw [hd] at hc
    exact horigin ▸ (hS.dispatches d x hd).subcalls c hc

end Stage.Stratified

namespace Program

variable {p : Program}

theorem mem_pendingTarget_tree {r : Target} {c : Placed} :
    .tree c ∈ p.pendingTarget r ↔ ∃ d, r = .dispatch d ∧ c ∈ p.subcallsOf d := by
  cases r <;> simp [pendingTarget]

theorem mem_pendingTarget_body {r : Target} {i : InstanceId} : .body i ∈ p.pendingTarget r ↔ r = .inst i := by
  cases r <;> simp [pendingTarget, eq_comm]

theorem pendingAfter_eq {t : Placed} (hdef : isDefinition t = false) : p.pendingAfter t =
    ((p.callNote t).expansion.map Pending.tree).toList ++ (p.callNote t).targets.flatMap p.pendingTarget ++
      (p.env.childrenOf t).map .tree :=
  if_neg (Bool.eq_false_iff.mp hdef)

theorem isDefinition_eq_false {t : Placed} {x : Pending} (h : x ∈ p.pendingAfter t) : isDefinition t = false := by
  by_contra hdef
  rw [pendingAfter, if_pos (Bool.eq_true_of_not_eq_false hdef)] at h
  cases h

/-- The trees that a node leads to. -/
theorem mem_pendingAfter_tree {t c : Placed} : .tree c ∈ p.pendingAfter t ↔ isDefinition t = false ∧
    ((p.callNote t).expansion = some c ∨ (∃ d, .dispatch d ∈ (p.callNote t).targets ∧ c ∈ p.subcallsOf d) ∨
      c ∈ p.env.childrenOf t) := by
  have hparts (hdef : isDefinition t = false) : .tree c ∈ p.pendingAfter t ↔
      ((p.callNote t).expansion = some c ∨ (∃ d, .dispatch d ∈ (p.callNote t).targets ∧ c ∈ p.subcallsOf d) ∨
        c ∈ p.env.childrenOf t) := by
    rw [pendingAfter_eq hdef, List.mem_append, List.mem_append, List.mem_flatMap]
    simp only [mem_pendingTarget_tree]
    simp [or_assoc]
  exact ⟨fun h => ⟨isDefinition_eq_false h, (hparts (isDefinition_eq_false h)).mp h⟩, fun h => (hparts h.1).mpr h.2⟩

/-- The bodies that a node leads to. -/
theorem mem_pendingAfter_body {t : Placed} {i : InstanceId} : .body i ∈ p.pendingAfter t ↔
    isDefinition t = false ∧ .inst i ∈ (p.callNote t).targets := by
  have hparts (hdef : isDefinition t = false) : .body i ∈ p.pendingAfter t ↔ .inst i ∈ (p.callNote t).targets := by
    rw [pendingAfter_eq hdef, List.mem_append, List.mem_append, List.mem_flatMap]
    simp only [mem_pendingTarget_body]
    simp
  exact ⟨fun h => ⟨isDefinition_eq_false h, (hparts (isDefinition_eq_false h)).mp h⟩, fun h => (hparts h.1).mpr h.2⟩

theorem callNote_eq (t : Placed) : p.callNote t = p.env.note t.mark.occ ∨ p.callNote t = {} := by
  rw [callNote]
  split
  · exact .inl rfl
  · exact .inr rfl

end Program

namespace Stage.Stratified

variable {p : Program} {origin : Nat → Nat} (hS : Stage.Stratified ⟨p.env, origin⟩)
include hS

/-- A node leads to its children and to what comes after it, if the arguments of a call come after it. -/
theorem pendingAfter {t c : Placed} (h : .tree c ∈ p.pendingAfter t)
    (hargs : ∀ a ∈ t.writtenArgs, a.Numbered p.env.notes.size (t.mark.occ + 1)) :
    c ∈ t.children ∨ c.Layered p.env.notes.size (t.mark.occ + 1) := by
  have hnote := leads hS t.mark.occ
  obtain ⟨-, hexpansion | ⟨d, hd, hc⟩ | hchild⟩ := Program.mem_pendingAfter_tree.mp h
  · rcases p.callNote_eq t with heq | heq <;> rw [heq] at hexpansion
    · exact .inr (.placed (hnote.expansion c hexpansion))
    · cases hexpansion
  · rcases p.callNote_eq t with heq | heq <;> rw [heq] at hd
    · exact .inr (.placed (subcallsOf hS hd hc))
    · cases hd
  · rcases Env.mem_childrenOf hchild with hc | ⟨b, hb, hedit⟩
    · exact .inl hc
    have hlater : b.Numbered p.env.notes.size (t.mark.occ + 1) :=
      (List.mem_append.mp hb).elim (hargs b) (hnote.added b)
    rcases hedit with rfl | ⟨m, hm, rfl⟩
    · exact .inr (.placed hlater)
    · exact .inr (.converted (hnote.conversions m hm).1 (hnote.conversions m hm).2 hlater)

/-- A tree that is numbered from `k` on nests at most twice as deep as there are later occurrences, and one
level deeper where it is converted. -/
theorem nests (d k : Nat) (hd : p.env.notes.size ≤ k + d) :
    (∀ t, t.Numbered p.env.notes.size k → p.Nests (2 * d) t) ∧
      ∀ t, t.Layered p.env.notes.size k → p.Nests (2 * d + 1) t := by
  induction d generalizing k with
  | zero =>
    refine ⟨fun t ht => ?_, fun t ht => ?_⟩
    · exact absurd (Nat.lt_of_le_of_lt ht.low ht.high) (Nat.not_lt.mpr hd)
    · cases ht with
      | placed h => exact absurd (Nat.lt_of_le_of_lt h.low h.high) (Nat.not_lt.mpr hd)
      | converted low high _ => exact absurd (Nat.lt_of_le_of_lt low high) (Nat.not_lt.mpr hd)
  | succ d ih =>
    have hlater (o : Nat) (ho : k ≤ o) : ∀ t, t.Layered p.env.notes.size (o + 1) → p.Nests (2 * d + 1) t :=
      (ih (o + 1) (by omega)).2
    have hplaced (t : Placed) (ht : t.Numbered p.env.notes.size k) : p.Nests (2 * (d + 1)) t := by
      intro c hc
      refine hlater t.mark.occ ht.low c ?_
      exact (pendingAfter hS hc fun a ha => ht.inner (t.writtenArgs_subset ha)).elim (.placed ∘ ht.inner) id
    refine ⟨hplaced, fun t ht => ?_⟩
    cases ht with
    | placed h => exact (hplaced t h).mono (Nat.le_succ _)
    | @converted m a low high h =>
      -- the argument may come before the conversion, but not before `k`
      intro c hc
      rcases pendingAfter hS hc (fun a ha => absurd ha List.not_mem_nil) with hchild | hc
      · obtain rfl : c = a := by simpa [Tree.children, Tree.form, wrapped, Form.fields] using hchild
        exact hplaced c h
      · exact (hlater m.occ low c hc).mono (by omega)

theorem shallow : p.Shallow where
  roots t ht := (nests hS p.env.notes.size 0 (Nat.le_add_left _ _)).1 t (hS.roots t ht)
  bodies i b hb := by
    obtain ⟨a, ha, hbody⟩ := Option.bind_eq_some_iff.mp hb
    exact (nests hS p.env.notes.size 0 (Nat.le_add_left _ _)).1 b (hS.bodies a (Array.mem_of_getElem? ha) b hbody)

/-- A call resolves to instances that there are. -/
theorem lt_size_of_target {t : Placed} {i : InstanceId} (h : .inst i ∈ (p.callNote t).targets) :
    i < p.env.instances.size := by
  rcases p.callNote_eq t with heq | heq <;> rw [heq] at h
  · exact (leads hS t.mark.occ).targets _ h
  · cases h

end Stage.Stratified

/-! ### What is visible -/

namespace Program

variable {p : Program}

/-- What is looked at when calls are followed into the bodies of some instances. What stands inside the
definition of a method or a macro is not. -/
inductive Visible (p : Program) (R : Set InstanceId) : Placed → Prop
  | root {t : Placed} (h : t ∈ p.env.roots) : Visible p R t
  | body {i : InstanceId} {b : Placed} (hi : i ∈ R) (hb : p.bodyOf? i = some b) : Visible p R b
  | child {t c : Placed} (ht : Visible p R t) (hdef : isDefinition t = false) (hc : c ∈ p.env.childrenOf t) :
    Visible p R c
  | expansion {t c : Placed} (ht : Visible p R t) (hc : (p.callNote t).expansion = some c) : Visible p R c
  | subcall {t c : Placed} {d : Nat} (ht : Visible p R t) (hd : .dispatch d ∈ (p.callNote t).targets)
    (hc : c ∈ p.subcallsOf d) : Visible p R c

/-- Calls that are visible through the instances of a set resolve to instances in the set. -/
def Holds (p : Program) (R : Set InstanceId) : Prop :=
  ∀ t, p.Visible R t → ∀ i, .inst i ∈ (p.callNote t).targets → i ∈ R

/-- A definition is no call. -/
theorem isDefinition_eq_false_of_call {t : Placed} (h : p.callNote t ≠ {}) : isDefinition t = false := by
  rw [callNote] at h
  split at h
  · rename_i hform
    rw [isDefinition, hform]
  · exact absurd rfl h

theorem mem_reached {i : InstanceId} : i ∈ p.reached ↔
    ∃ t ∈ p.walk fun _ => true, .inst i ∈ (p.callNote t).targets := by
  simp only [reached, List.mem_eraseDups, List.mem_flatMap, targetInstances, List.mem_filterMap]
  refine exists_congr fun t => and_congr_right fun _ => ⟨?_, fun h => ⟨_, h, rfl⟩⟩
  rintro ⟨r, hr, hi⟩
  cases r with
  | inst j => exact Option.some.inj hi ▸ hr
  | dispatch d => cases hi

theorem mem_listed {l : Listed} :
    l ∈ p.listed ↔ p.env.instances[l.id]? = some l.inst ∧ l.mangled = p.mangled l.inst := by
  obtain ⟨id, inst, mangled⟩ := l
  simp only [listed, List.mem_mergeSort, List.mem_map, Prod.exists, List.mem_zipIdx_iff_getElem?,
    Array.getElem?_toList, Listed.mk.injEq]
  constructor
  · rintro ⟨a, i, ha, rfl, rfl, rfl⟩
    exact ⟨ha, rfl⟩
  · rintro ⟨ha, rfl⟩
    exact ⟨inst, id, ha, rfl, rfl, rfl⟩

/-- Instances are listed once each. -/
theorem nodup_listed (p : Program) : (p.listed.map Listed.id).Nodup := by
  rw [listed]
  refine ((List.mergeSort_perm _ _).map Listed.id).nodup_iff.mpr ?_
  rw [List.map_map]
  change ((p.env.instances.toList.zipIdx).map Prod.snd).Nodup
  rw [List.zipIdx_map_snd]
  exact List.nodup_range' ..

/-- They are listed by their names. -/
theorem sorted_listed (p : Program) : p.listed.Pairwise fun a b => a.mangled ≤ b.mangled := by
  refine (List.pairwise_mergeSort (fun a b c hab hbc => ?_) (fun a b => ?_) _).imp fun h => of_decide_eq_true h
  · exact decide_eq_true (String.le_trans (of_decide_eq_true hab) (of_decide_eq_true hbc))
  · simpa [Table.textLe] using String.le_total a.mangled b.mangled

/-- A walk that enters every node finds all that is visible through the instances that it finds. -/
theorem Walks.finds {w : Walked} (h : p.Walks (fun _ => true) {} (p.env.roots.map .tree) w) {t : Placed}
    (ht : p.Visible {i | ∃ t ∈ w.nodes, .inst i ∈ (p.callNote t).targets} t) : t ∈ w.nodes := by
  obtain ⟨hcloses, hroots⟩ := h.covers
  have hafter {t : Placed} (ht : t ∈ w.nodes) : ∀ x ∈ p.pendingAfter t, w.Covers p x :=
    hcloses.nodes t ht List.not_mem_nil
  induction ht with
  | root h => exact hroots _ (List.mem_map_of_mem h)
  | @body i b hi hb =>
    obtain ⟨t, ht, hcall⟩ := hi
    have hdef : isDefinition t = false := isDefinition_eq_false_of_call (p := p) fun h => by simp [h] at hcall
    have hwalked : i ∈ w.bodies := hafter ht _ (mem_pendingAfter_body.mpr ⟨hdef, hcall⟩) b hb
    exact hcloses.bodies i hwalked List.not_mem_nil b hb
  | child _ hdef hc ih => exact hafter ih _ (mem_pendingAfter_tree.mpr ⟨hdef, .inr (.inr hc)⟩)
  | @expansion t c _ hc ih =>
    have hdef : isDefinition t = false := isDefinition_eq_false_of_call (p := p) fun h => by simp [h] at hc
    exact hafter ih _ (mem_pendingAfter_tree.mpr ⟨hdef, .inl hc⟩)
  | @subcall t c d _ hd hc ih =>
    have hdef : isDefinition t = false := isDefinition_eq_false_of_call (p := p) fun h => by simp [h] at hd
    exact hafter ih _ (mem_pendingAfter_tree.mpr ⟨hdef, .inr (.inl ⟨_, hd, hc⟩)⟩)

/-- What a walk still has to do as far as it is visible through some instances. -/
def Pending.IsVisible (p : Program) (R : Set InstanceId) : Pending → Prop
  | .tree t => p.Visible R t
  | .body i => i ∈ R

/-- A walk finds only what is visible through any instances that the visible calls stay in. -/
theorem Walks.visible {w : Walked} (h : p.Walks (fun _ => true) {} (p.env.roots.map .tree) w)
    {R : Set InstanceId} (hR : p.Holds R) : ∀ t ∈ w.nodes, p.Visible R t := by
  have hnone : ∀ t ∈ ({} : Walked).nodes, p.Visible R t := fun t ht => absurd ht List.not_mem_nil
  refine h.within (P := Pending.IsVisible p R) (fun t ht x hx => ?_) (fun i b hi hb => .body hi hb) hnone fun x hx => ?_
  · cases x with
    | body i => exact hR t ht i (mem_pendingAfter_body.mp hx).2
    | tree c =>
      obtain ⟨hdef, hexpansion | ⟨d, hd, hc⟩ | hc⟩ := mem_pendingAfter_tree.mp hx
      · exact .expansion ht hexpansion
      · exact .subcall ht hd hc
      · exact .child ht hdef hc
  · obtain ⟨t, ht, rfl⟩ := List.mem_map.mp hx
    exact .root ht

end Program

/-- **A walk through a program ends, and finds what is reachable.** It enters the body of each instance at most
once, recursive methods or not. The instances that the program lists as reachable, ordered by their names and
without repetition, are the least set that the calls which are visible through it stay in. -/
theorem Session.reachable_least {x : Expander} {p : Program} (h : Session x p) :
    (∀ enter, ∃ w, p.Walks enter {} (p.env.roots.map .tree) w ∧ w.bodies.Nodup ∧
      p.walk enter = w.nodes.reverse) ∧
    (p.reachable.Pairwise fun a b => a.mangled ≤ b.mangled) ∧ (p.reachable.map Program.Listed.id).Nodup ∧
    (∀ l ∈ p.reachable, p.env.instances[l.id]? = some l.inst ∧ l.mangled = p.mangled l.inst) ∧
    IsLeast {R | p.Holds R} {i | ∃ l ∈ p.reachable, l.id = i} := by
  obtain ⟨origin, hS⟩ := h.stratified
  have hwalks (enter : Placed → Bool) : ∃ w, p.Walks enter {} (p.env.roots.map .tree) w ∧ w.bodies.Nodup ∧
      p.walk enter = w.nodes.reverse := by
    obtain ⟨w, hw, heq⟩ := hS.shallow.walks enter
    exact ⟨w, hw, hw.nodup List.nodup_nil, heq⟩
  have hsub : p.reachable.Sublist p.listed := List.filter_sublist
  refine ⟨hwalks, p.sorted_listed.sublist hsub, p.nodup_listed.sublist (hsub.map _),
    fun l hl => Program.mem_listed.mp (hsub.subset hl), ?_⟩
  obtain ⟨w, hw, -, heq⟩ := hwalks fun _ => true
  -- what is listed as reachable is what some walked call resolved to
  have hreach : {i | ∃ l ∈ p.reachable, l.id = i} = {i | ∃ t ∈ w.nodes, .inst i ∈ (p.callNote t).targets} := by
    ext i
    have hiff : i ∈ p.reached ↔ ∃ t ∈ w.nodes, .inst i ∈ (p.callNote t).targets := by
      rw [Program.mem_reached, heq]
      simp only [List.mem_reverse]
    constructor
    · rintro ⟨l, hl, rfl⟩
      exact hiff.mp (List.contains_iff_mem.mp (List.mem_filter.mp hl).2)
    · intro hi
      have hreached : i ∈ p.reached := hiff.mpr hi
      obtain ⟨t, -, hcall⟩ := hi
      have hlt := hS.lt_size_of_target hcall
      refine ⟨⟨i, p.env.instances[i], p.mangled p.env.instances[i]⟩, List.mem_filter.mpr ⟨Program.mem_listed.mpr ⟨?_, rfl⟩, ?_⟩, rfl⟩
      · exact Array.getElem?_eq_getElem hlt
      · exact List.contains_iff_mem.mpr hreached
  rw [hreach]
  exact ⟨fun t ht i hi => ⟨t, hw.finds ht, hi⟩, fun R hR i ⟨t, ht, hi⟩ => hR t (hw.visible hR t ht) i hi⟩

/-- Two methods that call each other, and one that is called for a boolean first and for more afterwards. -/
def gossip : Source :=
  let call (name : String) (args : List Source) : Source := .node none (.call none name (some args) none true)
  let method (name : String) (params : List (Param Source)) (body : Source) : Source :=
    .node none (.methodDef "" name (some params) none (some body) false)
  let news : Source := .node none (.globalVar "news")
  .node none (.expressions (some [method "ask" [] (call "tell" []), method "tell" [] (call "ask" []),
    method "pass" [⟨"it", none, none, false⟩] (.node none (.localVar "it" false)),
    .node none (.assign (some news) (some (.node none (.boolLiteral true)))), call "pass" [news],
    .node none (.assign (some news) (some (.node none .nilLiteral))), call "ask" []]))

/-- The program after these are typed. -/
def gossiped : Program :=
  ((Program.initial .none).run (Program.infer gossip)).2

/-- There is an instance of the last method for a boolean, which nothing calls any more, and one for a boolean or
nil. That one and those of the methods that call each other are reachable. -/
theorem Session.reachable_least_gossiped : Session .none gossiped ∧
    gossiped.env.instances.toList.map (fun i => (gossiped.methodName i, i.args.map gossiped.types.name)) =
      [("pass", ["Bool"]), ("pass", ["(Nil | Bool)"]), ("ask", []), ("tell", [])] ∧
    gossiped.reached = [1, 2, 3] ∧
    IsLeast {R | gossiped.Holds R} {i | ∃ l ∈ gossiped.reachable, l.id = i} :=
  ⟨.tree .initial gossip, by decide +kernel, by decide +kernel,
    (Session.reachable_least (.tree .initial gossip)).2.2.2.2⟩

end TypeFlow
