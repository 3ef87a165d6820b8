import TypeFlow.Inference.Edits
import TypeFlow.Proofs.Flow.Run
import TypeFlow.Proofs.Tree.Positions

/-!
# Placed trees are numbered downwards

Placing a tree gives its nodes consecutive numbers in the order of the source, so that numbers grow on every
way down (`Source.numbered_place`). Whatever is made later has higher numbers than all that is there. This is
what keeps a walk through a program from coming back to a node that it is below of.
-/

namespace TypeFlow

/-- The occurrences in a tree have numbers from `k` on and below `n`, which grow on every way down. -/
inductive Tree.Numbered (n : Nat) : Nat → Placed → Prop
  | node {k : Nat} {t : Placed} (low : k ≤ t.mark.occ) (high : t.mark.occ < n)
    (parts : ∀ c ∈ t.children, Numbered n (t.mark.occ + 1) c) : Numbered n k t

namespace Tree.Numbered

variable {n n' k k' : Nat} {t c : Placed}

theorem low (h : t.Numbered n k) : k ≤ t.mark.occ := by
  cases h with
  | node low _ _ => exact low

theorem high (h : t.Numbered n k) : t.mark.occ < n := by
  cases h with
  | node _ high _ => exact high

theorem inner (h : t.Numbered n k) (hc : c ∈ t.children) : c.Numbered n (t.mark.occ + 1) := by
  cases h with
  | node _ _ parts => exact parts c hc

theorem mono (h : t.Numbered n k) (hn : n ≤ n') (hk : k' ≤ k) : t.Numbered n' k' := by
  induction h generalizing k' with
  | node low high _ ih =>
    exact .node (Nat.le_trans hk low) (Nat.lt_of_lt_of_le high hn) fun c hc => ih c hc (Nat.le_refl _)

theorem child (h : t.Numbered n k) (hc : c ∈ t.children) : c.Numbered n k :=
  (h.inner hc).mono (Nat.le_refl _) (Nat.le_succ_of_le h.low)

theorem leaf {m : Mark} {f : Form Mark Placed} (hlow : k ≤ m.occ) (hhigh : m.occ < n)
    (hnone : Tree.children (.node m f) = []) : Numbered n k (.node m f) := by
  refine .node hlow hhigh fun c hc => ?_
  rw [hnone] at hc
  cases hc

end Tree.Numbered

open TypeFlow.Tree (Numbered)

/-! ### Computations that number -/

section

variable {α β : Type}

/-- The computation counts upwards, and the nodes of its result are numbered by it or among `l`. -/
def Numbers (l : List Placed) (nodes : α → List Placed) (m : StateM Nat α) : Prop :=
  ∀ s, s ≤ (m.run s).2 ∧ ∀ c ∈ nodes (m.run s).1, c ∈ l ∨ c.Numbered (m.run s).2 s

namespace Numbers

variable {l : List Placed}

theorem pure {nodes : α → List Placed} {a : α} (h : ∀ c ∈ nodes a, c ∈ l) : Numbers l nodes (pure a) :=
  fun s => ⟨Nat.le_refl s, fun c hc => .inl (h c hc)⟩

theorem bind {first : α → List Placed} {nodes : β → List Placed} {m : StateM Nat α} {k : α → StateM Nat β}
    (hm : Numbers [] first m) (hk : ∀ a, Numbers (l ++ first a) nodes (k a)) : Numbers l nodes (m >>= k) := by
  intro s
  obtain ⟨hle, hfirst⟩ := hm s
  obtain ⟨hle', hrest⟩ := hk (m.run s).1 (m.run s).2
  refine ⟨Nat.le_trans hle hle', fun c hc => ?_⟩
  rcases hrest c hc with hold | hnew
  · rcases List.mem_append.mp hold with hl | hc
    · exact .inl hl
    · exact .inr (((hfirst c hc).resolve_left List.not_mem_nil).mono hle' (Nat.le_refl s))
  · exact .inr (hnew.mono (Nat.le_refl _) hle)

theorem map {first : α → List Placed} {nodes : β → List Placed} {m : StateM Nat α} {g : α → β}
    (hm : Numbers [] first m) (hg : ∀ a, ∀ c ∈ nodes (g a), c ∈ first a) :
    Numbers [] nodes (do let a ← m; Pure.pure (g a)) :=
  hm.bind fun a => .pure fun c hc => hg a c hc

/-- Takes the next number. -/
abbrev takeMark (loc : Option Location) : StateM Nat Mark :=
  modifyGet fun next => (⟨loc, next⟩, next + 1)

/-- A node is numbered before what is below it. -/
theorem node {tree : α → Placed} {rest : Mark → StateM Nat α} (loc : Option Location)
    (hrest : ∀ k, Numbers [] (fun a => (tree a).children) (rest k))
    (hmark : ∀ k s, (tree ((rest k).run s).1).mark = k) :
    Numbers [] (fun a => [tree a]) (takeMark loc >>= rest) := by
  intro s
  obtain ⟨hle, hparts⟩ := hrest ⟨loc, s⟩ (s + 1)
  refine ⟨Nat.le_of_succ_le hle, fun c hc => .inr ?_⟩
  obtain rfl := List.mem_singleton.mp hc
  have hocc : (tree ((rest ⟨loc, s⟩).run (s + 1)).1).mark.occ = s := by rw [hmark]
  refine Tree.Numbered.node (Nat.le_of_eq hocc.symm) (Nat.lt_of_le_of_lt (Nat.le_of_eq hocc) hle)
    fun c hc => ?_
  have hc' := (hparts c hc).resolve_left List.not_mem_nil
  exact hocc.symm ▸ hc'

/-! ### Traversals -/

variable {γ δ : Type}

theorem mapM {nodes : δ → List Placed} {f : γ → StateM Nat δ} {xs : List γ}
    (hf : ∀ x ∈ xs, Numbers [] nodes (f x)) : Numbers [] (·.flatMap nodes) (xs.mapM f) := by
  induction xs with
  | nil => exact .pure fun c hc => hc
  | cons x xs ih =>
    rw [List.mapM_cons]
    refine (hf x List.mem_cons_self).bind fun y => ?_
    refine (ih fun z hz => hf z (List.mem_cons_of_mem x hz)).bind fun ys => .pure fun c hc => ?_
    simpa using hc

theorem many {nodes : δ → List Placed} {f : γ → StateM Nat δ} {xs : Option (List γ)}
    (hf : ∀ l ∈ xs, ∀ x ∈ l, Numbers [] nodes (f x)) :
    Numbers [] (·.toList.flatMap (·.flatMap nodes)) (traverseMany f xs) := by
  cases xs with
  | none => exact .pure fun c hc => hc
  | some l => exact (mapM (hf l rfl)).map fun ys c hc => by simpa using hc

theorem option {nodes : δ → List Placed} {f : γ → StateM Nat δ} {x : Option γ}
    (hf : ∀ a ∈ x, Numbers [] nodes (f a)) :
    Numbers [] (·.toList.flatMap nodes) (traverseOption f x) := by
  cases x with
  | none => exact .pure fun c hc => hc
  | some a => exact (hf a rfl).map fun y c hc => by simpa using hc

end Numbers

end

/-! ### Placing -/

namespace Tree

variable {α : Type}

/-- The nodes in the fields of a layer. -/
def nodesOf (f : Form α (Tree α)) : List (Tree α) :=
  f.fields.flatMap fun p => nodesIn p.2

@[simp] theorem nodesIn_child (c : Tree α) : nodesIn (.child c) = [c] :=
  rfl

@[simp] theorem nodesIn_children (items : List (Tree α)) : nodesIn (.children items) = items :=
  rfl

@[simp] theorem nodesIn_block (b : Block α (Tree α)) : nodesIn (.block b) = [ofBlock b] :=
  rfl

@[simp] theorem nodesIn_variables (items : List (Variable α)) :
    nodesIn (.variables items) = items.map ofVariable :=
  rfl

@[simp] theorem nodesIn_path (p : PathRef α) : nodesIn (.path p) = [ofPath p] :=
  rfl

@[simp] theorem nodesIn_params (items : List (Param (Tree α))) :
    nodesIn (.params items) = items.filterMap (·.fallback) :=
  rfl

@[simp] theorem nodesIn_whens (items : List (When (Tree α))) :
    nodesIn (.whens items) = items.flatMap fun w => (w.conds.getD []) ++ w.body.toList :=
  rfl

@[simp] theorem nodesIn_text (s : String) : nodesIn (.text s : FieldValue α (Tree α)) = [] :=
  rfl

@[simp] theorem nodesIn_texts (items : List String) : nodesIn (.texts items : FieldValue α (Tree α)) = [] :=
  rfl

@[simp] theorem nodesIn_type (t : TypeExpr) : nodesIn (.type t : FieldValue α (Tree α)) = [] :=
  rfl

@[simp] theorem nodesIn_types (ts : List TypeExpr) : nodesIn (.types ts : FieldValue α (Tree α)) = [] :=
  rfl

@[simp] theorem flatMap_given {γ δ : Type} {name : String} {value : γ → FieldValue α (Tree α)} {v : Option γ}
    (g : String × FieldValue α (Tree α) → List δ) :
    (Fields.given name value v).flatMap g = v.toList.flatMap fun x => g (name, value x) := by
  cases v <;> simp [Fields.given]

@[simp] theorem flatMap_text {name s : String} :
    ((Fields.text name s : Fields α (Tree α)).flatMap fun p => nodesIn p.2) = [] := by
  unfold Fields.text
  split <;> rfl

@[simp] theorem flatMap_flag {name : String} {b : Bool} :
    ((Fields.flag name b : Fields α (Tree α)).flatMap fun p => nodesIn p.2) = [] := by
  cases b <;> rfl

end Tree

namespace Numbers

open TypeFlow.Tree (nodesOf nodesIn ofBlock ofPath ofVariable)

theorem variableNode (v : Variable (Option Location)) :
    Numbers [] (fun w => [ofVariable w]) (v.traverse takeMark) := by
  refine node v.mark (fun k => .pure fun c hc => ?_) fun _ _ => rfl
  simp [ofVariable, Tree.children, Tree.form, Form.fields] at hc

theorem pathNode (p : PathRef (Option Location)) :
    Numbers [] (fun q => [ofPath q]) (p.traverse takeMark) := by
  refine node p.mark (fun k => .pure fun c hc => ?_) fun _ _ => rfl
  simp [ofPath, Tree.children, Tree.form, Form.fields] at hc

variable {b : Block (Option Location) (StateM Nat Placed)} 

theorem blockNode (hb : ∀ c ∈ b.body, Numbers [] (fun t => [t]) c) :
    Numbers [] (fun b => [ofBlock b]) (b.traverse takeMark id) := by
  refine node b.mark (fun k => ?_) fun _ _ => rfl
  refine (many fun _ _ v _ => variableNode v).bind fun params => ?_
  refine (option hb).bind fun body => .pure fun c hc => ?_
  simpa [ofBlock, Tree.children, Tree.form, Form.fields, eq_comm] using hc

theorem param {p : Param (StateM Nat Placed)} (hp : ∀ c ∈ p.fallback, Numbers [] (fun t => [t]) c) :
    Numbers [] (fun q => q.fallback.toList) (p.traverse id) :=
  (option hp).map fun fallback c hc => by simpa using hc

theorem clause {w : When (StateM Nat Placed)}
    (hw : (∀ c ∈ w.conds.getD [], Numbers [] (fun t => [t]) c) ∧ ∀ c, w.body = some c → Numbers [] (fun t => [t]) c) :
    Numbers [] (fun v => v.conds.getD [] ++ v.body.toList) (w.traverse id) := by
  have hconds : ∀ cs ∈ w.conds, ∀ c ∈ cs, Numbers [] (fun t => [t]) (id c) := by
    intro cs hcs c hc
    exact hw.1 c (by rwa [Option.mem_def.mp hcs])
  refine (many hconds).bind fun conds => (option hw.2).bind fun body => .pure fun c hc => ?_
  cases conds <;> simpa using hc

/-- **The nodes of a layer are numbered** if the computations in it number. -/
theorem form {f : Form (Option Location) (StateM Nat Placed)}
    (hf : ∀ p ∈ f.fields, ∀ c ∈ p.2.nodes, Numbers [] (fun t => [t]) c) :
    Numbers [] nodesOf (f.traverse takeMark id) := by
  cases f
  all_goals
    simp only [Form.fields, List.forall_mem_append, Fields.forall_mem_given, Fields.forall_mem_text,
      Fields.forall_mem_flag, FieldValue.nodes, List.forall_mem_singleton, List.forall_mem_flatMap,
      Option.mem_toList, List.not_mem_nil, false_imp_iff, implies_true, true_and, and_true] at hf
  case arrayLiteral | expressions | yieldTo | libDef =>
    exact (many hf).bind fun _ => .pure (by simp [nodesOf, Form.fields])
  case assign | whileLoop =>
    exact (option hf.1).bind fun _ => (option hf.2).bind fun _ =>
      .pure (by simp [nodesOf, Form.fields])
  case ifElse | unlessElse =>
    exact (option hf.1.1).bind fun _ => (option hf.1.2).bind fun _ => (option hf.2).bind fun _ =>
      .pure (by simp [nodesOf, Form.fields])
  case returnFrom | breakOut | moduleDef | isA | respondsTo | pointerOf | macroDef =>
    exact (option hf).bind fun _ => .pure (by simp [nodesOf, Form.fields])
  case caseOf =>
    exact (option hf.1.1).bind fun _ =>
      (many fun ws hws w hw => clause (hf.1.2 ws hws w hw)).bind fun _ =>
        (option hf.2).bind fun _ => .pure (by simp [nodesOf, Form.fields])
  case call =>
    exact (option hf.1.1).bind fun _ => (many hf.1.2).bind fun _ =>
      (option fun b hb => blockNode (hf.2 b hb)).bind fun _ => .pure (by simp [nodesOf, Form.fields])
  case block =>
    exact (many fun _ _ v _ => variableNode v).bind fun _ => (option hf).bind fun _ =>
      .pure (by simp [nodesOf, Form.fields, eq_comm])
  case methodDef =>
    exact (many fun ps hps p hp => param (hf.1 ps hps p hp)).bind fun _ => (option hf.2).bind fun _ =>
      .pure (by simp [nodesOf, Form.fields])
  case classDef =>
    exact (option fun p _ => pathNode p).bind fun _ => (option hf).bind fun _ =>
      .pure (by simp [nodesOf, Form.fields])
  case includeModule =>
    exact (option fun p _ => pathNode p).bind fun _ => .pure (by simp [nodesOf, Form.fields])
  case funDef | structDef =>
    exact (many fun ps hps p hp => param (hf ps hps p hp)).bind fun _ =>
      .pure (by simp [nodesOf, Form.fields])
  all_goals exact .pure (by simp [nodesOf, Form.fields])

end Numbers

/-- Placing a tree numbers it. -/
theorem Source.numbers_place (t : Source) : Numbers [] (fun t => [t]) t.place := by
  induction t using Tree.induction with
  | node m f ih =>
    rw [Source.place, Tree.traverseMarks, Tree.fold_node]
    refine .node m (fun k => .map (.form fun p hp c hc => ?_) fun f c hc => hc) fun _ _ => rfl
    rw [Tree.fields_foldForm] at hp
    obtain ⟨q, hq, rfl⟩ := List.mem_map.mp hp
    rw [FieldValue.nodes_map] at hc
    obtain ⟨d, hd, rfl⟩ := List.mem_map.mp hc
    exact ih q hq d hd

/-- **A placed tree is numbered downwards**, from the number that was free when it was placed. -/
theorem Source.numbered_place (t : Source) (s : Nat) :
    s ≤ (t.place.run s).2 ∧ (t.place.run s).1.Numbered (t.place.run s).2 s := by
  obtain ⟨hle, hnodes⟩ := t.numbers_place s
  exact ⟨hle, (hnodes _ List.mem_cons_self).resolve_left List.not_mem_nil⟩

/-- The program with notes for more occurrences. -/
def Program.opened (p : Program) (count : Nat) : Program :=
  { p with env := { p.env with notes := p.env.notes ++ Array.replicate count {} } }

@[simp] theorem Program.size_opened (p : Program) (count : Nat) :
    (p.opened count).env.notes.size = p.env.notes.size + count := by
  simp [opened]

namespace Infer

/-- A placed tree has the numbers behind all notes, which are opened for it. -/
theorem run_place (t : Source) (p : Program) : ∃ tree count, (place t).run.run p = (.ok tree, p.opened count) ∧
    tree.Numbered (p.env.notes.size + count) p.env.notes.size := by
  obtain ⟨hle, hnumbered⟩ := t.numbered_place p.env.notes.size
  refine ⟨(t.place.run p.env.notes.size).1, (t.place.run p.env.notes.size).2 - p.env.notes.size, rfl, ?_⟩
  rwa [Nat.add_sub_cancel' hle]

theorem run_freshMark (loc : Option Location) (p : Program) :
    (freshMark loc).run.run p = (.ok ⟨loc, p.env.notes.size⟩, p.opened 1) := by
  have hpush : p.env.notes.push ({} : Note) = p.env.notes ++ Array.replicate 1 ({} : Note) := Array.push_eq_append
  rw [Program.opened, ← hpush]
  rfl

/-- The copy of a block is a block. -/
theorem run_copyBlock (b : Block Mark Placed) (p : Program) : ∃ copy count,
    (copyBlock b).run.run p = (.ok copy, p.opened count) ∧
      (Tree.ofBlock copy).Numbered (p.env.notes.size + count) p.env.notes.size := by
  obtain ⟨tree, count, hrun, hnumbered⟩ := run_place (p.env.written (Tree.ofBlock b)) p
  have hblock : ∃ copy, tree = Tree.ofBlock copy := by
    have htree : ((p.env.written (Tree.ofBlock b)).place.run p.env.notes.size).1 = tree :=
      Except.ok.inj (congrArg Prod.fst hrun)
    exact ⟨⟨_, _, _⟩, htree.symm⟩
  obtain ⟨copy, rfl⟩ := hblock
  refine ⟨copy, count, ?_, hnumbered⟩
  rw [copyBlock, Flow.run_bind_of_ok (show env.run.run p = (.ok p.env, p) from rfl), Flow.run_bind_of_ok hrun]
  rfl

end Infer

end TypeFlow
