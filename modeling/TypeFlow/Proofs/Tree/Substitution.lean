import TypeFlow.Proofs.Document.Separator
import TypeFlow.Proofs.Tree.RoundTrip
import TypeFlow.Tree.Expansion

/-!
# Substitution and written forms

What replaces the variables of a tree counts only as it is written: replacements with the same documents give
trees with the same document (`Tree.toNode_substitute`). A document that reads back is fixed by its text
(`Document.eq_of_write_eq`). So macro calls whose arguments are written the same way and read back have the same
expansion (`Expansion.encode_substitute`).

By the layers: the document of a layer is made of its kind and its fields, so the layers that put nothing in the
place of anything are one case, and a variable, a block and a call with a block are the others.
-/

namespace TypeFlow

open Document

theorem Document.eq_of_write_eq {n n' : Node Unit} (h : write n = write n') (hn : ReadsBack n)
    (hn' : ReadsBack n') : n = n' := by
  have hsame := hn.symm.trans ((congrArg (fun text => (read text).map (Option.map Node.shown)) h).trans hn')
  exact Option.some.inj (Option.some.inj hsame)

variable {α β : Type}

namespace Tree

/-! ### Documents of trees -/

theorem flagged_textNode (s : String) : (textNode s).Flagged :=
  .text s

theorem flagged_texts {γ : Type} (f : γ → String) (xs : List γ) :
    (Node.sequence () (xs.map fun x => textNode (f x))).Flagged := by
  refine .sequence fun n hn => ?_
  obtain ⟨x, -, rfl⟩ := List.mem_map.mp hn
  exact flagged_textNode (f x)

theorem flagged_record {fs : List (String × Node Unit)} (h : ∀ p ∈ fs, p.2.Flagged) : (record fs).Flagged := by
  refine .mapping (fun e he => ?_) (fun e he => ?_)
  · obtain ⟨p, -, rfl⟩ := List.mem_map.mp he
    exact flagged_textNode p.1
  · obtain ⟨p, hp, rfl⟩ := List.mem_map.mp he
    exact h p hp

/-- A record starts with its kind. -/
theorem flagged_kind {k : Kind} {fs : List (String × Node Unit)} (h : ∀ p ∈ fs, p.2.Flagged) :
    (record (("kind", textNode k.tag) :: fs)).Flagged := by
  refine flagged_record fun p hp => ?_
  rcases List.mem_cons.mp hp with rfl | hp
  · exact flagged_textNode _
  · exact h p hp

theorem flagged_variableNode (v : Variable α) : (variableNode v).Flagged := by
  refine flagged_kind fun p hp => ?_
  rcases List.mem_append.mp hp with hp | hp
  · split at hp
    · exact absurd hp List.not_mem_nil
    · rw [List.mem_singleton.mp hp]
      exact flagged_textNode _
  · split at hp
    · rw [List.mem_singleton.mp hp]
      exact .flag true
    · exact absurd hp List.not_mem_nil

theorem flagged_plainField {v : FieldValue α (Node Unit)} (h : ∀ n ∈ v.nodes, n.Flagged) :
    (plainField v).Flagged := by
  cases v with
  | text s => exact flagged_textNode s
  | flag b => exact .flag b
  | texts items => exact flagged_texts id items
  | type t => exact flagged_textNode _
  | types items => exact flagged_texts TypeExpr.render items
  | child c => exact h c List.mem_cons_self
  | children items => exact .sequence h
  | «variables» items =>
    refine .sequence fun n hn => ?_
    obtain ⟨v, -, rfl⟩ := List.mem_map.mp hn
    exact flagged_variableNode v
  | path p =>
    refine flagged_kind fun q hq => ?_
    rcases List.mem_append.mp hq with hq | hq
    · obtain ⟨ns, -, rfl⟩ := Option.map_eq_some_iff.mp (Option.mem_toList.mp hq)
      exact flagged_texts id ns
    · obtain ⟨ts, -, rfl⟩ := Option.map_eq_some_iff.mp (Option.mem_toList.mp hq)
      exact flagged_texts TypeExpr.render ts
  | block b => exact .sequence fun n hn => absurd hn List.not_mem_nil
  | params items => exact .sequence fun n hn => absurd hn List.not_mem_nil
  | whens items => exact .sequence fun n hn => absurd hn List.not_mem_nil

theorem flagged_plainFields {fs : Fields α (Node Unit)} (h : ∀ p ∈ fs, ∀ n ∈ p.2.nodes, n.Flagged) :
    ∀ q ∈ plainFields fs, q.2.Flagged := by
  intro q hq
  obtain ⟨p, hp, rfl⟩ := List.mem_map.mp hq
  exact flagged_plainField (h p hp)

theorem flagged_fieldNode {v : FieldValue α (Node Unit)} (h : ∀ n ∈ v.nodes, n.Flagged) :
    (fieldNode v).Flagged := by
  cases v with
  | block b =>
    refine flagged_kind (flagged_plainFields ?_)
    simp only [Form.fields, List.forall_mem_append, Fields.forall_mem_given]
    refine ⟨fun ps _ n hn => absurd hn List.not_mem_nil, fun n hn m hm => ?_⟩
    rw [List.mem_singleton.mp hm]
    exact h n (Option.mem_toList.mpr hn)
  | params items =>
    refine .sequence fun n hn => ?_
    obtain ⟨p, hp, rfl⟩ := List.mem_map.mp hn
    refine flagged_record (flagged_plainFields ?_)
    simp only [Param.fields, List.forall_mem_append, Fields.forall_mem_text, Fields.forall_mem_given,
      Fields.forall_mem_flag]
    refine ⟨⟨⟨fun _ n hn => absurd hn List.not_mem_nil, fun _ _ n hn => absurd hn List.not_mem_nil⟩,
      fun n hn m hm => ?_⟩, fun _ n hn => absurd hn List.not_mem_nil⟩
    rw [List.mem_singleton.mp hm]
    exact h n (List.mem_flatMap.mpr ⟨p, hp, Option.mem_toList.mpr hn⟩)
  | whens items =>
    refine .sequence fun n hn => ?_
    obtain ⟨w, hw, rfl⟩ := List.mem_map.mp hn
    refine flagged_record (flagged_plainFields ?_)
    simp only [When.fields, List.forall_mem_append, Fields.forall_mem_given]
    refine ⟨fun cs hcs m hm => ?_, fun n hn m hm => ?_⟩
    · refine h m (List.mem_flatMap.mpr ⟨w, hw, List.mem_append_left _ ?_⟩)
      rw [show w.conds = some cs from hcs]
      exact hm
    · rw [List.mem_singleton.mp hm]
      exact h n (List.mem_flatMap.mpr ⟨w, hw, List.mem_append_right _ (Option.mem_toList.mpr hn)⟩)
  | _ => exact flagged_plainField h

/-- **The only plain scalars of a written tree** are the values of its flags. -/
theorem flagged_toNode (t : Tree α) : t.toNode.Flagged := by
  induction t using Tree.induction with
  | node m f ih =>
    rw [toNode_node]
    refine flagged_kind fun q hq => ?_
    obtain ⟨p, hp, rfl⟩ := List.mem_map.mp hq
    refine flagged_fieldNode fun n hn => ?_
    rw [FieldValue.nodes_map] at hn
    obtain ⟨c, hc, rfl⟩ := List.mem_map.mp hn
    exact ih p hp c hc

theorem nul_notMem_encode (t : Tree α) : nul ∉ t.encode.toList :=
  nul_notMem_write (flagged_toNode t)

/-- The kind of a node is written first. -/
theorem kind_eq_of_toNode_eq {t : Tree α} {t' : Tree β} (h : t.toNode = t'.toNode) : t.kind = t'.kind := by
  obtain ⟨m, f⟩ := t
  obtain ⟨m', f'⟩ := t'
  rw [toNode_node, toNode_node] at h
  injection h with _ h
  injection h with htag _
  injection htag with _ htag
  injection htag with _ _ htag
  have hsome := (Kind.ofTag?_tag f.kind).symm.trans ((congrArg Kind.ofTag? htag).trans (Kind.ofTag?_tag f'.kind))
  exact Option.some.inj hsome

/-! ### Substituted documents -/

/-- Replacements for the same names, with the same documents. -/
def SameWritten (args args' : List (String × Tree α)) : Prop :=
  args.map (Prod.map id toNode) = args'.map (Prod.map id toNode)

section Substitute

variable {args args' : List (String × Tree α)}

theorem replacement?_map_toNode (args : List (String × Tree α)) (name : String) :
    (replacement? args name).map toNode =
      ((args.map (Prod.map id toNode)).reverse.find? fun p => p.1 == name).map Prod.snd := by
  rw [← List.map_reverse, List.find?_map, Option.map_map, replacement?, Option.map_map]
  rfl

theorem SameWritten.replacement? (h : SameWritten args args') (name : String) :
    (Tree.replacement? args name).map toNode = (Tree.replacement? args' name).map toNode := by
  rw [replacement?_map_toNode, replacement?_map_toNode, h]

/-- A variable is replaced by what is a variable. -/
theorem variableNode_substituteVariable (args : List (String × Tree α)) (v : Variable α) :
    variableNode (substituteVariable args v) =
      match replacement? args v.name with
      | some r => if r.kind = .localVar then r.toNode else variableNode v
      | none => variableNode v := by
  unfold substituteVariable
  split
  · rename_i m name out hr
    rw [hr, ← toNode_ofVariable]
    rfl
  · rename_i hnone
    split
    · rename_i r hr
      rw [if_neg]
      intro hkind
      obtain ⟨m, f⟩ := r
      match f, hkind with
      | .localVar name out, _ => exact hnone m name out hr
    · rfl

theorem SameWritten.variableNode (h : SameWritten args args') (v : Variable α) :
    variableNode (substituteVariable args v) = variableNode (substituteVariable args' v) := by
  have hr := h.replacement? v.name
  rw [variableNode_substituteVariable, variableNode_substituteVariable]
  cases hfst : Tree.replacement? args v.name with
  | none =>
    rw [hfst, Option.map_none, eq_comm, Option.map_eq_none_iff] at hr
    rw [hr]
  | some r =>
    rw [hfst, Option.map_some, eq_comm, Option.map_eq_some_iff] at hr
    obtain ⟨r', hr, hnode⟩ := hr
    rw [hr]
    simp only [hnode, kind_eq_of_toNode_eq hnode]

/-- A layer is written by its kind and its fields. -/
theorem toNode_eq_of_fields {m m' : α} {f f' : Form α (Tree α)} (hkind : f.kind = f'.kind)
    (hfields : (f.fields.map fun p => (p.1, fieldNode (p.2.map toNode))) =
      f'.fields.map fun p => (p.1, fieldNode (p.2.map toNode))) :
    toNode (.node m f) = toNode (.node m' f') := by
  rw [toNode_node, toNode_node, hkind, hfields]

/-- Layers whose nodes are folded to the same documents. -/
theorem toNode_foldForm_congr {l l' : α → Form α (Tree α) → Tree α} (m : α) {f : Form α (Tree α)}
    (h : ∀ p ∈ f.fields, ∀ c ∈ p.2.nodes, (fold l c).toNode = (fold l' c).toNode) :
    toNode (.node m (foldForm l f)) = toNode (.node m (foldForm l' f)) := by
  refine toNode_eq_of_fields (by rw [kind_foldForm, kind_foldForm]) ?_
  rw [fields_foldForm, fields_foldForm, Fields.mapValues, Fields.mapValues, List.map_map, List.map_map]
  refine List.map_congr_left fun p hp => ?_
  have hsame : p.2.map (toNode ∘ fold l) = p.2.map (toNode ∘ fold l') := FieldValue.map_congr (h p hp)
  simp only [Function.comp_apply, FieldValue.map_map, hsame]

theorem SameWritten.params (h : SameWritten args args') (ps : Option (List (Variable α))) :
    (substituteParams args ps).map (List.map Tree.variableNode) =
      (substituteParams args' ps).map (List.map Tree.variableNode) := by
  cases ps with
  | none => rfl
  | some vs =>
    simp only [substituteParams, Option.map_some, List.map_map]
    exact congrArg some (List.map_congr_left fun v _ => h.variableNode v)

/-- The document of a block, by its parameters and its body. -/
theorem toNode_block (m : α) (ps : Option (List (Variable α))) (body : Option (Tree α)) :
    toNode (.node m (.block ps body)) = record (("kind", textNode Kind.block.tag) ::
      (((ps.map (List.map Tree.variableNode)).map fun ns => ("params", Node.sequence () ns)).toList ++
        ((body.map toNode).map fun n => ("body", n)).toList)) := by
  rw [toNode_node]
  cases ps <;> cases body <;> rfl

/-- The document of a call, by its parts. -/
theorem toNode_call (m : α) (obj : Option (Tree α)) (name : String) (as : Option (List (Tree α)))
    (b : Option (Block α (Tree α))) (parens : Bool) :
    toNode (.node m (.call obj name as b parens)) = record (("kind", textNode Kind.call.tag) ::
      (((obj.map toNode).map fun n => ("obj", n)).toList ++
        ((Fields.text "name" name : Fields α (Tree α)).map fun p => (p.1, fieldNode (p.2.map toNode))) ++
        ((as.map (List.map toNode)).map fun ns => ("args", Node.sequence () ns)).toList ++
        ((b.map fun b => toNode (ofBlock b)).map fun n => ("block", n)).toList ++
        ((Fields.flag "has_parens" parens : Fields α (Tree α)).map fun p => (p.1, fieldNode (p.2.map toNode))))) := by
  have hgiven : ∀ {δ : Type} (name : String) (value : δ → FieldValue α (Tree α)) (v : Option δ),
      ((Fields.given name value v).map fun p => (p.1, fieldNode (p.2.map toNode))) =
        (v.map fun x => (name, fieldNode ((value x).map toNode))).toList := by
    intro δ name value v
    cases v <;> rfl
  rw [toNode_node]
  simp only [Form.fields, List.map_append, hgiven, Option.map_map, toNode_ofBlock]
  rfl

theorem map_toNode_congr {g g' : Tree α → Tree α} {o : Option (Tree α)}
    (h : ∀ c ∈ o, (g c).toNode = (g' c).toNode) : (o.map g).map toNode = (o.map g').map toNode := by
  rw [Option.map_map, Option.map_map]
  exact Option.map_congr h

/-- The document of a block that is replaced, by that of its body. -/
theorem SameWritten.block (h : SameWritten args args') (m : α) (ps : Option (List (Variable α)))
    {body body' : Option (Tree α)} (hbody : body.map toNode = body'.map toNode) :
    toNode (.node m (.block (substituteParams args ps) body)) =
      toNode (.node m (.block (substituteParams args' ps) body')) := by
  rw [toNode_block, toNode_block, h.params, hbody]

/-- **What replaces the variables of a tree counts as it is written.** -/
theorem toNode_substitute (h : SameWritten args args') (t : Tree α) :
    (t.substitute args).toNode = (t.substitute args').toNode := by
  induction t using Tree.induction with
  | node m f ih =>
    have hfold : toNode (.node m (foldForm (substituteLayer args) f)) =
        toNode (.node m (foldForm (substituteLayer args') f)) := toNode_foldForm_congr m ih
    rw [substitute, substitute, fold_node, fold_node]
    cases f with
    | localVar name out =>
      have hr := h.replacement? name
      rw [foldForm, foldForm, substituteLayer, substituteLayer, ← Option.getD_map toNode,
        ← Option.getD_map toNode, hr]
    | block ps body =>
      simp only [Form.fields, List.forall_mem_append, Fields.forall_mem_given] at ih
      rw [foldForm, foldForm, substituteLayer, substituteLayer, foldOption_eq, foldOption_eq]
      exact h.block m ps (map_toNode_congr fun c hc => ih.2 c hc c List.mem_cons_self)
    | call obj name as b parens =>
      simp only [Form.fields, List.forall_mem_append, Fields.forall_mem_given] at ih
      obtain ⟨⟨⟨⟨hobj, -⟩, hargs⟩, hblock⟩, -⟩ := ih
      have hobj : (obj.map (fold (substituteLayer args))).map toNode =
          (obj.map (fold (substituteLayer args'))).map toNode :=
        map_toNode_congr fun c hc => hobj c hc c List.mem_cons_self
      have hargs : (as.map (List.map (fold (substituteLayer args)))).map (List.map toNode) =
          (as.map (List.map (fold (substituteLayer args')))).map (List.map toNode) := by
        rw [Option.map_map, Option.map_map]
        refine Option.map_congr fun cs hcs => ?_
        rw [Function.comp_apply, Function.comp_apply, List.map_map, List.map_map]
        exact List.map_congr_left fun c hc => hargs cs hcs c hc
      rw [foldForm, foldForm, substituteLayer, substituteLayer, toNode_call, toNode_call, foldOption_eq,
        foldOption_eq, foldMany_eq, foldMany_eq, foldBlock_eq, foldBlock_eq, hobj, hargs]
      simp only [Option.map_map]
      congr 5
      refine Option.map_congr fun b hb => congrArg (Prod.mk "block") ?_
      exact h.block b.mark b.params (map_toNode_congr fun c hc => hblock b hb c (Option.mem_toList.mpr hc))
    | _ => exact hfold

end Substitute

theorem sameWritten_zip (names : List String) {ts ts' : List (Tree α)} (h : ts.map toNode = ts'.map toNode) :
    SameWritten (names.zip ts) (names.zip ts') := by
  rw [SameWritten, ← List.zip_map_right, ← List.zip_map_right, h]

/-- Trees that read back are told apart by their texts. -/
theorem map_toNode_of_encode {ts ts' : List (Tree α)} (h : ts.map encode = ts'.map encode)
    (hback : ∀ t ∈ ts ++ ts', ReadsBack t.toNode) : ts.map toNode = ts'.map toNode := by
  induction ts generalizing ts' with
  | nil =>
    obtain rfl : ts' = [] := List.map_eq_nil_iff.mp h.symm
    rfl
  | cons t ts ih =>
    cases ts' with
    | nil => exact absurd h (List.cons_ne_nil _ _)
    | cons t' ts' =>
      injection h with hhead htail
      rw [List.forall_mem_append, List.forall_mem_cons, List.forall_mem_cons] at hback
      obtain ⟨⟨ht, hts⟩, ht', hts'⟩ := hback
      rw [List.map_cons, List.map_cons, eq_of_write_eq hhead ht ht',
        ih htail (List.forall_mem_append.mpr ⟨hts, hts'⟩)]

end Tree

/-- **An expansion by substitution** is fixed, as it is written, by the documents of the arguments. -/
theorem Expansion.encode_substitute {c c' : Call} (hname : c.name = c'.name) (hparams : c.params = c'.params)
    (hbody : c.body = c'.body) (hargs : c.args.map Tree.toNode = c'.args.map Tree.toNode) :
    (substitute c).map Tree.encode = (substitute c').map Tree.encode := by
  have hlength : c.args.length = c'.args.length := by
    rw [← List.length_map Tree.toNode, hargs, List.length_map]
  simp only [substitute, hname, hparams, hbody, hlength]
  split
  · rfl
  · split
    · rfl
    · rename_i body _
      have hsame := Tree.toNode_substitute (Tree.sameWritten_zip (c'.params.getD []) hargs) body
      exact congrArg (fun n => Except.ok (write n)) hsame

end TypeFlow
