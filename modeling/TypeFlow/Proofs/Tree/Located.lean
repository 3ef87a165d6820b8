import TypeFlow.Inference.Edits
import TypeFlow.Proofs.Tree.Composition
import TypeFlow.Proofs.Tree.Leaves
import TypeFlow.Tree.Decode

/-!
# Located trees

In a tree that was read every node has its location (`Source.located_of_decode`). Trees that are made while typing
are located as well, with one exception: the assignment of a default argument has no place for the variable. So a
variable that is assigned to may do without (`Tree.Located`).

Locations survive what happens to trees: being placed (`Source.located_place`), being turned back into a source, and
being written with the edits of their calls (`Env.located_written`).

A text that is no tree fails at a place (`Source.isSome_of_decode`): every fault is one at a node of the document,
and a text that is no document at all fails at its start. `Decode.Tells` says this of a reading; there is one lemma
for each reader of a field, and from these one for the layers of all kinds.
-/

namespace TypeFlow

variable {α β γ : Type}

/-! ### The nodes of changed layers -/

theorem FieldValue.nodes_mapMarks (u : α → γ) (v : FieldValue α β) : (v.mapMarks u).nodes = v.nodes := by
  cases v <;> rfl

theorem Form.forall_nodes_mapMarks {P : β → Prop} (u : α → γ) (f : Form α β) :
    (∀ p ∈ (f.mapMarks u).fields, ∀ c ∈ p.2.nodes, P c) ↔ ∀ p ∈ f.fields, ∀ c ∈ p.2.nodes, P c := by
  simp only [fields_mapMarks, Fields.mapValues, List.forall_mem_map, FieldValue.nodes_mapMarks]

namespace Tree

theorem forall_nodes_foldForm {P : β → Prop} (layer : α → Form α β → β) (f : Form α (Tree α)) :
    (∀ p ∈ (foldForm layer f).fields, ∀ c ∈ p.2.nodes, P c) ↔
      ∀ p ∈ f.fields, ∀ c ∈ p.2.nodes, P (fold layer c) := by
  simp only [fields_foldForm, Fields.mapValues, List.forall_mem_map, FieldValue.nodes_map]

@[simp] theorem kind_map (u : α → γ) (t : Tree α) : (t.map u).kind = t.kind := by
  obtain ⟨m, f⟩ := t
  rw [map, fold_node, kind, form, Form.kind_mapMarks, kind_foldForm]
  rfl

/-! ### Locations -/

variable {loc : α → Option Location}

/-- Every node has a location, except that a variable which is assigned to need not have one. -/
inductive Located (loc : α → Option Location) : Tree α → Prop
  | node {m : α} {f : Form α (Tree α)} (mark : (loc m).isSome)
    (nodes : ∀ p ∈ f.fields, ∀ c ∈ p.2.nodes, ¬(f.kind = .assign ∧ c.kind = .localVar) → Located loc c) :
    Located loc (.node m f)

/-- A tree is located, or a variable in whatever place. -/
def Fits (loc : α → Option Location) (t : Tree α) : Prop :=
  t.Located loc ∨ t.kind = .localVar

namespace Located

variable {t : Tree α} {m : α} {f : Form α (Tree α)}

theorem isSome (h : t.Located loc) : (loc t.mark).isSome := by
  cases h with
  | node mark _ => exact mark

theorem nodes (h : t.Located loc) (hk : t.kind ≠ .assign) :
    ∀ p ∈ t.form.fields, ∀ c ∈ p.2.nodes, c.Located loc := by
  cases h with
  | node _ nodes => exact fun p hp c hc => nodes p hp c hc fun hassign => hk hassign.1

theorem fits (h : t.Located loc) : ∀ p ∈ t.form.fields, ∀ c ∈ p.2.nodes, c.Fits loc := by
  cases h with
  | node _ nodes =>
    intro p hp c hc
    by_cases hvar : c.kind = .localVar
    · exact .inr hvar
    · exact .inl (nodes p hp c hc fun hassign => hvar hassign.2)

/-- A node with a location is located if all nodes in its fields are. -/
theorem of_nodes (hm : (loc m).isSome) (hf : ∀ p ∈ f.fields, ∀ c ∈ p.2.nodes, c.Located loc) :
    (Tree.node m f).Located loc :=
  .node hm fun p hp c hc _ => hf p hp c hc

end Located

/-- A tree whose marks are changed is located if its locations are found in the new marks. -/
theorem located_map {loc : γ → Option Location} (u : α → γ) (t : Tree α) :
    (t.map u).Located loc ↔ t.Located (loc ∘ u) := by
  induction t using Tree.induction with
  | node m f ih =>
    let g := (foldForm (fun m form => node (u m) (form.mapMarks u)) f).mapMarks u
    have hkind : g.kind = f.kind := (Form.kind_mapMarks _ _).trans (kind_foldForm _ _)
    have hnodes : (∀ p ∈ g.fields, ∀ c ∈ p.2.nodes, ¬(f.kind = .assign ∧ c.kind = .localVar) → c.Located loc) ↔
        ∀ p ∈ f.fields, ∀ c ∈ p.2.nodes, ¬(f.kind = .assign ∧ c.kind = .localVar) → c.Located (loc ∘ u) := by
      rw [Form.forall_nodes_mapMarks, forall_nodes_foldForm]
      refine forall₂_congr fun p hp => forall₂_congr fun c hc => ?_
      rw [← map, kind_map]
      exact imp_congr_right fun _ => ih p hp c hc
    have hmap : (node m f).map u = node (u m) g := fold_node _ _ _
    rw [hmap]
    refine ⟨fun h => ?_, fun h => ?_⟩
    · cases h with
      | node mark nodes => exact .node mark (hnodes.mp (hkind ▸ nodes))
    · cases h with
      | node mark nodes => exact .node mark (hkind.symm ▸ hnodes.mpr nodes)

end Tree

/-! ### Trees that were read -/

/-- That every node has a location is layered. -/
theorem Decode.layered_located : Decode.Layered (fun _ => True) (Tree.Located id) where
  listed _ := True.intro
  type _ := True.intro
  node _ _ h := .of_nodes rfl fun p hp => (h p hp).2
  fields h hk p hp := ⟨fun _ _ => True.intro, h.nodes hk p hp⟩

/-- **Every node of a tree that was read has a location**, unless the text is empty. -/
theorem Source.located_of_decode {file text : String} {t : Source} (h : Source.decode file text = .ok t) :
    t = .node none .nop ∨ t.Located id :=
  Decode.of_decode Decode.layered_located h

/-! ### Placed trees -/

/-- Whatever number is free, what the computation gives looks like `e` from the view `g`. -/
def Shows (g : β → γ) (e : γ) (m : StateM Nat β) : Prop :=
  ∀ s, g (m.run s).1 = e

namespace Shows

variable {δ ε : Type} {g : β → γ} {e : γ}

theorem pure {a : β} (h : g a = e) : Shows g e (pure a) :=
  fun _ => h

theorem bind {h : δ → ε} {d : ε} {m : StateM Nat β} {k : β → StateM Nat δ} (hm : Shows g e m)
    (hk : ∀ a, g a = e → Shows h d (k a)) : Shows h d (m >>= k) :=
  fun s => hk _ (hm s) _

/-! A traversal goes over things that are made of those it shows by `u`. -/

variable {f : δ → StateM Nat β} {u : γ → δ}

theorem option {x : Option γ} (hf : ∀ a ∈ x, Shows g a (f (u a))) :
    Shows (Option.map g) x (traverseOption f (x.map u)) := by
  cases x with
  | none => exact .pure rfl
  | some a => exact (hf a rfl).bind fun b hb => .pure (congrArg some hb)

theorem mapM {l : List γ} (hf : ∀ a ∈ l, Shows g a (f (u a))) : Shows (List.map g) l ((l.map u).mapM f) := by
  induction l with
  | nil => exact .pure rfl
  | cons a l ih =>
    rw [List.map_cons, List.mapM_cons]
    refine (hf a List.mem_cons_self).bind fun b hb => ?_
    refine (ih fun c hc => hf c (List.mem_cons_of_mem a hc)).bind fun bs hbs => .pure ?_
    rw [List.map_cons, hb, hbs]

theorem many {x : Option (List γ)} (hf : ∀ l ∈ x, ∀ a ∈ l, Shows g a (f (u a))) :
    Shows (Option.map (List.map g)) x (traverseMany f (x.map (List.map u))) := by
  cases x with
  | none => exact .pure rfl
  | some l => exact (mapM (hf l rfl)).bind fun bs hbs => .pure (congrArg some hbs)

end Shows

/-- The mark with the next number. -/
abbrev nextMark (loc : Option Location) : StateM Nat Mark :=
  modifyGet fun next => (⟨loc, next⟩, next + 1)

/-- A layer of a placed tree as one of its source. -/
def Form.source (f : Form Mark Placed) : Form (Option Location) Source :=
  (f.map Placed.source).mapMarks Mark.loc

theorem Placed.source_node (m : Mark) (f : Form Mark Placed) :
    Placed.source (.node m f) = .node m.loc f.source := by
  rw [source, Tree.map, Tree.fold_node, Tree.foldForm_eq]
  rfl

theorem shows_nextMark (loc : Option Location) : Shows Mark.loc loc (nextMark loc) :=
  fun _ => rfl

theorem shows_variables (vs : Option (List (Variable (Option Location)))) :
    Shows (Option.map (List.map (Form.mapMarks.variable' Mark.loc))) vs
      (traverseMany (Variable.traverse nextMark) vs) := by
  have hvariable : ∀ v : Variable (Option Location),
      Shows (Form.mapMarks.variable' Mark.loc) v (v.traverse nextMark) := fun v =>
    (shows_nextMark v.mark).bind fun k hk => .pure (by simp [Form.mapMarks.variable', hk])
  simpa using Shows.many (u := id) (x := vs) fun _ _ v _ => hvariable v

theorem shows_path (q : Option (PathRef (Option Location))) :
    Shows (Option.map (Form.mapMarks.path' Mark.loc)) q (traverseOption (PathRef.traverse nextMark) q) := by
  have hpath : ∀ q : PathRef (Option Location), Shows (Form.mapMarks.path' Mark.loc) q (q.traverse nextMark) :=
    fun q => (shows_nextMark q.mark).bind fun k hk => .pure (by simp [Form.mapMarks.path', hk])
  simpa using Shows.option (u := id) (x := q) fun q _ => hpath q

section

variable {run : Source → StateM Nat Placed}

theorem shows_child {x : Option Source} (hx : ∀ c ∈ x, Shows Placed.source c (run c)) :
    Shows (Option.map Placed.source) x (traverseOption id (x.map run)) :=
  .option hx

theorem shows_children {x : Option (List Source)} (hx : ∀ cs ∈ x, ∀ c ∈ cs, Shows Placed.source c (run c)) :
    Shows (Option.map (List.map Placed.source)) x (traverseMany id (x.map (List.map run))) :=
  .many hx

theorem shows_block {b : Block (Option Location) Source} (hb : ∀ c ∈ b.body, Shows Placed.source c (run c)) :
    Shows (Form.mapMarks.block' Mark.loc ∘ Block.map Placed.source) b ((b.map run).traverse nextMark id) := by
  refine (shows_nextMark b.mark).bind fun k hk => (shows_variables b.params).bind fun params hparams => ?_
  refine (shows_child hb).bind fun body hbody => .pure ?_
  simp [Form.mapMarks.block', Block.map, hk, hparams, hbody]

theorem shows_param {p : Param Source} (hp : ∀ c ∈ p.fallback, Shows Placed.source c (run c)) :
    Shows (Param.map Placed.source) p ((p.map run).traverse id) :=
  (shows_child hp).bind fun fallback h => .pure (by simp [Param.map, h])

theorem shows_clause {w : When Source}
    (hw : (∀ c ∈ w.conds.getD [], Shows Placed.source c (run c)) ∧
      ∀ c, w.body = some c → Shows Placed.source c (run c)) :
    Shows (When.map Placed.source) w ((w.map run).traverse id) := by
  have hconds : ∀ cs ∈ w.conds, ∀ c ∈ cs, Shows Placed.source c (run c) := by
    intro cs hcs c hc
    exact hw.1 c (by rwa [Option.mem_def.mp hcs])
  exact (shows_children hconds).bind fun conds h => (shows_child hw.2).bind fun body h' =>
    .pure (by simp [When.map, h, h'])

/-- A layer shows its source if what is run at its nodes shows theirs. -/
theorem shows_form {f : Form (Option Location) Source}
    (hf : ∀ p ∈ f.fields, ∀ c ∈ p.2.nodes, Shows Placed.source c (run c)) :
    Shows Form.source f ((f.map run).traverse nextMark id) := by
  cases f
  all_goals
    simp only [Form.fields, List.forall_mem_append, Fields.forall_mem_given, Fields.forall_mem_text,
      Fields.forall_mem_flag, FieldValue.nodes, List.forall_mem_singleton, List.forall_mem_flatMap,
      Option.mem_toList, List.not_mem_nil, false_imp_iff, implies_true, true_and, and_true] at hf
  case arrayLiteral | expressions | yieldTo | libDef =>
    exact (shows_children hf).bind fun _ h => .pure (by simp [Form.source, Form.map, Form.mapMarks, h])
  case assign | whileLoop =>
    exact (shows_child hf.1).bind fun _ h => (shows_child hf.2).bind fun _ h' =>
      .pure (by simp [Form.source, Form.map, Form.mapMarks, h, h'])
  case ifElse | unlessElse =>
    exact (shows_child hf.1.1).bind fun _ h => (shows_child hf.1.2).bind fun _ h' =>
      (shows_child hf.2).bind fun _ h'' => .pure (by simp [Form.source, Form.map, Form.mapMarks, h, h', h''])
  case returnFrom | breakOut | moduleDef | isA | respondsTo | pointerOf | macroDef =>
    exact (shows_child hf).bind fun _ h => .pure (by simp [Form.source, Form.map, Form.mapMarks, h])
  case caseOf =>
    exact (shows_child hf.1.1).bind fun _ h =>
      (Shows.many (u := When.map run) fun ws hws w hw => shows_clause (hf.1.2 ws hws w hw)).bind fun _ h' =>
        (shows_child hf.2).bind fun _ h'' => .pure (by simp [Form.source, Form.map, Form.mapMarks, h, h', h''])
  case call =>
    exact (shows_child hf.1.1).bind fun _ h => (shows_children hf.1.2).bind fun _ h' =>
      (Shows.option (u := Block.map run) fun b hb => shows_block (hf.2 b hb)).bind fun _ h'' =>
        .pure (by simp [Form.source, Form.map, Form.mapMarks, h, h', ← h''])
  case block =>
    exact (shows_variables _).bind fun _ h => (shows_child hf).bind fun _ h' =>
      .pure (by simp [Form.source, Form.map, Form.mapMarks, h, h'])
  case methodDef =>
    exact (Shows.many (u := Param.map run) fun ps hps p hp => shows_param (hf.1 ps hps p hp)).bind fun _ h =>
      (shows_child hf.2).bind fun _ h' => .pure (by simp [Form.source, Form.map, Form.mapMarks, h, h'])
  case classDef =>
    exact (shows_path _).bind fun _ h => (shows_child hf).bind fun _ h' =>
      .pure (by simp [Form.source, Form.map, Form.mapMarks, h, h'])
  case includeModule =>
    exact (shows_path _).bind fun _ h => .pure (by simp [Form.source, Form.map, Form.mapMarks, h])
  case funDef | structDef =>
    exact (Shows.many (u := Param.map run) fun ps hps p hp => shows_param (hf ps hps p hp)).bind fun _ h =>
      .pure (by simp [Form.source, Form.map, Form.mapMarks, h])
  all_goals exact .pure rfl

end

/-- Placing a tree loses nothing. -/
theorem Source.shows_place (t : Source) : Shows Placed.source t t.place := by
  induction t using Tree.induction with
  | node m f ih =>
    rw [Source.place, Tree.traverseMarks, Tree.fold_node, Tree.foldForm_eq]
    refine (shows_nextMark m).bind fun k hk => (shows_form ih).bind fun f hf => .pure ?_
    rw [Placed.source_node, hk, hf]

theorem Placed.located_source {t : Placed} : (Placed.source t).Located id ↔ t.Located Mark.loc :=
  Tree.located_map Mark.loc t

/-- **A placed tree has the locations of its source.** -/
theorem Source.located_place {t : Source} (h : t.Located id) (s : Nat) : (t.place.run s).1.Located Mark.loc :=
  Placed.located_source.mp ((t.shows_place s).symm ▸ h)

/-! ### Edited trees -/

/-- The arguments that a note adds to a call are located, and its conversions have locations. -/
structure Note.Located (n : Note) : Prop where
  added : ∀ a ∈ n.added, a.Located Mark.loc
  conversions : ∀ c ∈ n.conversions, c.2.loc.isSome

theorem Note.located_edit {n : Note} (hn : n.Located) {added args : List Source}
    (hadded : ∀ a ∈ added, a.Located id) (hargs : ∀ a ∈ args, a.Located id) :
    ∀ a ∈ n.edit added (fun m a => wrapped m.loc a) args, a.Located id := by
  intro a ha
  obtain ⟨i, hi, rfl⟩ := List.mem_mapIdx.mp ha
  have harg : (args ++ added)[i].Located id := (List.mem_append.mp (List.getElem_mem hi)).elim (hargs _) (hadded _)
  split
  · rename_i m hm
    obtain ⟨q, hq, rfl⟩ := Option.map_eq_some_iff.mp hm
    refine .of_nodes (hn.conversions q (List.mem_of_find?_eq_some hq)) ?_
    simpa [Form.fields, Fields.given, Fields.text, Fields.flag, conversionName, FieldValue.nodes] using harg
  · exact harg

namespace Env

variable {e : Env}

/-- A layer is written with its edits, if it is one of a call that was edited. -/
theorem writtenLayer_cases (m : Mark) (f : Form Mark Source) :
    e.writtenLayer m f = .node m.loc (f.mapMarks Mark.loc) ∨
    ∃ obj name args block parens, f = .call obj name args block parens ∧
      e.writtenLayer m f = .node m.loc ((Form.call obj name
        (some ((e.note m.occ).edit ((e.note m.occ).added.map Placed.source) (fun m a => wrapped m.loc a)
          (args.getD []))) block parens).mapMarks Mark.loc) := by
  cases f
  case call obj name args block parens =>
    by_cases hedited : (e.note m.occ).isEdited
    · refine .inr ⟨obj, name, args, block, parens, rfl, ?_⟩
      simp only [writtenLayer, if_pos hedited]
    · refine .inl ?_
      simp only [writtenLayer, if_neg hedited]
  all_goals exact .inl rfl

theorem kind_written (t : Placed) : (e.written t).kind = t.kind := by
  obtain ⟨m, f⟩ := t
  rw [written, Tree.fold_node]
  have hkind : (Tree.node m f).kind = (Tree.foldForm e.writtenLayer f).kind := (Tree.kind_foldForm _ _).symm
  rw [hkind]
  rcases e.writtenLayer_cases m (Tree.foldForm e.writtenLayer f) with h | ⟨_, _, _, _, _, hf, h⟩
  · rw [h]
    exact Form.kind_mapMarks _ _
  · rw [h, hf]
    rfl

theorem located_writtenLayer {m : Mark} {f : Form Mark Source} (hm : m.loc.isSome) (hn : (e.note m.occ).Located)
    (hf : ∀ p ∈ f.fields, ∀ c ∈ p.2.nodes, ¬(f.kind = .assign ∧ c.kind = .localVar) → c.Located id) :
    (e.writtenLayer m f).Located id := by
  rcases e.writtenLayer_cases m f with h | ⟨obj, name, args, block, parens, rfl, h⟩
  · rw [h]
    refine .node hm ?_
    rw [Form.forall_nodes_mapMarks, Form.kind_mapMarks]
    exact hf
  · have hnodes : ∀ p ∈ (Form.call obj name args block parens).fields, ∀ c ∈ p.2.nodes, c.Located id :=
      fun p hp c hc => hf p hp c hc fun hassign => Kind.noConfusion hassign.1
    have hadded : ∀ a ∈ (e.note m.occ).added.map Placed.source, a.Located id := by
      rw [List.forall_mem_map]
      exact fun a ha => Placed.located_source.mpr (hn.added a ha)
    rw [h]
    refine .of_nodes hm ?_
    rw [Form.forall_nodes_mapMarks]
    simp only [Form.fields, List.forall_mem_append, Fields.forall_mem_given, FieldValue.nodes, Option.mem_def,
      Option.some.injEq, forall_eq'] at hnodes ⊢
    refine ⟨⟨⟨⟨hnodes.1.1.1.1, hnodes.1.1.1.2⟩, Note.located_edit hn hadded ?_⟩, hnodes.1.2⟩, hnodes.2⟩
    intro a ha
    cases args with
    | none => cases ha
    | some args => exact hnodes.1.1.2 args rfl a ha

/-- **A located tree is written as one**, if the notes about its calls are located. -/
theorem located_written (hn : ∀ occ, (e.note occ).Located) {t : Placed} (h : t.Located Mark.loc) :
    (e.written t).Located id := by
  induction t using Tree.induction with
  | node m f ih =>
    cases h with
    | node mark nodes =>
      rw [written, Tree.fold_node]
      refine located_writtenLayer mark (hn _) ?_
      rw [Tree.forall_nodes_foldForm, Tree.kind_foldForm]
      intro p hp c hc hassign
      have hkind : c.kind = (e.written c).kind := (e.kind_written c).symm
      exact ih p hp c hc (nodes p hp c hc (hkind ▸ hassign))

end Env

/-! ### Texts that are no trees -/

namespace Decode

/-- Where the reading fails, it says where. -/
def Tells (x : Reading α) : Prop :=
  ∀ m, x = .error m → m.loc.isSome

namespace Tells

@[grind ←]
theorem ok (a : α) : Tells (.ok a) := by
  rintro _ ⟨⟩

@[grind ←]
theorem pure (a : α) : Tells (pure a) :=
  ok a

theorem error {m : Malformed} (h : m.loc.isSome) : Tells (.error m : Reading α) := by
  rintro _ ⟨⟩
  exact h

theorem bind {x : Reading α} {f : α → Reading β} (hx : Tells x) (hf : ∀ a, Tells (f a)) : Tells (x >>= f) := by
  cases x with
  | error m => exact error (hx m rfl)
  | ok a => exact hf a

theorem map {x : Reading α} (g : α → β) (hx : Tells x) : Tells (g <$> x) := by
  cases x with
  | error m => exact error (hx m rfl)
  | ok a => exact ok (g a)

theorem mapM {ι : Type} {read : ι → Reading α} (h : ∀ i, Tells (read i)) (items : List ι) :
    Tells (items.mapM read) := by
  induction items with
  | nil => exact .pure _
  | cons i items ih =>
    rw [List.mapM_cons]
    exact (h i).bind fun _ => ih.bind fun _ => .pure _

end Tells

-- only here are readings taken apart to see that they tell
attribute [local grind ←] Tells.bind Tells.map Tells.mapM

@[grind ←]
theorem tells_fault (file : String) (y : Item) (message : String) : Tells (fault file y message : Reading α) :=
  .error rfl

@[grind ←]
theorem tells_refuseUnknown (file : String) (entries : List (Item × Item)) (known : List String) (what : String) :
    Tells (refuseUnknown file entries known what) := by
  grind [refuseUnknown]

@[grind ←]
theorem tells_value (file : String) (y : Item) (r : Except (List Document.Unfit) α) (before : String) :
    Tells (value file y r before) := by
  cases r <;> grind [value]

namespace Reader

variable {r : Reader}

@[grind ←]
theorem tells_field {read : Item → Reading α} (h : ∀ y, Tells (read y)) (name : String) :
    Tells (r.field name read) := by
  grind [field]

@[grind ←]
theorem tells_text (name : String) : Tells (r.text name) := by
  refine .map _ (tells_field (fun y => ?_) name)
  cases y <;> grind

@[grind ←]
theorem tells_flag (name : String) : Tells (r.flag name) :=
  .map _ (tells_field (fun _ => tells_value _ _ _ _) name)

@[grind ←]
theorem tells_texts (name : String) : Tells (r.texts name) :=
  .map _ (tells_field (fun _ => tells_value _ _ _ _) name)

@[grind ←]
theorem tells_typeAt (y : Item) (s : String) : Tells (r.typeAt y s) := by
  grind [typeAt]

@[grind ←]
theorem tells_type (name : String) : Tells (r.type name) :=
  tells_field (fun _ => tells_typeAt _ _) name

@[grind ←]
theorem tells_list {read : Item → Reading α} (h : ∀ y, Tells (read y)) (name : String) :
    Tells (r.list name read) := by
  refine tells_field (fun y => ?_) name
  cases y <;> grind

@[grind ←]
theorem tells_types (name : String) : Tells (r.types name) :=
  tells_list (fun _ => tells_typeAt _ _) name

@[grind ←]
theorem tells_override (name : String) (default : Int) : Tells (r.override name default) :=
  .map _ (tells_field (fun _ => tells_value _ _ _ _) name)

section

variable (h : ∀ y, Tells (r.node y))

include h

theorem tells_block (name : String) : Tells (r.block name) := by
  refine tells_field (fun y => (h y).bind fun t => ?_) name
  split
  · exact .pure _
  · exact tells_fault _ _ _

theorem tells_variableAt (y : Item) : Tells (r.variableAt y) := by
  unfold variableAt
  split
  · exact .ok _
  · refine (h y).bind fun t => ?_
    split
    · exact .pure _
    · exact tells_fault _ _ _

theorem tells_pathAt (y : Item) : Tells (r.pathAt y) := by
  unfold pathAt
  split
  · exact .ok _
  · refine (h y).bind fun t => ?_
    split
    · exact .pure _
    · exact tells_fault _ _ _

/-- The fields of a mapping are read by the same reader of nodes. -/
theorem tells_within {y : Item} {k : Reader → Reading α} (hk : ∀ r : Reader, (∀ y, Tells (r.node y)) → Tells (k r)) :
    Tells (r.within y >>= k) := by
  unfold within
  split
  · exact hk _ h
  · exact tells_fault _ _ _

theorem tells_child (name : String) : Tells (r.child name) :=
  tells_field h name

theorem tells_children (name : String) : Tells (r.children name) :=
  tells_list h name

theorem tells_paramAt (y : Item) : Tells (r.paramAt y) := by
  unfold paramAt
  split
  · unfold shortParam
    have hwritten : ∀ (y : Item) (w : Option String), Tells (w.mapM fun w => r.typeAt y (Text.trim w)) := by
      intro y w
      cases w with
      | none => exact .pure _
      | some w => exact .map _ (tells_typeAt _ _)
    exact (hwritten _ _).bind fun _ => .pure _
  · refine tells_within h fun r hr => (tells_text _).bind fun _ => (tells_type _).bind fun _ => ?_
    exact (tells_child hr _).bind fun _ => (tells_flag _).bind fun _ =>
      (tells_refuseUnknown _ _ _ _).bind fun _ => .pure _

theorem tells_whenAt (y : Item) : Tells (r.whenAt y) := by
  refine tells_within h fun r hr => (tells_children hr _).bind fun _ => (tells_child hr _).bind fun _ => ?_
  exact (tells_refuseUnknown _ _ _ _).bind fun _ => .pure _

/-- The reading of a layer says where it fails if that of its nodes does, whatever its kind. -/
theorem tells_form (kind : Kind) : Tells (r.form kind) := by
  have hchild := tells_child h
  have hchildren := tells_children h
  have hblock := tells_block h
  have hvariables := tells_list (r := r) (tells_variableAt h)
  have hpath := tells_field (r := r) (tells_pathAt h)
  have hparams : ∀ name, Tells (r.params name) := tells_list (tells_paramAt h)
  have hwhens := tells_list (r := r) (tells_whenAt h)
  cases kind <;> grind [form]

end

end Reader

theorem tells_mapping {r : Reader} (h : ∀ y, Tells (r.node y)) (y : Item) : Tells (mapping r y) := by
  unfold mapping
  simp only
  -- whether there is a kind and whether it is known, what follows is read in the same way
  split
  all_goals refine .bind (by first | exact .ok _ | exact tells_fault _ _ _) fun _ => ?_
  all_goals split
  all_goals
    refine .bind (by first | exact .ok _ | exact tells_fault _ _ _) fun kind => ?_
    refine (Reader.tells_override _ _).bind fun _ => (Reader.tells_override _ _).bind fun _ => ?_
    refine (Reader.tells_override _ _).bind fun _ => (Reader.tells_form h kind).bind fun _ => ?_
    exact (tells_refuseUnknown _ _ _ _).bind fun _ => .pure _

theorem tells_node (file : String) (depth : Nat) (y : Item) : Tells (node file depth y) := by
  induction depth generalizing y with
  | zero => exact tells_fault _ _ _
  | succ depth ih =>
    cases y with
    | sequence m items => exact (Tells.mapM ih items).bind fun _ => .pure _
    | mapping m entries => exact tells_mapping ih _
    | scalar m style s => exact tells_fault _ _ _

end Decode

/-- **A text that is no tree fails at a place.** -/
theorem Source.isSome_of_decode {file text : String} {m : Malformed} (h : Source.decode file text = .error m) :
    m.loc.isSome := by
  unfold Source.decode Source.decodeBy at h
  split at h
  · obtain rfl := Except.error.inj h
    rfl
  · cases h
  · exact Decode.tells_node _ _ _ m h

end TypeFlow
