import TypeFlow.Tree.Encode

/-!
# Layers and their fields

What a fold makes of a layer can be read off its fields: the fields of a folded layer are the fields of the
layer with every node in them folded (`fields_foldForm`). So a function on trees that looks at a layer
through its fields alone is described field by field, whatever the kind of the node, and trees are compared
by induction on the nodes in their fields (`Tree.induction`).

`Tree.bare` forgets the marks; the written form of a tree has none (`toNode_bare`).
-/

namespace TypeFlow

variable {α β γ : Type}

/-! ### Changing the nodes of a layer -/

/-- Changes the body of a block. -/
def Block.map (g : β → γ) (b : Block α β) : Block α γ :=
  ⟨b.mark, b.params, b.body.map g⟩

/-- Changes the fallback of a parameter. -/
def Param.map (g : β → γ) (p : Param β) : Param γ :=
  ⟨p.name, p.restriction, p.fallback.map g, p.out⟩

/-- Changes the nodes of a clause. -/
def When.map (g : β → γ) (w : When β) : When γ :=
  ⟨w.conds.map (List.map g), w.body.map g⟩

/-- Changes the nodes of a field. -/
def FieldValue.map (g : β → γ) : FieldValue α β → FieldValue α γ
  | .text s => .text s
  | .flag b => .flag b
  | .texts items => .texts items
  | .type t => .type t
  | .types items => .types items
  | .child c => .child (g c)
  | .children items => .children (items.map g)
  | .block b => .block (b.map g)
  | .variables items => .variables items
  | .path p => .path p
  | .params items => .params (items.map (Param.map g))
  | .whens items => .whens (items.map (When.map g))

/-- Changes the marks that a field holds itself. -/
def FieldValue.mapMarks (u : α → γ) : FieldValue α β → FieldValue γ β
  | .text s => .text s
  | .flag b => .flag b
  | .texts items => .texts items
  | .type t => .type t
  | .types items => .types items
  | .child c => .child c
  | .children items => .children items
  | .block b => .block (Form.mapMarks.block' u b)
  | .variables items => .variables (items.map (Form.mapMarks.variable' u))
  | .path p => .path (Form.mapMarks.path' u p)
  | .params items => .params items
  | .whens items => .whens items

/-- The nodes of a field, those apart that can only be a block, a path or a variable. -/
def FieldValue.nodes : FieldValue α β → List β
  | .child c => [c]
  | .children items => items
  | .block b => b.body.toList
  | .params items => items.flatMap fun p => p.fallback.toList
  | .whens items => items.flatMap fun w => w.conds.getD [] ++ w.body.toList
  | _ => []

theorem FieldValue.nodes_map (g : β → γ) (v : FieldValue α β) : (v.map g).nodes = v.nodes.map g := by
  cases v with
  | block b => cases hb : b.body <;> simp [FieldValue.map, nodes, Block.map, hb]
  | params items =>
    simp only [FieldValue.map, nodes, List.flatMap_map, List.map_flatMap]
    congr 1
    funext p
    cases hp : p.fallback <;> simp [Param.map, hp]
  | whens items =>
    simp only [FieldValue.map, nodes, List.flatMap_map, List.map_flatMap]
    congr 1
    funext w
    cases hc : w.conds <;> cases hb : w.body <;> simp [When.map, hc, hb]
  | _ => simp [FieldValue.map, nodes]

/-- A field changes with its nodes only. -/
theorem FieldValue.map_congr {g h : β → γ} {v : FieldValue α β} (heq : ∀ c ∈ v.nodes, g c = h c) :
    v.map g = v.map h := by
  cases v with
  | child c => exact congrArg FieldValue.child (heq c List.mem_cons_self)
  | children items => exact congrArg FieldValue.children (List.map_congr_left heq)
  | block b =>
    have hbody : b.body.map g = b.body.map h :=
      Option.map_congr fun c hc => heq c (Option.mem_toList.mpr hc)
    simp only [FieldValue.map, Block.map, hbody]
  | params items =>
    refine congrArg FieldValue.params (List.map_congr_left fun p hp => ?_)
    have hfallback : p.fallback.map g = p.fallback.map h := Option.map_congr fun c hc =>
      heq c (List.mem_flatMap.mpr ⟨p, hp, Option.mem_toList.mpr hc⟩)
    simp only [Param.map, hfallback]
  | whens items =>
    refine congrArg FieldValue.whens (List.map_congr_left fun w hw => ?_)
    have hconds : w.conds.map (List.map g) = w.conds.map (List.map h) :=
      Option.map_congr fun cs hcs => List.map_congr_left fun c hc =>
        heq c (List.mem_flatMap.mpr ⟨w, hw, List.mem_append_left _ (by
          rw [show w.conds = some cs from hcs]
          exact hc)⟩)
    have hbody : w.body.map g = w.body.map h := Option.map_congr fun c hc =>
      heq c (List.mem_flatMap.mpr ⟨w, hw, List.mem_append_right _ (Option.mem_toList.mpr hc)⟩)
    simp only [When.map, hconds, hbody]
  | _ => rfl

theorem FieldValue.map_map {δ : Type} (g : β → γ) (h : γ → δ) (v : FieldValue α β) :
    (v.map g).map h = v.map (h ∘ g) := by
  cases v <;> simp [FieldValue.map, Block.map, Param.map, When.map, Function.comp_def]

theorem FieldValue.map_mapMarks {δ : Type} (u : α → γ) (g : β → δ) (v : FieldValue α β) :
    (v.mapMarks u).map g = (v.map g).mapMarks u := by
  cases v <;> rfl

namespace Fields

/-- Changes every value. -/
def mapValues {α' β' : Type} (g : FieldValue α β → FieldValue α' β') (fs : Fields α β) : Fields α' β' :=
  fs.map fun p => (p.1, g p.2)

section MapValues

variable {α' β' : Type} {g : FieldValue α β → FieldValue α' β'}

@[simp] theorem mapValues_nil : mapValues g [] = [] :=
  rfl

@[simp] theorem mapValues_append (fs gs : Fields α β) :
    mapValues g (fs ++ gs) = mapValues g fs ++ mapValues g gs :=
  List.map_append

theorem mapValues_text (hg : ∀ s, g (.text s) = .text s) (name s : String) :
    mapValues g (text name s) = text name s := by
  by_cases hs : s = "" <;> simp [text, mapValues, hs, hg]

theorem mapValues_flag (hg : ∀ b, g (.flag b) = .flag b) (name : String) (b : Bool) :
    mapValues g (flag name b) = flag name b := by
  cases b <;> simp [flag, mapValues, hg]

@[simp] theorem mapValues_given {δ : Type} (name : String) (value : δ → FieldValue α β) (v : Option δ) :
    mapValues g (given name value v) = given name (fun x => g (value x)) v := by
  cases v <;> rfl

end MapValues

/-- A field may hold a value made in two steps. -/
theorem given_map {δ ε : Type} (name : String) (value : ε → FieldValue α β) (h : δ → ε) (v : Option δ) :
    given name value (v.map h) = given name (fun x => value (h x)) v := by
  cases v <;> rfl

/-- The value under a name, the last one if there are several. -/
def last? (fs : Fields α β) (name : String) : Option (FieldValue α β) :=
  (fs.reverse.find? (·.1 == name)).map Prod.snd

theorem mem_of_last? {fs : Fields α β} {name : String} {v : FieldValue α β}
    (h : fs.last? name = some v) : (name, v) ∈ fs := by
  obtain ⟨⟨name', v'⟩, hfind, rfl⟩ := Option.map_eq_some_iff.mp h
  obtain rfl : name' = name := by simpa using List.find?_some hfind
  exact List.mem_reverse.mp (List.mem_of_find?_eq_some hfind)

theorem find?_map {δ : Type} (g : FieldValue α β → δ) (fs : Fields α β) (name : String) :
    ((fs.map fun p => (p.1, g p.2)).reverse.find? (·.1 == name)).map Prod.snd = (fs.last? name).map g := by
  rw [← List.map_reverse, List.find?_map, Option.map_map, last?, Option.map_map]
  rfl

theorem last?_append (fs gs : Fields α β) (name : String) :
    last? (fs ++ gs) name = (last? gs name).or (last? fs name) := by
  rw [last?, List.reverse_append, List.find?_append, last?, last?]
  cases gs.reverse.find? (·.1 == name) <;> rfl

theorem last?_text (key s name : String) :
    last? (text key s : Fields α β) name = if key = name ∧ s ≠ "" then some (.text s) else none := by
  by_cases hs : s = "" <;> by_cases hk : key = name <;> simp [last?, text, hs, hk]

theorem last?_flag (key : String) (b : Bool) (name : String) :
    last? (flag key b : Fields α β) name = if key = name ∧ b = true then some (.flag true) else none := by
  by_cases hk : key = name <;> cases b <;> simp [last?, flag, hk]

theorem last?_given {δ : Type} (key : String) (value : δ → FieldValue α β) (v : Option δ)
    (name : String) : last? (given key value v) name = if key = name then v.map value else none := by
  by_cases hk : key = name <;> cases v <;> simp [last?, given, hk]

section Forall

variable {P : String × FieldValue α β → Prop}

theorem forall_mem_text {key s : String} :
    (∀ p ∈ (text key s : Fields α β), P p) ↔ s ≠ "" → P (key, .text s) := by
  by_cases hs : s = "" <;> simp [text, hs]

theorem forall_mem_flag {key : String} {b : Bool} :
    (∀ p ∈ (flag key b : Fields α β), P p) ↔ b = true → P (key, .flag true) := by
  cases b <;> simp [flag]

theorem forall_mem_given {δ : Type} {key : String} {value : δ → FieldValue α β} {v : Option δ} :
    (∀ p ∈ given key value v, P p) ↔ ∀ x ∈ v, P (key, value x) := by
  cases v <;> simp [given]

end Forall

end Fields

theorem Form.kind_mapMarks (u : α → γ) (f : Form α β) : (f.mapMarks u).kind = f.kind := by
  cases f <;> rfl

/-- The fields of a layer with other marks. -/
theorem Form.fields_mapMarks (u : α → γ) (f : Form α β) :
    (f.mapMarks u).fields = f.fields.mapValues (FieldValue.mapMarks u) := by
  have htext := Fields.mapValues_text (g := FieldValue.mapMarks (β := β) u) fun _ => rfl
  have hflag := Fields.mapValues_flag (g := FieldValue.mapMarks (β := β) u) fun _ => rfl
  cases f <;> simp [Form.mapMarks, Form.fields, Fields.given_map, FieldValue.mapMarks, htext, hflag]

theorem Param.fields_map (g : β → γ) (p : Param β) :
    (p.map g).fields = (p.fields : Fields α β).mapValues (FieldValue.map g) := by
  have htext := Fields.mapValues_text (g := FieldValue.map (α := α) g) fun _ => rfl
  have hflag := Fields.mapValues_flag (g := FieldValue.map (α := α) g) fun _ => rfl
  simp [Param.fields, Param.map, Fields.given_map, FieldValue.map, htext, hflag]

theorem When.fields_map (g : β → γ) (w : When β) :
    (w.map g).fields = (w.fields : Fields α β).mapValues (FieldValue.map g) := by
  simp [When.fields, When.map, Fields.given_map, FieldValue.map]

theorem Param.fields_mapMarks (u : α → γ) (p : Param β) :
    (p.fields : Fields α β).mapValues (FieldValue.mapMarks u) = p.fields := by
  have htext := Fields.mapValues_text (g := FieldValue.mapMarks (β := β) u) fun _ => rfl
  have hflag := Fields.mapValues_flag (g := FieldValue.mapMarks (β := β) u) fun _ => rfl
  simp [Param.fields, FieldValue.mapMarks, htext, hflag]

theorem When.fields_mapMarks (u : α → γ) (w : When β) :
    (w.fields : Fields α β).mapValues (FieldValue.mapMarks u) = w.fields := by
  simp [When.fields, FieldValue.mapMarks]

/-- **The names of the fields of a layer** are those that its kind admits. -/
theorem Form.name_mem_fieldNames (f : Form α β) : ∀ p ∈ f.fields, p.1 ∈ f.kind.fieldNames := by
  cases f <;>
    simp only [Form.fields, List.forall_mem_append, Fields.forall_mem_text, Fields.forall_mem_flag,
      Fields.forall_mem_given] <;>
    simp [Form.kind, Kind.fieldNames]

namespace Tree

/-! ### Folds -/

section Fold

variable (layer : α → Form α β → β)

@[simp] theorem foldOption_eq (t : Option (Tree α)) : foldOption layer t = t.map (fold layer) := by
  cases t <;> rw [foldOption] <;> rfl

@[simp] theorem foldList_eq (ts : List (Tree α)) : foldList layer ts = ts.map (fold layer) := by
  induction ts with
  | nil => rw [foldList, List.map_nil]
  | cons t ts ih => rw [foldList, ih, List.map_cons]

@[simp] theorem foldMany_eq (ts : Option (List (Tree α))) :
    foldMany layer ts = ts.map (List.map (fold layer)) := by
  cases ts <;> simp [foldMany]

@[simp] theorem foldBlock_eq (b : Option (Block α (Tree α))) :
    foldBlock layer b = b.map (Block.map (fold layer)) := by
  cases b with
  | none => rw [foldBlock]; rfl
  | some b => rw [foldBlock, foldBlockBody, foldOption_eq]; rfl

@[simp] theorem foldParams_eq (ps : Option (List (Param (Tree α)))) :
    foldParams layer ps = ps.map (List.map (Param.map (fold layer))) := by
  have hlist : ∀ ps, foldParamList layer ps = ps.map (Param.map (fold layer)) := by
    intro ps
    induction ps with
    | nil => rw [foldParamList, List.map_nil]
    | cons p ps ih =>
      rw [foldParamList, ih, foldParam, foldOption_eq]
      rfl
  cases ps <;> simp [foldParams, hlist]

@[simp] theorem foldWhens_eq (ws : Option (List (When (Tree α)))) :
    foldWhens layer ws = ws.map (List.map (When.map (fold layer))) := by
  have hlist : ∀ ws, foldWhenList layer ws = ws.map (When.map (fold layer)) := by
    intro ws
    induction ws with
    | nil => rw [foldWhenList, List.map_nil]
    | cons w ws ih =>
      rw [foldWhenList, ih, foldWhen, foldMany_eq, foldOption_eq]
      rfl
  cases ws <;> simp [foldWhens, hlist]

@[simp] theorem kind_foldForm (f : Form α (Tree α)) : (foldForm layer f).kind = f.kind := by
  cases f <;> rw [foldForm] <;> rfl

/-- **The fields of a folded layer**: the nodes in them are folded. -/
theorem fields_foldForm (f : Form α (Tree α)) :
    (foldForm layer f).fields = f.fields.mapValues (FieldValue.map (fold layer)) := by
  have htext := Fields.mapValues_text (g := FieldValue.map (α := α) (fold layer)) fun _ => rfl
  have hflag := Fields.mapValues_flag (g := FieldValue.map (α := α) (fold layer)) fun _ => rfl
  cases f <;> simp [foldForm, Form.fields, Fields.given_map, FieldValue.map, htext, hflag]

end Fold

/-! ### Induction -/

/-- The number of nodes on the longest way down. -/
def height : Tree α → Nat :=
  fold fun _ f => (f.fields.flatMap fun p => p.2.nodes).foldr max 0 + 1

theorem height_lt {m : α} {f : Form α (Tree α)} {p : String × FieldValue α (Tree α)} {c : Tree α}
    (hp : p ∈ f.fields) (hc : c ∈ p.2.nodes) : c.height < (Tree.node m f).height := by
  have hle : ∀ (ns : List Nat), ∀ n ∈ ns, n ≤ ns.foldr max 0 := by
    intro ns
    induction ns with
    | nil => exact nofun
    | cons a ns ih =>
      intro n hn
      rcases List.mem_cons.mp hn with rfl | hn
      · exact Nat.le_max_left _ _
      · exact Nat.le_trans (ih n hn) (Nat.le_max_right _ _)
  rw [height, fold_node, fields_foldForm]
  refine Nat.lt_succ_of_le (hle _ _ ?_)
  refine List.mem_flatMap.mpr ⟨(p.1, p.2.map height), List.mem_map.mpr ⟨p, hp, rfl⟩, ?_⟩
  rw [FieldValue.nodes_map]
  exact List.mem_map.mpr ⟨c, hc, rfl⟩

/-- **Induction over trees**, through the nodes in the fields of a layer. -/
theorem induction {P : Tree α → Prop}
    (node : ∀ m f, (∀ p ∈ f.fields, ∀ c ∈ p.2.nodes, P c) → P (.node m f)) (t : Tree α) : P t := by
  have hall : ∀ n (t : Tree α), t.height ≤ n → P t := by
    intro n
    induction n with
    | zero =>
      intro t ht
      obtain ⟨m, f⟩ := t
      rw [height, fold_node] at ht
      omega
    | succ n ih =>
      intro t ht
      obtain ⟨m, f⟩ := t
      refine node m f fun p hp c hc => ih c ?_
      have hlt : c.height < (Tree.node m f).height := height_lt hp hc
      omega
  exact hall t.height t (Nat.le_refl _)

/-! ### Marks -/

/-- The tree without its marks. -/
def bare : Tree α → Tree Unit :=
  map fun _ => ()

/-- The layer without its marks. -/
def bareForm (f : Form α (Tree α)) : Form Unit (Tree Unit) :=
  (foldForm (fun _ form => .node () (form.mapMarks fun _ => ())) f).mapMarks fun _ => ()

theorem bare_node (m : α) (f : Form α (Tree α)) : bare (.node m f) = .node () (bareForm f) := by
  rw [bare, map, fold_node]
  rfl

@[simp] theorem kind_bareForm (f : Form α (Tree α)) : (bareForm f).kind = f.kind := by
  rw [bareForm, Form.kind_mapMarks, kind_foldForm]

theorem fields_bareForm (f : Form α (Tree α)) :
    (bareForm f).fields = f.fields.map fun p => (p.1, (p.2.map bare).mapMarks fun _ => ()) := by
  rw [bareForm, Form.fields_mapMarks, fields_foldForm, Fields.mapValues, Fields.mapValues, List.map_map]
  rfl

theorem variableNode_mapMarks (u : α → γ) (v : Variable α) :
    variableNode (Form.mapMarks.variable' u v) = variableNode v :=
  rfl

theorem plainFields_mapMarks (u : α → γ) (fs : Fields α (Document.Node Unit)) :
    plainFields (fs.mapValues (FieldValue.mapMarks u)) = plainFields fs := by
  rw [plainFields, plainFields, Fields.mapValues, List.map_map]
  refine List.map_congr_left fun p _ => ?_
  obtain ⟨name, v⟩ := p
  cases v with
  | «variables» items => simp [FieldValue.mapMarks, plainField, variableNode_mapMarks]
  | _ => rfl

theorem fieldNode_mapMarks (u : α → γ) (v : FieldValue α (Document.Node Unit)) :
    fieldNode (v.mapMarks u) = fieldNode v := by
  cases v with
  | block b =>
    have hfields := Form.fields_mapMarks u (.block b.params b.body : Form α (Document.Node Unit))
    rw [FieldValue.mapMarks, fieldNode, fieldNode, ← plainFields_mapMarks u, ← hfields]
    rfl
  | params items =>
    rw [FieldValue.mapMarks, fieldNode, fieldNode]
    simp only [← Param.fields_mapMarks u, ← plainFields_mapMarks u]
  | whens items =>
    rw [FieldValue.mapMarks, fieldNode, fieldNode]
    simp only [← When.fields_mapMarks u, ← plainFields_mapMarks u]
  | «variables» items => simp [FieldValue.mapMarks, fieldNode, plainField, variableNode_mapMarks]
  | _ => rfl

theorem plainFields_eq {fs : Fields α (Document.Node Unit)} (h : ∀ p ∈ fs, fieldNode p.2 = plainField p.2) :
    plainFields fs = fs.map fun p => (p.1, fieldNode p.2) :=
  List.map_congr_left fun p hp => by rw [h p hp]

/-- A parameter has no records among its fields. -/
theorem plainFields_param (g : β → Document.Node Unit) (p : Param β) :
    plainFields ((p.map g).fields : Fields α (Document.Node Unit)) =
      (p.fields : Fields α β).map fun q => (q.1, fieldNode (q.2.map g)) := by
  rw [plainFields_eq, Param.fields_map, Fields.mapValues, List.map_map]
  · rfl
  · simp only [Param.fields, List.forall_mem_append, Fields.forall_mem_text, Fields.forall_mem_given,
      Fields.forall_mem_flag]
    exact ⟨⟨⟨fun _ => rfl, fun _ _ => rfl⟩, fun _ _ => rfl⟩, fun _ => rfl⟩

/-- A clause has no records among its fields. -/
theorem plainFields_when (g : β → Document.Node Unit) (w : When β) :
    plainFields ((w.map g).fields : Fields α (Document.Node Unit)) =
      (w.fields : Fields α β).map fun q => (q.1, fieldNode (q.2.map g)) := by
  rw [plainFields_eq, When.fields_map, Fields.mapValues, List.map_map]
  · rfl
  · simp only [When.fields, List.forall_mem_append, Fields.forall_mem_given]
    exact ⟨fun _ _ => rfl, fun _ _ => rfl⟩

theorem toNode_node (m : α) (f : Form α (Tree α)) :
    toNode (.node m f) = record (("kind", textNode f.kind.tag) ::
      f.fields.map fun p => (p.1, fieldNode (p.2.map toNode))) := by
  rw [toNode, fold_node, encodeLayer, kind_foldForm, fields_foldForm, Fields.mapValues, List.map_map]
  rfl

/-- **Marks are not written.** -/
theorem toNode_bare (t : Tree α) : t.bare.toNode = t.toNode := by
  induction t using Tree.induction with
  | node m f ih =>
    rw [bare_node, toNode_node, toNode_node, fields_bareForm, kind_bareForm, List.map_map]
    congr 2
    refine List.map_congr_left fun p hp => ?_
    have hsame : p.2.map (toNode ∘ bare) = p.2.map toNode :=
      FieldValue.map_congr fun c hc => ih p hp c hc
    simp only [Function.comp_apply, FieldValue.map_mapMarks, fieldNode_mapMarks, FieldValue.map_map, hsame]

/-- What is written for a tree does not depend on its marks. -/
theorem encodeBy_eq_of_bare_eq (write : Document.Node Unit → String) {t : Tree α} {t' : Tree γ}
    (h : t'.bare = t.bare) : t'.encodeBy write = t.encodeBy write := by
  rw [encodeBy, encodeBy, ← toNode_bare t', ← toNode_bare t, h]

end Tree

end TypeFlow
