import TypeFlow.Proofs.Tree.Fields
import TypeFlow.Tree.Decode

/-!
# Written types of a tree that was read

The leaves of a tree are what its fields hold beside nodes, texts and flags: the items of its lists of texts
and its written types. Every written type of a tree that was read is one that a text was read as
(`Source.decode_parsed`), wherever it stands: in a field, in a list, in the short form of a parameter.

`Decode.Yields x P` says of a reading that it has `P` if it succeeds; there is one rule for each reader of a
field, and the readers of the 39 kinds are put together from them. They do so for any property of trees that a
located node has if its fields do (`Decode.Layered`).
-/

namespace TypeFlow

variable {α β γ : Type}

/-! ### Leaves -/

/-- A leaf of a tree with rules of its own. -/
inductive Leaf where
  /-- An item of a list of texts. -/
  | listed (s : String)
  /-- A written type. -/
  | type (t : TypeExpr)

/-- The leaves that a field holds itself. -/
def FieldValue.leaves : FieldValue α β → List Leaf
  | .texts items => items.map .listed
  | .type t => [.type t]
  | .types items => items.map .type
  | .path p => (p.names.getD []).map .listed ++ (p.typeArgs.getD []).map .type
  | .params items => items.flatMap fun p => p.restriction.toList.map .type
  | _ => []

/-- The leaves of a tree. -/
def Tree.leaves : Tree α → List Leaf :=
  fold fun _ f => f.fields.flatMap fun p => p.2.leaves ++ p.2.nodes.flatten

/-- Every leaf in a field, also in its nodes, satisfies `P`. -/
def FieldValue.Holds (P : Leaf → Prop) (v : FieldValue α (Tree α)) : Prop :=
  (∀ l ∈ v.leaves, P l) ∧ ∀ c ∈ v.nodes, ∀ l ∈ c.leaves, P l

/-- Every leaf in a field satisfies `L`, and every node in it `P`. -/
def FieldValue.Has (L : Leaf → Prop) (P : Tree α → Prop) (v : FieldValue α (Tree α)) : Prop :=
  (∀ l ∈ v.leaves, L l) ∧ ∀ c ∈ v.nodes, P c

theorem FieldValue.holds_text (P : Leaf → Prop) (s : String) :
    (FieldValue.text s : FieldValue α (Tree α)).Holds P :=
  ⟨List.forall_mem_nil _, List.forall_mem_nil _⟩

theorem FieldValue.holds_flag (P : Leaf → Prop) (b : Bool) :
    (FieldValue.flag b : FieldValue α (Tree α)).Holds P :=
  ⟨List.forall_mem_nil _, List.forall_mem_nil _⟩

theorem FieldValue.holds_variables (P : Leaf → Prop) (vs : List (Variable α)) :
    (FieldValue.variables vs : FieldValue α (Tree α)).Holds P :=
  ⟨List.forall_mem_nil _, List.forall_mem_nil _⟩

theorem FieldValue.leaves_map (g : β → γ) (v : FieldValue α β) : (v.map g).leaves = v.leaves := by
  cases v with
  | params items => simp [FieldValue.map, leaves, Param.map, List.flatMap_map]
  | _ => rfl

theorem Tree.forall_leaves {P : Leaf → Prop} {m : α} {f : Form α (Tree α)} :
    (∀ l ∈ (Tree.node m f).leaves, P l) ↔ ∀ p ∈ f.fields, p.2.Holds P := by
  have hnode : (Tree.node m f).leaves =
      f.fields.flatMap fun p => p.2.leaves ++ (p.2.nodes.map leaves).flatten := by
    rw [leaves, fold_node, fields_foldForm, Fields.mapValues, List.flatMap_map]
    simp only [FieldValue.leaves_map, FieldValue.nodes_map]
  rw [hnode]
  simp only [List.forall_mem_flatMap, List.forall_mem_append, FieldValue.Holds, List.mem_flatten,
    List.mem_map]
  refine forall₂_congr fun p _ => and_congr_right fun _ => ⟨fun h c hc l hl => ?_, fun h l hl => ?_⟩
  · exact h l ⟨_, ⟨c, hc, rfl⟩, hl⟩
  · obtain ⟨_, ⟨c, hc, rfl⟩, hl⟩ := hl
    exact h c hc l hl

/-- A written type that was read from a text. -/
def Leaf.Parsed : Leaf → Prop
  | .listed _ => True
  | .type t => ∃ s, TypeExpr.parse s = .ok t

namespace Decode

open Document

/-! ### What a reading gives -/

/-- The reading gives something with `P`, or fails. -/
def Yields (x : Reading α) (P : α → Prop) : Prop :=
  ∀ a, x = .ok a → P a

namespace Yields

variable {P : α → Prop} {Q : β → Prop}

theorem trivial (x : Reading α) : Yields x fun _ => True :=
  fun _ _ => True.intro

theorem pure {a : α} (h : P a) : Yields (pure a) P := by
  rintro b ⟨⟩
  exact h

theorem error (e : Malformed) : Yields (.error e) P :=
  nofun

theorem bind {x : Reading α} {f : α → Reading β} (hx : Yields x P) (hf : ∀ a, P a → Yields (f a) Q) :
    Yields (x >>= f) Q := by
  intro b hb
  cases x with
  | error e => exact absurd hb nofun
  | ok a => exact hf a (hx a rfl) b hb

theorem map {x : Reading α} {g : α → β} (hx : Yields x P) (hg : ∀ a, P a → Q (g a)) :
    Yields (g <$> x) Q :=
  hx.bind fun a ha => .pure (hg a ha)

theorem mapM {ι : Type} {read : ι → Reading α} (h : ∀ i, Yields (read i) P) (items : List ι) :
    Yields (items.mapM read) fun xs => ∀ x ∈ xs, P x := by
  induction items with
  | nil => exact .pure nofun
  | cons i items ih =>
    rw [List.mapM_cons]
    refine (h i).bind fun x hx => ih.bind fun xs hxs => .pure ?_
    exact List.forall_mem_cons.mpr ⟨hx, hxs⟩

end Yields

/-! ### The readers of fields -/

/-- A property of trees that a node with a location has if its fields have it, where every leaf that was read
satisfies `L`. A node other than an assignment hands it on to its fields. -/
structure Layered (L : Leaf → Prop) (P : Source → Prop) : Prop where
  listed : ∀ s, L (.listed s)
  type : ∀ {s t}, TypeExpr.parse s = .ok t → L (.type t)
  node : ∀ l f, (∀ p ∈ f.fields, p.2.Has L P) → P (.node (some l) f)
  fields : ∀ {m f}, P (.node m f) → f.kind ≠ .assign → ∀ p ∈ f.fields, p.2.Has L P

/-- Whatever the reader of nodes gives satisfies `P`. -/
def Reader.Gives (r : Reader) (P : Source → Prop) : Prop :=
  ∀ y, Yields (r.node y) P

namespace Reader

variable {r : Reader} {P : α → Prop}

theorem yields_field {read : Item → Reading α} (h : ∀ y, Yields (read y) P) (name : String) :
    Yields (r.field name read) fun x => ∀ c ∈ x, P c := by
  unfold field
  split
  · exact .pure nofun
  · rename_i y _
    refine (h y).map fun a ha => ?_
    rintro c ⟨⟩
    exact ha

theorem yields_list {read : Item → Reading α} (h : ∀ y, Yields (read y) P) (name : String) :
    Yields (r.list name read) fun x => ∀ cs ∈ x, ∀ c ∈ cs, P c := by
  refine yields_field (fun y => ?_) name
  split
  · exact .mapM h _
  · exact .error _

section

variable {L : Leaf → Prop} {P : Source → Prop} (hP : Layered L P)

include hP

theorem yields_typeAt (y : Item) (s : String) : Yields (r.typeAt y s) fun t => L (.type t) := by
  unfold typeAt
  split
  · rename_i t ht
    exact .pure (hP.type ht)
  · exact .error _

theorem yields_texts (name : String) :
    Yields (r.texts name) fun x => ∀ items ∈ x, (FieldValue.texts items).Has L P := by
  intro x _ items _
  refine ⟨fun l hl => ?_, List.forall_mem_nil _⟩
  obtain ⟨s, -, rfl⟩ := List.mem_map.mp hl
  exact hP.listed s

theorem yields_type (name : String) :
    Yields (r.type name) fun x => ∀ t ∈ x, (FieldValue.type t).Has L P := by
  refine yields_field (fun y => ?_) name
  exact fun t ht => ⟨List.forall_mem_singleton.mpr (yields_typeAt hP y _ t ht), List.forall_mem_nil _⟩

theorem yields_types (name : String) :
    Yields (r.types name) fun x => ∀ ts ∈ x, (FieldValue.types ts).Has L P := by
  intro x hx ts hts
  refine ⟨fun l hl => ?_, List.forall_mem_nil _⟩
  obtain ⟨t, ht, rfl⟩ := List.mem_map.mp hl
  exact yields_list (fun y => yields_typeAt hP y y.text) name x hx ts hts t ht

omit hP in
theorem yields_child (h : r.Gives P) (name : String) :
    Yields (r.child name) fun x => ∀ c ∈ x, (FieldValue.child c).Has L P := by
  intro x hx c hc
  exact ⟨List.forall_mem_nil _, List.forall_mem_singleton.mpr (yields_field h name x hx c hc)⟩

omit hP in
theorem yields_children (h : r.Gives P) (name : String) :
    Yields (r.children name) fun x => ∀ cs ∈ x, (FieldValue.children cs).Has L P :=
  fun x hx cs hcs => ⟨List.forall_mem_nil _, yields_list h name x hx cs hcs⟩

theorem yields_block (h : r.Gives P) (name : String) :
    Yields (r.block name) fun x => ∀ b ∈ x, (FieldValue.block b).Has L P := by
  refine yields_field (fun y => (h y).bind fun t ht => ?_) name
  split
  · rename_i m params body
    refine .pure ⟨List.forall_mem_nil _, fun c hc => ?_⟩
    have hfields := hP.fields ht nofun
    simp only [Form.fields, List.forall_mem_append, Fields.forall_mem_given] at hfields
    exact (hfields.2 c (Option.mem_toList.mp hc)).2 c List.mem_cons_self
  · exact .error _

omit hP in
theorem yields_variables (name : String) :
    Yields (r.list name r.variableAt) fun x => ∀ vs ∈ x, (FieldValue.variables vs).Has L P :=
  fun _ _ _ _ => ⟨List.forall_mem_nil _, List.forall_mem_nil _⟩

theorem yields_pathAt (h : r.Gives P) (y : Item) :
    Yields (r.pathAt y) fun p => (FieldValue.path p).Has L P := by
  unfold pathAt
  split
  · refine .pure ⟨fun l hl => ?_, List.forall_mem_nil _⟩
    simp only [FieldValue.leaves, Option.getD_some, Option.getD_none, List.map_nil, List.append_nil,
      List.mem_map] at hl
    obtain ⟨s, -, rfl⟩ := hl
    exact hP.listed s
  · refine (h y).bind fun t ht => ?_
    split
    · rename_i m names typeArgs
      have hfields := hP.fields ht nofun
      simp only [Form.fields, List.forall_mem_append, Fields.forall_mem_given] at hfields
      refine .pure ⟨fun l hl => ?_, List.forall_mem_nil _⟩
      rcases List.mem_append.mp hl with hl | hl
      · obtain ⟨s, -, rfl⟩ := List.mem_map.mp hl
        exact hP.listed s
      · cases typeArgs with
        | none => exact absurd hl List.not_mem_nil
        | some ts => exact (hfields.2 ts rfl).1 l hl
    · exact .error _

omit hP in
theorem yields_within (h : r.Gives P) (y : Item) : Yields (r.within y) (Gives · P) := by
  unfold within
  split
  · exact .pure h
  · exact .error _

/-- What is known of a parameter that was read: of its type, if it has one, and of its fallback. -/
def ReadParam (L : Leaf → Prop) (P : Source → Prop) (p : Param Source) : Prop :=
  (∀ t ∈ p.restriction, L (.type t)) ∧ ∀ c ∈ p.fallback, P c

theorem yields_shortParam (y : Item) (s : String) : Yields (r.shortParam y s) (ReadParam L P) := by
  have hwritten : ∀ w : Option String, Yields (w.mapM fun w => r.typeAt y (Text.trim w))
      fun t => ∀ u ∈ t, L (.type u) := by
    intro w
    cases w with
    | none => exact .pure nofun
    | some w =>
      refine (yields_typeAt hP y (Text.trim w)).map fun t ht => ?_
      rintro u ⟨⟩
      exact ht
  unfold shortParam
  exact (hwritten _).bind fun t ht => .pure ⟨ht, nofun⟩

theorem yields_paramAt (h : r.Gives P) (y : Item) : Yields (r.paramAt y) (ReadParam L P) := by
  unfold paramAt
  split
  · exact yields_shortParam hP _ _
  · refine (yields_within h _).bind fun r' hr' => (Yields.trivial _).bind fun _ _ => ?_
    refine (yields_type hP _).bind fun t ht => (yields_child (L := L) hr' _).bind fun c hc => ?_
    refine (Yields.trivial _).bind fun _ _ => (Yields.trivial _).bind fun _ _ => .pure ⟨?_, ?_⟩
    · exact fun u hu => (ht u hu).1 _ List.mem_cons_self
    · exact fun d hd => (hc d hd).2 d List.mem_cons_self

theorem yields_params (h : r.Gives P) (name : String) :
    Yields (r.params name) fun x => ∀ ps ∈ x, (FieldValue.params ps).Has L P := by
  intro x hx ps hps
  have hparam := yields_list (yields_paramAt hP h) name x hx ps hps
  refine ⟨fun l hl => ?_, fun c hc => ?_⟩
  · obtain ⟨p, hp, hl⟩ := List.mem_flatMap.mp hl
    obtain ⟨t, ht, rfl⟩ := List.mem_map.mp hl
    exact (hparam p hp).1 t (Option.mem_toList.mp ht)
  · obtain ⟨p, hp, hc⟩ := List.mem_flatMap.mp hc
    exact (hparam p hp).2 c (Option.mem_toList.mp hc)

omit hP in
theorem yields_whens (h : r.Gives P) (name : String) :
    Yields (r.list name r.whenAt) fun x => ∀ ws ∈ x, (FieldValue.whens ws).Has L P := by
  have hwhen : ∀ y, Yields (r.whenAt y) fun w => ∀ c ∈ w.conds.getD [] ++ w.body.toList, P c := by
    intro y
    unfold whenAt
    refine (yields_within h y).bind fun r' hr' => (yields_children (L := L) hr' _).bind fun cs hcs => ?_
    refine (yields_child (L := L) hr' _).bind fun b hb => (Yields.trivial _).bind fun _ _ => .pure fun c hc => ?_
    rcases List.mem_append.mp hc with hc | hc
    · cases cs with
      | none => exact absurd hc nofun
      | some cs => exact (hcs cs rfl).2 c hc
    · exact (hb c (Option.mem_toList.mp hc)).2 c List.mem_cons_self
  intro x hx ws hws
  refine ⟨List.forall_mem_nil _, fun c hc => ?_⟩
  obtain ⟨w, hw, hc⟩ := List.mem_flatMap.mp hc
  exact yields_list hwhen name x hx ws hws w hw c hc

omit hP in
theorem has_text (s : String) : (FieldValue.text s : FieldValue (Option Location) Source).Has L P :=
  ⟨List.forall_mem_nil _, List.forall_mem_nil _⟩

omit hP in
theorem has_flag (b : Bool) : (FieldValue.flag b : FieldValue (Option Location) Source).Has L P :=
  ⟨List.forall_mem_nil _, List.forall_mem_nil _⟩

/-- **The fields of a layer have what is read**, whatever its kind. -/
theorem yields_form (h : r.Gives P) (kind : Kind) :
    Yields (r.form kind) fun f => ∀ p ∈ f.fields, p.2.Has L P := by
  cases kind <;> unfold form
  -- field by field; what is left at the end is one fact for each field of the layer
  all_goals
    repeat'
      first
      | with_reducible refine (yields_texts hP _).bind fun _ _ => ?_
      | with_reducible refine (yields_type hP _).bind fun _ _ => ?_
      | with_reducible refine (yields_types hP _).bind fun _ _ => ?_
      | with_reducible refine (yields_child (L := L) h _).bind fun _ _ => ?_
      | with_reducible refine (yields_children (L := L) h _).bind fun _ _ => ?_
      | with_reducible refine (yields_block hP h _).bind fun _ _ => ?_
      | with_reducible refine (yields_variables (L := L) (P := P) _).bind fun _ _ => ?_
      | with_reducible refine (yields_field (yields_pathAt hP h) _).bind fun _ _ => ?_
      | with_reducible refine (yields_params hP h _).bind fun _ _ => ?_
      | with_reducible refine (yields_whens (L := L) h _).bind fun _ _ => ?_
      | with_reducible refine (Yields.trivial _).bind fun _ _ => ?_
  all_goals
    refine .pure ?_
    simp only [Form.fields, List.forall_mem_append, Fields.forall_mem_text, Fields.forall_mem_flag,
      Fields.forall_mem_given]
    repeat' apply And.intro
  all_goals
    first
    | assumption
    | exact fun _ => has_text _
    | exact fun _ => has_flag _
    | exact List.forall_mem_nil _

end

end Reader

/-! ### Trees -/

section

variable {L : Leaf → Prop} {P : Source → Prop} (hP : Layered L P)

include hP

theorem yields_mapping {r : Reader} (h : r.Gives P) (y : Item) : Yields (mapping r y) P := by
  unfold mapping
  simp only
  -- whether there is a kind and whether it is known: what is read after that is sound for any kind
  split
  all_goals refine (Yields.trivial _).bind fun _ _ => ?_
  all_goals split
  all_goals
    refine (Yields.trivial _).bind fun kind _ => (Yields.trivial _).bind fun _ _ => ?_
    refine (Yields.trivial _).bind fun _ _ => (Yields.trivial _).bind fun _ _ => ?_
    refine (Reader.yields_form hP h kind).bind fun f hf => ?_
    exact (Yields.trivial _).bind fun _ _ => .pure (hP.node _ _ hf)

theorem yields_node (file : String) (depth : Nat) (y : Item) : Yields (node file depth y) P := by
  induction depth generalizing y with
  | zero => exact .error _
  | succ depth ih =>
    cases y with
    | sequence m items =>
      rw [node]
      refine (Yields.mapM ih items).bind fun body hbody => .pure (hP.node _ _ ?_)
      simp only [Form.fields, Fields.forall_mem_given]
      intro cs hcs
      split at hcs
      · cases hcs
      · obtain rfl := Option.some.inj hcs
        exact ⟨List.forall_mem_nil _, hbody⟩
    | mapping m entries =>
      rw [node]
      exact yields_mapping hP (r := { file, entries, node := node file depth }) ih _
    | scalar m style s =>
      rw [node]
      exact .error _

/-- **What is read has every layered property**, unless the text is empty. -/
theorem of_decode {read : String → Option (Option (Node Position))} {file text : String} {t : Source}
    (h : Source.decodeBy read file text = .ok t) : t = .node none .nop ∨ P t := by
  unfold Source.decodeBy at h
  split at h
  · exact absurd h nofun
  · exact .inl (Except.ok.inj h).symm
  · exact .inr (yields_node hP _ _ _ t h)

end

/-- That all written types were read is layered. -/
theorem layered_parsed : Layered Leaf.Parsed fun t => ∀ l ∈ t.leaves, l.Parsed where
  listed _ := True.intro
  type h := ⟨_, h⟩
  node _ _ h := Tree.forall_leaves.mpr h
  fields h _ := Tree.forall_leaves.mp h

end Decode

/-- **Every written type of a tree that was read is one that some text is read as.** -/
theorem Source.decode_parsed {read : String → Option (Option (Document.Node Document.Position))} {file text : String}
    {n : Source} (h : Source.decodeBy read file text = .ok n) : ∀ l ∈ n.leaves, l.Parsed := by
  rcases Decode.of_decode Decode.layered_parsed h with rfl | hparsed
  · exact Tree.forall_leaves.mpr nofun
  · exact hparsed

end TypeFlow
