import Mathlib.Data.List.Basic
import TypeFlow.Proofs.Document.Shown
import TypeFlow.Proofs.Tree.Leaves
import TypeFlow.Proofs.TypeExpr.RoundTrip

/-!
# Trees read back

`Source.decode_encode`: a tree that was read is read again, up to its marks, from its written form. What reads and
writes documents is any library that reads back the document written for this tree.

A record is read field by field. `Records r depth fs` ties the entries that the reader `r` stands at to
the fields `fs` that they were written for; there is one rule for each kind of field, saying that its
reader succeeds and gives what was written (`Decode.Returns`), and the readers of the 39 kinds are put together
from them (`Records.form`). Nodes in fields lie less deep, so the whole is an induction on the depth that
the reader is given (`Decode.node_returns`).
-/

namespace TypeFlow

open Document

variable {α β γ δ ε : Type}

/-! ### Parts without marks -/

/-- The variable without its mark. -/
def Variable.bare (v : Variable α) : Variable Unit :=
  Form.mapMarks.variable' (fun _ => ()) v

/-- The path without its mark. -/
def PathRef.bare (p : PathRef α) : PathRef Unit :=
  Form.mapMarks.path' (fun _ => ()) p

/-- The block without its marks. -/
def Block.bare (b : Block α (Tree α)) : Block Unit (Tree Unit) :=
  Form.mapMarks.block' (fun _ => ()) (b.map Tree.bare)

namespace Tree

theorem fold_bare : fold (fun _ form => .node () (form.mapMarks fun _ => ())) = (bare : Tree α → _) :=
  rfl

theorem variable_bare : Form.mapMarks.variable' (fun _ => ()) = (Variable.bare : Variable α → _) :=
  rfl

theorem path_bare : Form.mapMarks.path' (fun _ => ()) = (PathRef.bare : PathRef α → _) :=
  rfl

theorem block_bare : Form.mapMarks.block' (fun _ => ()) ∘ Block.map bare = Block.bare (α := α) :=
  rfl

theorem toNode_ofVariable (v : Variable α) : toNode (ofVariable v) = variableNode v := by
  rw [ofVariable, toNode_node, variableNode]
  by_cases hn : v.name = "" <;> cases ho : v.out <;>
    simp [Form.kind, Form.fields, Fields.text, Fields.flag, fieldNode, plainField, FieldValue.map, hn]

theorem toNode_ofPath (p : PathRef α) :
    toNode (ofPath p) = fieldNode ((FieldValue.path p : FieldValue α (Tree α)).map toNode) := by
  rw [ofPath, toNode_node]
  cases hn : p.names <;> cases ht : p.typeArgs <;>
    simp [Form.kind, Form.fields, Fields.given, fieldNode, plainField, FieldValue.map, hn, ht]

theorem toNode_ofBlock (b : Block α (Tree α)) :
    toNode (ofBlock b) = fieldNode ((FieldValue.block b).map toNode) := by
  rw [ofBlock, toNode_node]
  cases hp : b.params <;> cases hb : b.body <;>
    simp [Form.kind, Form.fields, Fields.given, fieldNode, plainField, plainFields, FieldValue.map,
      Block.map, hp, hb]

/-- Trees that differ in their marks only have layers of one kind. -/
theorem bareForm_of_bare_eq {m : α} {m' : γ} {f : Form α (Tree α)} {f' : Form γ (Tree γ)}
    (h : bare (.node m' f') = bare (.node m f)) : f'.kind = f.kind ∧ bareForm f' = bareForm f := by
  rw [bare_node, bare_node] at h
  injection h with _ h
  exact ⟨by rw [← kind_bareForm f', h, kind_bareForm], h⟩

theorem exists_of_bare_eq_variable {t : Tree γ} {v : Variable α} (h : t.bare = (ofVariable v).bare) :
    ∃ v', t = ofVariable v' ∧ v'.bare = v.bare := by
  obtain ⟨m, f⟩ := t
  obtain ⟨hkind, hform⟩ := bareForm_of_bare_eq h
  match f, hkind with
  | .localVar name out, _ =>
    injection hform with hname hout
    refine ⟨⟨m, name, out⟩, rfl, ?_⟩
    rw [hname, hout]
    rfl

theorem exists_of_bare_eq_path {t : Tree γ} {p : PathRef α} (h : t.bare = (ofPath p).bare) :
    ∃ p', t = ofPath p' ∧ p'.bare = p.bare := by
  obtain ⟨m, f⟩ := t
  obtain ⟨hkind, hform⟩ := bareForm_of_bare_eq h
  match f, hkind with
  | .path names typeArgs, _ =>
    injection hform with hnames htypes
    refine ⟨⟨m, names, typeArgs⟩, rfl, ?_⟩
    rw [hnames, htypes]
    rfl

theorem exists_of_bare_eq_block {t : Tree γ} {b : Block α (Tree α)} (h : t.bare = (ofBlock b).bare) :
    ∃ b', t = ofBlock b' ∧ b'.bare = b.bare := by
  obtain ⟨m, f⟩ := t
  obtain ⟨hkind, hform⟩ := bareForm_of_bare_eq h
  match f, hkind with
  | .block params body, _ =>
    injection hform with hparams hbody
    refine ⟨⟨m, params, body⟩, rfl, ?_⟩
    rw [foldOption_eq, foldOption_eq, fold_bare] at hbody
    simp only [Block.bare, Form.mapMarks.block', Block.map]
    congr 1

end Tree

namespace Decode

/-! ### Readings that succeed -/

/-- The reading succeeds, and gives something with `P`. -/
def Returns (x : Reading α) (P : α → Prop) : Prop :=
  ∃ a, x = .ok a ∧ P a

namespace Returns

variable {P : α → Prop} {Q : β → Prop}

theorem pure {a : α} (h : P a) : Returns (pure a) P :=
  ⟨a, rfl, h⟩

theorem bind {x : Reading α} {f : α → Reading β} (hx : Returns x P) (hf : ∀ a, P a → Returns (f a) Q) :
    Returns (x >>= f) Q := by
  obtain ⟨a, rfl, ha⟩ := hx
  exact hf a ha

theorem imp {P' : α → Prop} {x : Reading α} (hx : Returns x P) (h : ∀ a, P a → P' a) : Returns x P' := by
  obtain ⟨a, ha, hP⟩ := hx
  exact ⟨a, ha, h a hP⟩

theorem map {x : Reading α} {g : α → β} (hx : Returns x P) (hg : ∀ a, P a → Q (g a)) :
    Returns (g <$> x) Q :=
  hx.bind fun a ha => .pure (hg a ha)

theorem ok_bind (a : α) (f : α → Reading β) : (Except.ok a >>= f : Reading β) = f a :=
  rfl

/-- The items of a list that was written are read one by one. -/
theorem mapM {write : γ → Node Unit} {read : Item → Reading δ} {e : δ → ε} {g : γ → ε}
    {items : List Item} {cs : List γ} (hshown : items.map Node.shown = cs.map write)
    (hread : ∀ i ∈ items, ∀ c ∈ cs, i.shown = write c → Returns (read i) fun x => e x = g c) :
    Returns (items.mapM read) fun xs => xs.map e = cs.map g := by
  induction items generalizing cs with
  | nil =>
    obtain rfl : cs = [] := List.map_eq_nil_iff.mp hshown.symm
    exact .pure rfl
  | cons i items ih =>
    cases cs with
    | nil => exact absurd hshown nofun
    | cons c cs =>
      obtain ⟨hi, hitems⟩ := List.cons.inj hshown
      rw [List.mapM_cons]
      refine (hread i List.mem_cons_self c List.mem_cons_self hi).bind fun x hx => ?_
      refine (ih hitems fun j hj d hd => ?_).bind fun xs hxs => .pure ?_
      · exact hread j (List.mem_cons_of_mem _ hj) d (List.mem_cons_of_mem _ hd)
      · rw [List.map_cons, List.map_cons, hx, hxs]

end Returns

/-! ### Records -/

theorem pairs_of_shown {entries : List (Item × Item)} {fs : List (String × Node Unit)}
    (h : (entries.map fun e => (e.1.shown, e.2.shown)) = fs.map fun p => (Tree.textNode p.1, p.2)) :
    (entries.map fun e => (e.1.text, e.2.shown)) = fs := by
  have hmap := congrArg (List.map fun p : Node Unit × Node Unit => (p.1.text, p.2)) h
  rw [List.map_map, List.map_map] at hmap
  have hfs : (fs.map fun p => ((Tree.textNode p.1).text, p.2)) = fs := List.map_id fs
  rw [← hfs]
  simpa only [Function.comp_def, Node.text_shown] using hmap

theorem lookup?_shown (entries : List (Item × Item)) (name : String) :
    (lookup? entries name).map Node.shown =
      ((entries.map fun e => (e.1.text, e.2.shown)).reverse.find? (·.1 == name)).map Prod.snd := by
  rw [lookup?, ← List.map_reverse, List.find?_map, Option.map_map, Option.map_map]
  rfl

theorem mem_of_lookup? {entries : List (Item × Item)} {name : String} {y : Item}
    (h : lookup? entries name = some y) : ∃ k, (k, y) ∈ entries := by
  obtain ⟨⟨k, y'⟩, hfind, rfl⟩ := Option.map_eq_some_iff.mp h
  exact ⟨k, List.mem_reverse.mp (List.mem_of_find?_eq_some hfind)⟩

/-- The reader reads back, at the given depth, trees whose leaves can be. -/
def Reader.ReadsBack (α : Type) (r : Reader) (depth : Nat) : Prop :=
  ∀ (y : Item) (n : Tree α), y.depth ≤ depth → y.shown = n.toNode → (∀ l ∈ n.leaves, l.Parsed) →
    Returns (r.node y) fun n' => n'.bare = n.bare

/-- The entries of the record that is read were written for these fields. -/
structure Records (r : Reader) (depth : Nat) (fs : Fields α (Tree α)) : Prop where
  lookup : ∀ {name : String}, name ≠ "kind" → (lookup? r.entries name).map Node.shown =
    (fs.last? name).map fun v => Tree.fieldNode (v.map Tree.toNode)
  depth_le : ∀ e ∈ r.entries, e.2.depth ≤ depth
  holds : ∀ p ∈ fs, p.2.Holds Leaf.Parsed
  node : r.ReadsBack α depth

/-- A record with its fields as they were written, after its kind if it has one. -/
theorem Records.of_pairs {r : Reader} {depth : Nat} {fs : Fields α (Tree α)}
    (kind : List (String × Node Unit)) (hkind : ∀ p ∈ kind, p.1 = "kind")
    (hpairs : (r.entries.map fun e => (e.1.text, e.2.shown)) =
      kind ++ fs.map fun p => (p.1, Tree.fieldNode (p.2.map Tree.toNode)))
    (hdepth : ∀ e ∈ r.entries, e.2.depth ≤ depth) (hholds : ∀ p ∈ fs, p.2.Holds Leaf.Parsed)
    (hnode : r.ReadsBack α depth) : Records r depth fs := by
  refine ⟨fun {name} hname => ?_, hdepth, hholds, hnode⟩
  have hnone : kind.reverse.find? (·.1 == name) = none := by
    rw [List.find?_eq_none]
    intro p hp
    rw [hkind p (List.mem_reverse.mp hp)]
    simpa using hname.symm
  rw [lookup?_shown, hpairs, List.reverse_append, List.find?_append, hnone, Option.or_none]
  exact Fields.find?_map (fun v => Tree.fieldNode (v.map Tree.toNode)) fs name

namespace Records

variable {r : Reader} {depth : Nat} {fs : Fields α (Tree α)} {name : String}

/-- **A field is read back** if its value is; `inj` puts the value into the field. -/
theorem field (h : Records r depth fs) (hname : name ≠ "kind") {inj : γ → FieldValue α (Tree α)}
    {v : Option γ} (hlast : fs.last? name = v.map inj) {read : Item → Reading δ} {e : δ → ε} {g : γ → ε}
    (hread : ∀ c y, y.depth ≤ depth → y.shown = Tree.fieldNode ((inj c).map Tree.toNode) →
      (inj c).Holds Leaf.Parsed → Returns (read y) fun x => e x = g c) :
    Returns (r.field name read) fun x => x.map e = v.map g := by
  have hlookup := h.lookup hname
  rw [hlast] at hlookup
  unfold Reader.field
  cases v with
  | none =>
    rw [Option.map_none, Option.map_none, Option.map_eq_none_iff] at hlookup
    rw [hlookup]
    exact .pure rfl
  | some c =>
    obtain ⟨y, hy, hshown⟩ := Option.map_eq_some_iff.mp hlookup
    obtain ⟨k, hmem⟩ := mem_of_lookup? hy
    rw [hy]
    refine (hread c y (h.depth_le _ hmem) hshown (h.holds _ (Fields.mem_of_last? hlast))).map ?_
    intro x hx
    rw [Option.map_some, Option.map_some, hx]

theorem list (h : Records r depth fs) (hname : name ≠ "kind") {inj : List γ → FieldValue α (Tree α)}
    {v : Option (List γ)} (hlast : fs.last? name = v.map inj) {w : γ → Node Unit}
    (hwrite : ∀ cs, Tree.fieldNode ((inj cs).map Tree.toNode) = .sequence () (cs.map w))
    {read : Item → Reading δ} {e : δ → ε} {g : γ → ε}
    (hread : ∀ cs, (inj cs).Holds Leaf.Parsed → ∀ y, y.depth ≤ depth → ∀ c ∈ cs, y.shown = w c →
      Returns (read y) fun x => e x = g c) :
    Returns (r.list name read) fun x => x.map (List.map e) = v.map (List.map g) := by
  refine h.field hname hlast fun cs y hy hshown hholds => ?_
  rw [hwrite] at hshown
  obtain ⟨m, items, rfl, hitems⟩ := Node.eq_sequence_of_shown hshown
  refine Returns.mapM hitems fun i hi c hc => hread cs hholds i ?_ c hc
  rw [Node.depth] at hy
  exact Nat.le_trans (Node.depth_le_of_mem hi) (Nat.le_of_succ_le hy)

theorem text (h : Records r depth fs) (hname : name ≠ "kind") {s : String}
    (hlast : fs.last? name = if s ≠ "" then some (.text s) else none) :
    Returns (r.text name) fun x => x = s := by
  have hlast' : fs.last? name = (if s ≠ "" then some s else none).map FieldValue.text := by
    rw [hlast]
    split <;> rfl
  refine (h.field hname hlast' (e := id) (g := id) fun c y _ hshown _ => ?_).map fun x hx => ?_
  · obtain ⟨m, style, rfl, -⟩ := Node.eq_scalar_of_shown hshown
    exact .pure rfl
  · rw [Option.map_id] at hx
    obtain rfl : x = if s ≠ "" then some s else none := hx
    split
    · rfl
    · rename_i hs
      exact (not_not.mp hs).symm

theorem flag (h : Records r depth fs) (hname : name ≠ "kind") {b : Bool}
    (hlast : fs.last? name = if b = true then some (.flag true) else none) :
    Returns (r.flag name) fun x => x = b := by
  have hlast' : fs.last? name = (if b = true then some () else none).map fun _ => FieldValue.flag true := by
    rw [hlast]
    split <;> rfl
  refine (h.field hname hlast' (e := id) (g := fun _ => true) fun c y _ hshown _ => ?_).map fun x hx => ?_
  · obtain ⟨m, style, rfl, hstyle⟩ : ∃ m style, y = .scalar m style "true" ∧
        shownStyle style "true" = .plain := Node.eq_scalar_of_shown hshown
    rw [readBool_of_shown hstyle]
    exact .pure rfl
  · rw [Option.map_id] at hx
    obtain rfl : x = (if b = true then some () else none).map fun _ => true := hx
    cases b <;> rfl

theorem typeAt {y : Item} {t : TypeExpr} (ht : Leaf.Parsed (.type t))
    (hshown : y.shown = Tree.textNode t.render) : Returns (r.typeAt y y.text) fun x => x = t := by
  obtain ⟨s, hs⟩ := ht
  obtain ⟨m, style, rfl, -⟩ := Node.eq_scalar_of_shown hshown
  rw [Node.text, Reader.typeAt, TypeExpr.parse_render hs]
  exact .pure rfl

theorem type (h : Records r depth fs) (hname : name ≠ "kind") {t : Option TypeExpr}
    (hlast : fs.last? name = t.map .type) : Returns (r.type name) fun x => x = t := by
  refine (h.field hname hlast (e := id) (g := id) fun c y _ hshown hholds => ?_).imp fun x hx => ?_
  · exact typeAt (hholds.1 _ List.mem_cons_self) hshown
  · simpa using hx

theorem types (h : Records r depth fs) (hname : name ≠ "kind") {t : Option (List TypeExpr)}
    (hlast : fs.last? name = t.map .types) : Returns (r.types name) fun x => x = t := by
  refine (h.list hname hlast (fun cs => rfl) (e := id) (g := id) fun cs hholds y _ u hu hshown => ?_).imp
    fun x hx => ?_
  · exact typeAt (hholds.1 _ (List.mem_map.mpr ⟨u, hu, rfl⟩)) hshown
  · simpa using hx

theorem texts (h : Records r depth fs) (hname : name ≠ "kind") {x : Option (List String)}
    (hlast : fs.last? name = x.map .texts) : Returns (r.texts name) fun items => items = x := by
  refine (h.field hname hlast (e := id) (g := some) fun ss y _ hshown hholds => ?_).map
    fun item hitem => ?_
  · obtain ⟨m, ys, rfl, hys⟩ := Node.eq_sequence_of_shown hshown
    rw [readTexts, readItems_of_shown hys]
    exact .pure rfl
  · rw [Option.map_id] at hitem
    obtain rfl : item = x.map some := hitem
    cases x <;> rfl

theorem child (h : Records r depth fs) (hname : name ≠ "kind") {c : Option (Tree α)}
    (hlast : fs.last? name = c.map .child) :
    Returns (r.child name) fun x => x.map Tree.bare = c.map Tree.bare :=
  h.field hname hlast fun n y hy hshown hholds =>
    h.node y n hy hshown (hholds.2 n List.mem_cons_self)

theorem children (h : Records r depth fs) (hname : name ≠ "kind") {c : Option (List (Tree α))}
    (hlast : fs.last? name = c.map .children) :
    Returns (r.children name) fun x => x.map (List.map Tree.bare) = c.map (List.map Tree.bare) :=
  h.list hname hlast (fun _ => rfl) fun _ hholds y hy n hn hshown => h.node y n hy hshown (hholds.2 n hn)

theorem block (h : Records r depth fs) (hname : name ≠ "kind") {b : Option (Block α (Tree α))}
    (hlast : fs.last? name = b.map .block) :
    Returns (r.block name) fun x => x.map Block.bare = b.map Block.bare := by
  refine h.field hname hlast fun b y hy hshown hholds => ?_
  have hleaves : ∀ l ∈ (Tree.ofBlock b).leaves, l.Parsed := by
    refine Tree.forall_leaves.mpr ?_
    simp only [Form.fields, List.forall_mem_append, Fields.forall_mem_given]
    refine ⟨fun vs _ => FieldValue.holds_variables _ vs,
      fun c hc => ⟨List.forall_mem_nil _, List.forall_mem_singleton.mpr ?_⟩⟩
    exact hholds.2 c (Option.mem_toList.mpr hc)
  rw [← Tree.toNode_ofBlock] at hshown
  refine (h.node y _ hy hshown hleaves).bind fun t ht => ?_
  obtain ⟨b', rfl, hb'⟩ := Tree.exists_of_bare_eq_block ht
  exact .pure hb'

theorem variableList (h : Records r depth fs) (hname : name ≠ "kind") {v : Option (List (Variable α))}
    (hlast : fs.last? name = v.map .variables) : Returns (r.list name r.variableAt) fun x =>
      x.map (List.map Variable.bare) = v.map (List.map Variable.bare) := by
  refine h.list hname hlast (fun _ => rfl) fun _ _ y hy v _ hshown => ?_
  have hleaves : ∀ l ∈ (Tree.ofVariable v).leaves, l.Parsed := by
    refine Tree.forall_leaves.mpr ?_
    simp only [Form.fields, List.forall_mem_append, Fields.forall_mem_text, Fields.forall_mem_flag]
    exact ⟨fun _ => FieldValue.holds_text _ _, fun _ => FieldValue.holds_flag _ _⟩
  obtain ⟨m, entries, rfl, -⟩ := Node.eq_mapping_of_shown hshown
  rw [← Tree.toNode_ofVariable] at hshown
  refine (h.node _ _ hy hshown hleaves).bind fun t ht => ?_
  obtain ⟨v', rfl, hv'⟩ := Tree.exists_of_bare_eq_variable ht
  exact .pure hv'

theorem path (h : Records r depth fs) (hname : name ≠ "kind") {p : Option (PathRef α)}
    (hlast : fs.last? name = p.map .path) :
    Returns (r.field name r.pathAt) fun x => x.map PathRef.bare = p.map PathRef.bare := by
  refine h.field hname hlast fun p y hy hshown hholds => ?_
  have hleaves : ∀ l ∈ (Tree.ofPath p).leaves, l.Parsed := by
    refine Tree.forall_leaves.mpr ?_
    obtain ⟨hnames, htypes⟩ := List.forall_mem_append.mp hholds.1
    simp only [Form.fields, List.forall_mem_append, Fields.forall_mem_given]
    refine ⟨fun ns hns => ⟨?_, List.forall_mem_nil _⟩, fun ts hts => ⟨?_, List.forall_mem_nil _⟩⟩
    · rwa [show p.names = some ns from hns] at hnames
    · rwa [show p.typeArgs = some ts from hts] at htypes
  obtain ⟨m, entries, rfl, -⟩ := Node.eq_mapping_of_shown hshown
  rw [← Tree.toNode_ofPath] at hshown
  refine (h.node _ _ hy hshown hleaves).bind fun t ht => ?_
  obtain ⟨p', rfl, hp'⟩ := Tree.exists_of_bare_eq_path ht
  exact .pure hp'

theorem refuseUnknown_eq {entries : List (Item × Item)} {known : List String}
    (h : ∀ e ∈ entries, e.1.text ∈ commonNames ++ known) (file what : String) :
    refuseUnknown file entries known what = .ok () := by
  have hnone : (entries.find? fun e => !(commonNames ++ known).contains e.1.text) = none := by
    rw [List.find?_eq_none]
    intro e he
    rw [List.contains_iff_mem.mpr (h e he)]
    exact Bool.false_ne_true
  rw [refuseUnknown, hnone]

/-- A record without a kind is entered, and has no unknown entries. -/
theorem within (h : Records r depth fs) (known : List String) {y : Item} {gs : Fields α (Tree α)}
    (hy : y.depth ≤ depth)
    (hshown : y.shown = Tree.record (gs.map fun p => (p.1, Tree.fieldNode (p.2.map Tree.toNode))))
    (hholds : ∀ p ∈ gs, p.2.Holds Leaf.Parsed) (hknown : ∀ p ∈ gs, p.1 ∈ known) :
    Returns (r.within y) fun r' => Records r' depth gs ∧
      ∀ what, refuseUnknown r'.file r'.entries known what = .ok () := by
  obtain ⟨m, entries, rfl, hentries⟩ := Node.eq_mapping_of_shown hshown
  have hpairs := pairs_of_shown hentries
  refine .pure ⟨.of_pairs [] nofun hpairs (fun e he => ?_) hholds h.node, fun what => ?_⟩
  · rw [Node.depth] at hy
    exact Nat.le_trans (Node.depth_le_of_mem_entries he) (Nat.le_of_succ_le hy)
  · refine refuseUnknown_eq (fun e he => List.mem_append_right _ ?_) _ what
    have hmem : (e.1.text, e.2.shown) ∈ gs.map fun p => (p.1, Tree.fieldNode (p.2.map Tree.toNode)) := by
      rw [← hpairs]
      exact List.mem_map.mpr ⟨e, he, rfl⟩
    obtain ⟨q, hq, heq⟩ := List.mem_map.mp hmem
    rw [← (Prod.mk.inj heq).1]
    exact hknown q hq

theorem params (h : Records r depth fs) (hname : name ≠ "kind") {p : Option (List (Param (Tree α)))}
    (hlast : fs.last? name = p.map .params) : Returns (r.params name) fun x =>
      x.map (List.map (Param.map Tree.bare)) = p.map (List.map (Param.map Tree.bare)) := by
  refine h.list hname hlast (w := fun p : Param (Tree α) =>
    Tree.record ((p.fields : Fields α (Tree α)).map fun q => (q.1, Tree.fieldNode (q.2.map Tree.toNode))))
    (fun ps => ?_) fun ps hholds y hy p hp hshown => ?_
  · simp only [FieldValue.map, Tree.fieldNode, List.map_map, Function.comp_def, Tree.plainFields_param]
  have hfields : ∀ q ∈ (p.fields : Fields α (Tree α)), q.2.Holds Leaf.Parsed := by
    simp only [Param.fields, List.forall_mem_append, Fields.forall_mem_text, Fields.forall_mem_given,
      Fields.forall_mem_flag]
    refine ⟨⟨⟨fun _ => FieldValue.holds_text _ _, fun t ht => ⟨?_, List.forall_mem_nil _⟩⟩,
      fun c hc => ⟨List.forall_mem_nil _, ?_⟩⟩, fun _ => FieldValue.holds_flag _ _⟩
    · refine List.forall_mem_singleton.mpr (hholds.1 _ (List.mem_flatMap.mpr ⟨p, hp, ?_⟩))
      exact List.mem_map.mpr ⟨t, Option.mem_toList.mpr ht, rfl⟩
    · refine List.forall_mem_singleton.mpr (hholds.2 c (List.mem_flatMap.mpr ⟨p, hp, ?_⟩))
      exact Option.mem_toList.mpr hc
  have hknown : ∀ q ∈ (p.fields : Fields α (Tree α)), q.1 ∈ ["name", "restriction", "default", "out"] := by
    simp only [Param.fields, List.forall_mem_append, Fields.forall_mem_text, Fields.forall_mem_given,
      Fields.forall_mem_flag]
    simp
  have hwithin := h.within _ hy hshown hfields hknown
  obtain ⟨m, entries, rfl, -⟩ := Node.eq_mapping_of_shown hshown
  unfold Reader.paramAt
  refine hwithin.bind fun r' hr => ?_
  obtain ⟨hr', hrefuse⟩ := hr
  refine (hr'.text (by decide) (s := p.name) ?_).bind fun x hx => ?_
  · simp [Param.fields, Fields.last?_append, Fields.last?_text, Fields.last?_given, Fields.last?_flag]
  refine (hr'.type (by decide) (t := p.restriction) ?_).bind fun t ht => ?_
  · simp [Param.fields, Fields.last?_append, Fields.last?_text, Fields.last?_given, Fields.last?_flag]
  refine (hr'.child (by decide) (c := p.fallback) ?_).bind fun c hc => ?_
  · simp [Param.fields, Fields.last?_append, Fields.last?_text, Fields.last?_given, Fields.last?_flag]
  refine (hr'.flag (by decide) (b := p.out) ?_).bind fun o ho => ?_
  · simp [Param.fields, Fields.last?_append, Fields.last?_text, Fields.last?_given, Fields.last?_flag]
  rw [hrefuse]
  refine .pure ?_
  rw [Param.map, Param.map, hx, ht, hc, ho]

theorem whens (h : Records r depth fs) (hname : name ≠ "kind") {w : Option (List (When (Tree α)))}
    (hlast : fs.last? name = w.map .whens) : Returns (r.list name r.whenAt) fun x =>
      x.map (List.map (When.map Tree.bare)) = w.map (List.map (When.map Tree.bare)) := by
  refine h.list hname hlast (w := fun w : When (Tree α) =>
    Tree.record ((w.fields : Fields α (Tree α)).map fun q => (q.1, Tree.fieldNode (q.2.map Tree.toNode))))
    (fun ws => ?_) fun ws hholds y hy w hw hshown => ?_
  · simp only [FieldValue.map, Tree.fieldNode, List.map_map, Function.comp_def, Tree.plainFields_when]
  have hfields : ∀ q ∈ (w.fields : Fields α (Tree α)), q.2.Holds Leaf.Parsed := by
    simp only [When.fields, List.forall_mem_append, Fields.forall_mem_given]
    have hcond : ∀ c ∈ w.conds.getD [] ++ w.body.toList, ∀ l ∈ c.leaves, l.Parsed := fun c hc =>
      hholds.2 c (List.mem_flatMap.mpr ⟨w, hw, hc⟩)
    refine ⟨fun cs hcs => ⟨List.forall_mem_nil _, fun c hc => hcond c ?_⟩,
      fun c hc => ⟨List.forall_mem_nil _, List.forall_mem_singleton.mpr (hcond c ?_)⟩⟩
    · rw [show w.conds = some cs from hcs]
      exact List.mem_append_left _ hc
    · exact List.mem_append_right _ (Option.mem_toList.mpr hc)
  have hknown : ∀ q ∈ (w.fields : Fields α (Tree α)), q.1 ∈ ["conds", "body"] := by
    simp only [When.fields, List.forall_mem_append, Fields.forall_mem_given]
    simp
  unfold Reader.whenAt
  refine (h.within _ hy hshown hfields hknown).bind fun r' hr => ?_
  obtain ⟨hr', hrefuse⟩ := hr
  refine (hr'.children (by decide) (c := w.conds) ?_).bind fun cs hcs => ?_
  · simp [When.fields, Fields.last?_append, Fields.last?_given]
  refine (hr'.child (by decide) (c := w.body) ?_).bind fun c hc => ?_
  · simp [When.fields, Fields.last?_append, Fields.last?_given]
  rw [hrefuse]
  refine .pure ?_
  rw [When.map, When.map, hcs, hc]

/-- **A layer is read back**, whatever its kind. -/
theorem form {f : Form α (Tree α)} (h : Records r depth f.fields) :
    Returns (r.form f.kind) fun f' => Tree.bareForm f' = Tree.bareForm f := by
  cases f <;> simp only [Form.kind] <;> unfold Reader.form
  -- field by field; each step leaves open which value stands in the field
  all_goals
    repeat'
      first
      | with_reducible refine (h.text (s := ?_) ?_ ?_).bind fun _ _ => ?_
      | with_reducible refine (h.flag (b := ?_) ?_ ?_).bind fun _ _ => ?_
      | with_reducible refine (h.texts (x := ?_) ?_ ?_).bind fun _ _ => ?_
      | with_reducible refine (h.type (t := ?_) ?_ ?_).bind fun _ _ => ?_
      | with_reducible refine (h.types (t := ?_) ?_ ?_).bind fun _ _ => ?_
      | with_reducible refine (h.child (c := ?_) ?_ ?_).bind fun _ _ => ?_
      | with_reducible refine (h.children (c := ?_) ?_ ?_).bind fun _ _ => ?_
      | with_reducible refine (h.block (b := ?_) ?_ ?_).bind fun _ _ => ?_
      | with_reducible refine (h.variableList (v := ?_) ?_ ?_).bind fun _ _ => ?_
      | with_reducible refine (h.path (p := ?_) ?_ ?_).bind fun _ _ => ?_
      | with_reducible refine (h.params (p := ?_) ?_ ?_).bind fun _ _ => ?_
      | with_reducible refine (h.whens (w := ?_) ?_ ?_).bind fun _ _ => ?_
  any_goals decide
  -- the fields of the layer tell it
  any_goals
    simp only [Form.fields, Fields.last?_append, Fields.last?_text, Fields.last?_given,
      Fields.last?_flag, String.reduceEq, false_and, true_and, if_false, if_true, Option.none_or,
      Option.or_none]
    rfl
  all_goals
    refine .pure ?_
    simp only [Tree.bareForm, Tree.foldForm, Tree.foldOption_eq, Tree.foldMany_eq, Tree.foldBlock_eq,
      Tree.foldParams_eq, Tree.foldWhens_eq, Tree.fold_bare]
    simp only [Form.mapMarks, Option.map_map, Tree.variable_bare, Tree.path_bare, Tree.block_bare, *]

end Records

/-! ### Trees -/

theorem fieldNames_disjoint (k : Kind) : ∀ name ∈ commonNames, name ∉ k.fieldNames := by
  cases k <;> decide

theorem mapping_returns {r : Reader} {depth : Nat} {y : Item} {m : α} {f : Form α (Tree α)}
    (hnode : r.ReadsBack α depth) (hdepth : ∀ e ∈ r.entries, e.2.depth ≤ depth)
    (hpairs : (r.entries.map fun e => (e.1.text, e.2.shown)) = ("kind", Tree.textNode f.kind.tag) ::
      f.fields.map fun p => (p.1, Tree.fieldNode (p.2.map Tree.toNode)))
    (hleaves : ∀ l ∈ (Tree.node m f).leaves, l.Parsed) :
    Returns (mapping r y) fun n' => n'.bare = (Tree.node m f).bare := by
  have hrecords : Records r depth f.fields :=
    .of_pairs [("kind", Tree.textNode f.kind.tag)] (by simp) hpairs hdepth (Tree.forall_leaves.mp hleaves) hnode
  have hnone : ∀ {name : String}, name ∈ commonNames → f.fields.last? name = none := by
    intro name hname
    rw [Option.eq_none_iff_forall_ne_some]
    intro v hv
    exact fieldNames_disjoint f.kind name hname (f.name_mem_fieldNames _ (Fields.mem_of_last? hv))
  have hoverride : ∀ {name : String}, name ∈ commonNames → name ≠ "kind" → ∀ default,
      r.override name default = .ok default := by
    intro name hname hkind default
    have hlookup := hrecords.lookup hkind
    rw [hnone hname, Option.map_none, Option.map_eq_none_iff] at hlookup
    rw [Reader.override, Reader.field, hlookup]
    rfl
  obtain ⟨k, hk, htag⟩ : ∃ k, lookup? r.entries "kind" = some k ∧ k.text = f.kind.tag := by
    have hfields : (f.fields.map fun p => (p.1, Tree.fieldNode (p.2.map Tree.toNode))).reverse.find?
        (·.1 == "kind") = none := by
      rw [← Option.map_eq_none_iff (f := Prod.snd)]
      rw [Fields.find?_map fun v => Tree.fieldNode (v.map Tree.toNode), hnone (by decide), Option.map_none]
    have hlookup := lookup?_shown r.entries "kind"
    rw [hpairs, List.reverse_cons, List.find?_append, hfields] at hlookup
    obtain ⟨k, hk, hshown⟩ := Option.map_eq_some_iff.mp hlookup
    exact ⟨k, hk, by rw [← Node.text_shown, hshown]; rfl⟩
  have hrefuse : ∀ what, refuseUnknown r.file r.entries f.kind.fieldNames what = .ok () := by
    refine fun what => Records.refuseUnknown_eq (fun e he => ?_) _ what
    have hmem : (e.1.text, e.2.shown) ∈ ("kind", Tree.textNode f.kind.tag) ::
        f.fields.map fun p => (p.1, Tree.fieldNode (p.2.map Tree.toNode)) := by
      rw [← hpairs]
      exact List.mem_map.mpr ⟨e, he, rfl⟩
    rcases List.mem_cons.mp hmem with heq | hmem
    · rw [(Prod.mk.inj heq).1]
      exact List.mem_append_left _ (by decide)
    · obtain ⟨q, hq, heq⟩ := List.mem_map.mp hmem
      rw [← (Prod.mk.inj heq).1]
      exact List.mem_append_right _ (f.name_mem_fieldNames q hq)
  unfold mapping
  simp only [hk, htag, Kind.ofTag?_tag, Returns.ok_bind, hoverride (by decide : "line" ∈ commonNames) (by decide),
    hoverride (by decide : "column" ∈ commonNames) (by decide),
    hoverride (by decide : "length" ∈ commonNames) (by decide)]
  refine hrecords.form.bind fun f' hf' => ?_
  rw [hrefuse]
  refine .pure ?_
  rw [Tree.bare_node, Tree.bare_node, hf']

/-- **Every document that shows a written tree is read as the tree**, up to marks. -/
theorem node_returns (file : String) (depth : Nat) :
    ∀ (y : Item) (n : Tree α), y.depth ≤ depth → y.shown = n.toNode → (∀ l ∈ n.leaves, l.Parsed) →
      Returns (node file depth y) fun n' => n'.bare = n.bare := by
  induction depth with
  | zero =>
    intro y n hy
    have hpos := y.depth_pos
    omega
  | succ depth ih =>
    intro y n hy hshown hleaves
    obtain ⟨m, f⟩ := n
    rw [Tree.toNode_node] at hshown
    obtain ⟨p, entries, rfl, hentries⟩ := Node.eq_mapping_of_shown hshown
    rw [node]
    refine mapping_returns (r := { file, entries, node := node file depth }) ih (fun e he => ?_)
      (pairs_of_shown hentries) hleaves
    rw [Node.depth] at hy
    exact Nat.le_trans (Node.depth_le_of_mem_entries he) (Nat.le_of_succ_le_succ hy)

end Decode

/-- **Reading undoes writing.** The written form of a tree that was read is read as the same tree, in every
kind and every field, and so is written as before. Of what reads and writes documents it is only used that the
document of this tree reads back. -/
theorem Source.decode_encode {read : String → Option (Option (Node Position))} {write : Node Unit → String}
    {file text : String} {n : Source} (h : Source.decodeBy read file text = .ok n)
    (hread : ReadsBackBy read write n.toNode) (file' : String) :
    ∃ n', Source.decodeBy read file' (n.encodeBy write) = .ok n' ∧ n'.bare = n.bare ∧
      n'.encodeBy write = n.encodeBy write := by
  obtain ⟨z, hz, hshown⟩ : ∃ z, read (n.encodeBy write) = some (some z) ∧ z.shown = n.toNode := by
    obtain ⟨o, ho, hmap⟩ := Option.map_eq_some_iff.mp hread
    obtain ⟨z, rfl, hz⟩ := Option.map_eq_some_iff.mp hmap
    exact ⟨z, ho, hz⟩
  obtain ⟨n', hn', hbare⟩ :=
    Decode.node_returns file' z.depth z n (Nat.le_refl _) hshown (Source.decode_parsed h)
  refine ⟨n', ?_, hbare, Tree.encodeBy_eq_of_bare_eq write hbare⟩
  unfold Source.decodeBy
  rw [hz]
  exact hn'

/-- A tree is read, with this document. -/
theorem Source.exists_decode {file text : String} {nd : Node Unit}
    (h : ((Source.decode file text).toOption.any fun n => n.toNode = nd) = true) :
    ∃ n, Source.decode file text = .ok n ∧ n.toNode = nd := by
  cases hn : Source.decode file text with
  | error e => rw [hn] at h; exact absurd h nofun
  | ok n =>
    rw [hn] at h
    exact ⟨n, rfl, of_decide_eq_true h⟩

open TypeFlow.Tree (record textNode)

/-- A sequence that is read as its expressions, with an empty list, a name that would be a merge key if it were one of
a mapping, and a type that is written in full. -/
theorem Source.decode_encode_sequence : ∃ n n',
    Source.decode "main.yml" "- \x7bkind: path, names: [], type_args: [T*]\x7d\n- \x7bkind: path, names: [<<]\x7d\n" =
      .ok n ∧ ReadsBack n.toNode ∧ Source.decode "main.yml" n.encode = .ok n' ∧ n'.bare = n.bare ∧
      n'.encode = n.encode := by
  obtain ⟨n, hn, hnode⟩ : ∃ n, Source.decode "main.yml"
      "- \x7bkind: path, names: [], type_args: [T*]\x7d\n- \x7bkind: path, names: [<<]\x7d\n" = .ok n ∧
      n.toNode = record [("kind", textNode "expressions"), ("body", .sequence () [
        record [("kind", textNode "path"), ("names", .sequence () []),
          ("type_args", .sequence () [textNode "Pointer(T)"])],
        record [("kind", textNode "path"), ("names", .sequence () [textNode "<<"])]])] :=
    Source.exists_decode (by decide +kernel)
  have hread : ReadsBack n.toNode := by
    rw [hnode]
    decide +kernel
  obtain ⟨n', hn'⟩ := Source.decode_encode hn hread "main.yml"
  exact ⟨n, n', hn, hread, hn'⟩

end TypeFlow
