import Mathlib.Data.List.Nodup
import TypeFlow.Proofs.Tree.Fields
import TypeFlow.Tree.Expansion

/-!
# Substitution, place by place

A node has places for its children. Some places can hold a variable only, the parameters of a block; all others
count as places for anything, as no variable ever stands where a block or a path belongs. A way down from the root
leads from place to place (`Tree.at?`).

`Tree.Substituted` says what a substitution does at the end of every way: the replacement of a variable is found
there as it is, and where nothing is replaced, a node with the same outline, that is, the same mark, kind, fields and
number of children. No other ways lead anywhere than these and those into a replacement. `Tree.substituted` shows
this of every tree: whatever the kind of a node, its places are read off its fields, and so are those of the
substituted node (`Tree.places_substitute`).
-/

namespace TypeFlow

variable {α : Type}

/-- What a place of a tree can hold. -/
inductive Place where
  | any
  /-- Nothing but a variable. -/
  | binder

/-- The nodes of a field, each with its place. -/
def FieldValue.places : FieldValue α (Tree α) → List (Place × Tree α)
  | .variables items => items.map fun v => (.binder, .ofVariable v)
  | v => (Tree.nodesIn v).map (.any, ·)

/-- The fields of a layer without what they hold of nodes: how many there are stays. -/
def FieldValue.outline : FieldValue α (Tree α) → FieldValue Unit Unit
  | .block _ => .block ⟨(), none, none⟩
  | .path _ => .path ⟨(), none, none⟩
  | .variables items => .variables (items.map fun _ => ⟨(), "", false⟩)
  | v => (v.map fun _ => ()).mapMarks fun _ => ()

/-- Substitutes in the nodes of a field. -/
def FieldValue.substitute (σ : List (String × Tree α)) : FieldValue α (Tree α) → FieldValue α (Tree α)
  | .block b => .block ⟨b.mark, Tree.substituteParams σ b.params, b.body.map (·.substitute σ)⟩
  | .variables items => .variables (items.map (Tree.substituteVariable σ))
  | v => v.map (·.substitute σ)

namespace Tree

/-- The children of a node, each with its place. -/
def places (t : Tree α) : List (Place × Tree α) :=
  t.form.fields.flatMap fun p => p.2.places

/-- A node without its children: its mark, its kind, and its fields as far as they hold no nodes. -/
def outline (t : Tree α) : α × Kind × Fields Unit Unit :=
  (t.mark, t.kind, t.form.fields.mapValues FieldValue.outline)

/-- What stands at the end of a way that starts at a node in its place. -/
def follow (x : Place × Tree α) : List Nat → Option (Place × Tree α)
  | [] => some x
  | i :: way => (x.2.places[i]?).bind (follow · way)

/-- What stands at the end of a way from the root. -/
def at? (t : Tree α) (way : List Nat) : Option (Place × Tree α) :=
  follow (.any, t) way

theorem places_localVar (m : α) (name : String) (out : Bool) :
    places (.node m (.localVar name out)) = [] := by
  have htext : ∀ s, ((Fields.text "name" s : Fields α (Tree α)).flatMap fun p => p.2.places) = [] := by
    intro s
    unfold Fields.text
    split <;> rfl
  have hflag : ((Fields.flag "out" out : Fields α (Tree α)).flatMap fun p => p.2.places) = [] := by
    cases out <;> rfl
  rw [places, form, Form.fields, List.flatMap_append, htext, hflag, List.append_nil]

/-- A node with places is no variable. -/
theorem kind_ne_of_mem_places {t : Tree α} {x : Place × Tree α} (h : x ∈ t.places) : t.kind ≠ .localVar := by
  intro hkind
  obtain ⟨m, f⟩ := t
  match f, hkind with
  | .localVar name out, _ =>
    rw [places_localVar] at h
    cases h

/-! ### Substituting in a layer -/

section

variable {σ : List (String × Tree α)}

theorem substitute_localVar (m : α) (name : String) (out : Bool) :
    substitute σ (.node m (.localVar name out)) = (replacement? σ name).getD (.node m (.localVar name out)) := by
  rw [substitute, fold_node]
  rfl

/-- **A node that is no variable** stays what it is, and the nodes in its fields are substituted in. -/
theorem exists_substitute {t : Tree α} (ht : t.kind ≠ .localVar) :
    ∃ f, t.substitute σ = .node t.mark f ∧ f.kind = t.kind ∧
      f.fields = t.form.fields.mapValues (FieldValue.substitute σ) := by
  obtain ⟨m, f⟩ := t
  have hfold : fold (substituteLayer σ) = substitute σ := rfl
  have htext := Fields.mapValues_text (g := FieldValue.substitute σ) fun _ => rfl
  have hflag := Fields.mapValues_flag (g := FieldValue.substitute σ) fun _ => rfl
  rw [substitute, fold_node]
  cases f with
  | localVar name out => exact absurd rfl ht
  | block ps body =>
    refine ⟨.block (substituteParams σ ps) (body.map (substitute σ)), ?_, rfl, ?_⟩
    · rw [foldForm, substituteLayer, foldOption_eq, hfold]
      rfl
    · simp [form, Form.fields, Fields.given_map, substituteParams, FieldValue.substitute, FieldValue.map]
  | call obj name as b parens =>
    refine ⟨.call (obj.map (substitute σ)) name (as.map (List.map (substitute σ)))
      (b.map fun b => ⟨b.mark, substituteParams σ b.params, b.body.map (substitute σ)⟩) parens, ?_, rfl, ?_⟩
    · rw [foldForm, substituteLayer, foldOption_eq, foldMany_eq, foldBlock_eq, hfold]
      cases b <;> rfl
    · simp [form, Form.fields, Fields.given_map, FieldValue.substitute, FieldValue.map, htext, hflag]
  | _ =>
    refine ⟨foldForm (substituteLayer σ) _, rfl, kind_foldForm _ _, ?_⟩
    simp [form, foldForm, Form.fields, Fields.given_map, FieldValue.substitute, FieldValue.map, hfold, htext, hflag]

/-- What comes to stand in a place. Where only a variable can, nothing else takes its place. -/
def standIn (σ : List (String × Tree α)) : Place → Tree α → Tree α
  | .any, t => t.substitute σ
  | .binder, t =>
    if t.kind = .localVar ∧ (t.substitute σ).kind ≠ .localVar then t else t.substitute σ

theorem standIn_of_ne {place : Place} {t : Tree α} (ht : t.kind ≠ .localVar) :
    standIn σ place t = t.substitute σ := by
  cases place with
  | any => rfl
  | binder => exact if_neg fun h => ht h.1

theorem standIn_ofVariable (v : Variable α) :
    standIn σ .binder (ofVariable v) = ofVariable (substituteVariable σ v) := by
  rw [standIn, ofVariable, substitute_localVar, substituteVariable]
  split
  · rename_i h
    split
    · rename_i hr
      rw [hr] at h
      exact absurd rfl h.2
    · rfl
  · rename_i h
    cases hr : replacement? σ v.name with
    | none => rfl
    | some a =>
      rw [hr] at h
      obtain ⟨m, f⟩ := a
      match f, not_not.mp fun hne => h ⟨rfl, hne⟩ with
      | .localVar name out, _ => rfl


theorem places_ofBlock (b : Block α (Tree α)) : places (ofBlock b) =
    ((b.params.getD []).map fun v => (.binder, ofVariable v)) ++ b.body.toList.map (.any, ·) := by
  rw [places, ofBlock, form, Form.fields, List.flatMap_append]
  cases b.params <;> cases b.body <;> simp [Fields.given, FieldValue.places, nodesIn]

theorem substitute_ofPath (p : PathRef α) : substitute σ (ofPath p) = ofPath p := by
  rw [ofPath, substitute, fold_node]
  rfl

theorem substitute_ofBlock (b : Block α (Tree α)) :
    substitute σ (ofBlock b) = ofBlock ⟨b.mark, substituteParams σ b.params, b.body.map (·.substitute σ)⟩ := by
  rw [ofBlock, substitute, fold_node, foldForm, substituteLayer, foldOption_eq]
  rfl

theorem places_substituteField (v : FieldValue α (Tree α)) :
    (v.substitute σ).places = v.places.map fun x => (x.1, standIn σ x.1 x.2) := by
  cases v with
  | «variables» items => simp [FieldValue.substitute, FieldValue.places, Function.comp_def, standIn_ofVariable]
  | block b => simp [FieldValue.substitute, FieldValue.places, nodesIn, standIn, substitute_ofBlock]
  | path p => simp [FieldValue.substitute, FieldValue.map, FieldValue.places, nodesIn, standIn, substitute_ofPath]
  | params items =>
    simp [FieldValue.substitute, FieldValue.map, FieldValue.places, nodesIn, standIn, Param.map, List.filterMap_map,
      List.map_filterMap, Function.comp_def]
  | whens items =>
    simp only [FieldValue.substitute, FieldValue.map, FieldValue.places, nodesIn, standIn, List.flatMap_map,
      List.map_flatMap, List.map_map, Function.comp_def]
    refine List.flatMap_congr fun w _ => ?_
    cases hc : w.conds <;> cases hb : w.body <;> simp [When.map, hc, hb]
  | _ => simp [FieldValue.substitute, FieldValue.map, FieldValue.places, nodesIn, standIn]

/-- **The places of a node that is no variable** are the same, with what comes to stand there. -/
theorem places_substitute {t : Tree α} (ht : t.kind ≠ .localVar) :
    (t.substitute σ).places = t.places.map fun x => (x.1, standIn σ x.1 x.2) := by
  obtain ⟨f, hf, -, hfields⟩ := exists_substitute (σ := σ) ht
  rw [hf, places, form, hfields, Fields.mapValues, List.flatMap_map, places, List.map_flatMap]
  exact List.flatMap_congr fun p _ => places_substituteField p.2

theorem outline_substitute {t : Tree α} (ht : t.kind ≠ .localVar) : (t.substitute σ).outline = t.outline := by
  obtain ⟨f, hf, hkind, hfields⟩ := exists_substitute (σ := σ) ht
  have hfield : ∀ v : FieldValue α (Tree α), (v.substitute σ).outline = v.outline := by
    intro v
    have hnodes := congrArg (FieldValue.mapMarks fun _ => ()) (FieldValue.map_map (substitute σ) (fun _ => ()) v)
    cases v with
    | «variables» items => simp [FieldValue.substitute, FieldValue.outline, Function.comp_def]
    | block b => rfl
    | path p => rfl
    | _ => exact hnodes
  rw [hf, outline, outline, form, hfields, Fields.mapValues, Fields.mapValues, List.map_map]
  simp only [Function.comp_def, hfield]
  rw [kind, form, hkind]
  rfl

/-! ### Ways down -/

/-- Who follows a way in a tree finds what comes to stand there in the substituted tree. -/
theorem follow_standIn {x y : Place × Tree α} {way : List Nat} (h : follow x way = some y) :
    follow (x.1, standIn σ x.1 x.2) way = some (y.1, standIn σ y.1 y.2) := by
  induction way generalizing x with
  | nil =>
    obtain rfl := Option.some.inj h
    rfl
  | cons i way ih =>
    obtain ⟨z, hz, h⟩ := Option.bind_eq_some_iff.mp h
    have hne := kind_ne_of_mem_places (List.mem_of_getElem? hz)
    rw [follow, standIn_of_ne hne, places_substitute hne, List.getElem?_map, hz]
    exact ih h

theorem at?_substitute {t c : Tree α} {place : Place} {way : List Nat} (h : t.at? way = some (place, c)) :
    (t.substitute σ).at? way = some (place, standIn σ place c) :=
  follow_standIn h

/-- A variable that is replaced as a whole stands at the end of a way. -/
def ReplacedAt (σ : List (String × Tree α)) (x : Place × Tree α) (way : List Nat) : Prop :=
  ∃ m name out, follow x way = some (.any, .node m (.localVar name out)) ∧ (replacement? σ name).isSome

/-- A way in the substituted tree is one in the tree, or leads into a replacement. -/
theorem exists_follow_of_standIn {x : Place × Tree α} {way : List Nat}
    (h : (follow (x.1, standIn σ x.1 x.2) way).isSome) :
    (follow x way).isSome ∨ ∃ first rest, way = first ++ rest ∧ ReplacedAt σ x first := by
  induction way generalizing x with
  | nil => exact .inl rfl
  | cons i way ih =>
    obtain ⟨place, t⟩ := x
    by_cases hne : t.kind ≠ .localVar
    · rw [follow, standIn_of_ne hne, places_substitute hne, List.getElem?_map] at h
      cases hz : t.places[i]? with
      | none =>
        rw [hz] at h
        cases h
      | some z =>
        rw [hz] at h
        have hfollow : ∀ rest, follow (place, t) (i :: rest) = follow z rest := by
          intro rest
          rw [follow, hz]
          rfl
        rw [hfollow]
        refine (ih h).imp_right ?_
        rintro ⟨first, rest, rfl, m, name, out, hfound, hnamed⟩
        exact ⟨i :: first, rest, rfl, m, name, out, (hfollow first).trans hfound, hnamed⟩
    · obtain ⟨m, f⟩ := t
      match f, Classical.not_not.mp hne with
      | .localVar name out, hkind =>
        have hleaf : ∀ m' name' out', follow (α := α) (place, .node m' (.localVar name' out')) (i :: way) = none := by
          intro m' name' out'
          rw [follow, places_localVar]
          rfl
        cases hr : replacement? σ name with
        | none =>
          rw [show standIn σ place (.node m (.localVar name out)) = .node m (.localVar name out) by
            cases place <;> simp [standIn, substitute_localVar, hr], hleaf] at h
          cases h
        | some a =>
          cases place with
          | any => exact .inr ⟨[], i :: way, rfl, m, name, out, rfl, by rw [hr]; rfl⟩
          | binder =>
            -- a variable stands there before and after
            have hvariable := standIn_ofVariable (σ := σ) ⟨m, name, out⟩
            rw [ofVariable, ofVariable] at hvariable
            rw [hvariable, hleaf] at h
            cases h

/-- What a tree becomes if variables are replaced. -/
structure Substituted (σ : List (String × Tree α)) (t t' : Tree α) : Prop where
  /-- In a place for any node, a replacement stands as it is. -/
  replaced : ∀ way m name out a, t.at? way = some (.any, .node m (.localVar name out)) → (name, a) ∈ σ →
    t'.at? way = some (.any, a)
  /-- Where only a variable can stand, a variable takes its place and nothing else does. -/
  bound : ∀ way m name out a, t.at? way = some (.binder, .node m (.localVar name out)) → (name, a) ∈ σ →
    t'.at? way = some (.binder, if a.kind = .localVar then a else .node m (.localVar name out))
  /-- Where nothing is replaced, a node stands with the same outline. -/
  kept : ∀ way place c, t.at? way = some (place, c) →
    (∀ m name out, c = .node m (.localVar name out) → name ∉ σ.map Prod.fst) →
    ∃ c', t'.at? way = some (place, c') ∧ c'.outline = c.outline
  /-- There is nothing else, but what stands in the replacements. -/
  only : ∀ way, (t'.at? way).isSome → (t.at? way).isSome ∨
    ∃ first rest m name out, way = first ++ rest ∧ t.at? first = some (.any, .node m (.localVar name out)) ∧
      name ∈ σ.map Prod.fst

theorem replacement?_eq_none_iff {name : String} : replacement? σ name = none ↔ name ∉ σ.map Prod.fst := by
  rw [replacement?, Option.map_eq_none_iff, List.find?_eq_none, List.mem_map]
  simp only [List.mem_reverse, beq_iff_eq, not_exists, not_and]

theorem mem_of_replacement? {name : String} {a : Tree α} (h : replacement? σ name = some a) : (name, a) ∈ σ := by
  obtain ⟨⟨name', a'⟩, hfind, rfl⟩ := Option.map_eq_some_iff.mp h
  obtain rfl : name' = name := by simpa using List.find?_some hfind
  exact List.mem_reverse.mp (List.mem_of_find?_eq_some hfind)

/-- Of distinct names, each has its own replacement. -/
theorem replacement?_of_mem (hdistinct : (σ.map Prod.fst).Nodup) {name : String} {a : Tree α} (h : (name, a) ∈ σ) :
    replacement? σ name = some a := by
  cases hr : replacement? σ name with
  | none => exact absurd (List.mem_map_of_mem h) (replacement?_eq_none_iff.mp hr)
  | some b => rw [(Prod.mk.inj (List.inj_on_of_nodup_map hdistinct (mem_of_replacement? hr) h rfl)).2]

/-- **Substitution puts replacements in place and changes nothing else.** -/
theorem substituted (hdistinct : (σ.map Prod.fst).Nodup) (t : Tree α) : Substituted σ t (t.substitute σ) where
  replaced := by
    intro way m name out a hway ha
    have hfound := at?_substitute (σ := σ) hway
    rwa [standIn, substitute_localVar, replacement?_of_mem hdistinct ha] at hfound
  bound := by
    intro way m name out a hway ha
    have hfound := at?_substitute (σ := σ) hway
    rw [standIn, substitute_localVar, replacement?_of_mem hdistinct ha, Option.getD_some] at hfound
    by_cases hkind : a.kind = .localVar
    · rw [if_neg fun h => h.2 hkind] at hfound
      rwa [if_pos hkind]
    · rw [if_pos ⟨rfl, hkind⟩] at hfound
      rwa [if_neg hkind]
  kept := by
    intro way place c hway hnone
    refine ⟨_, at?_substitute hway, ?_⟩
    by_cases hne : c.kind ≠ .localVar
    · rw [standIn_of_ne hne, outline_substitute hne]
    · obtain ⟨m, f⟩ := c
      match f, Classical.not_not.mp hne with
      | .localVar name out, _ =>
        have hr := replacement?_eq_none_iff.mpr (hnone m name out rfl)
        cases place <;> simp [standIn, substitute_localVar, hr]
  only := by
    intro way hway
    refine (exists_follow_of_standIn (x := (.any, t)) hway).imp_right ?_
    rintro ⟨first, rest, heq, m, name, out, hfirst, hsome⟩
    refine ⟨first, rest, m, name, out, heq, hfirst, ?_⟩
    by_contra hnone
    rw [replacement?_eq_none_iff.mpr hnone] at hsome
    cases hsome

end

end Tree

end TypeFlow
