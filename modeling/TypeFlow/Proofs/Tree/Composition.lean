import TypeFlow.Proofs.Tree.Positions
import TypeFlow.Tree.Expansion

/-!
# Substitutions one after the other

A substitution whose replacements do not mention the variables of a second one can be done first, and amounts to
both at once (`Tree.substitute_substitute`). So an expansion by substitution can take the parameters of a macro in
several groups, in any order (`Expansion.substitute_laws`).

The proofs go by the nodes in the fields of a layer. `Form.map` changes these, and a layer changes with them only
(`Form.map_congr`); it is what substitution does to all layers but variables, blocks and calls.
-/

namespace TypeFlow

variable {α β γ : Type}

/-! ### Layers -/

/-- Changes the nodes of a layer. -/
def Form.map (g : β → γ) : Form α β → Form α γ
  | .nop => .nop
  | .nilLiteral => .nilLiteral
  | .boolLiteral v => .boolLiteral v
  | .intLiteral v s => .intLiteral v s
  | .floatLiteral v s => .floatLiteral v s
  | .charLiteral v => .charLiteral v
  | .stringLiteral v => .stringLiteral v
  | .symbolLiteral v => .symbolLiteral v
  | .arrayLiteral es of => .arrayLiteral (es.map (List.map g)) of
  | .localVar n o => .localVar n o
  | .instanceVar n o => .instanceVar n o
  | .classVar n => .classVar n
  | .globalVar n => .globalVar n
  | .selfRef => .selfRef
  | .path ns ts => .path ns ts
  | .assign t v => .assign (t.map g) (v.map g)
  | .expressions b => .expressions (b.map (List.map g))
  | .ifElse c t e => .ifElse (c.map g) (t.map g) (e.map g)
  | .unlessElse c t e => .unlessElse (c.map g) (t.map g) (e.map g)
  | .caseOf s ws e => .caseOf (s.map g) (ws.map (List.map (When.map g))) (e.map g)
  | .whileLoop c b => .whileLoop (c.map g) (b.map g)
  | .call o n as b p => .call (o.map g) n (as.map (List.map g)) (b.map (Block.map g)) p
  | .block ps b => .block ps (b.map g)
  | .yieldTo as => .yieldTo (as.map (List.map g))
  | .returnFrom v => .returnFrom (v.map g)
  | .breakOut v => .breakOut (v.map g)
  | .methodDef r n ps t b y => .methodDef r n (ps.map (List.map (Param.map g))) t (b.map g) y
  | .classDef n s ts b => .classDef n s ts (b.map g)
  | .moduleDef n b => .moduleDef n (b.map g)
  | .includeModule m => .includeModule m
  | .isA o t => .isA (o.map g) t
  | .respondsTo o n => .respondsTo (o.map g) n
  | .pointerOf t => .pointerOf (t.map g)
  | .libDef n b => .libDef n (b.map (List.map g))
  | .funDef n r ps t v => .funDef n r (ps.map (List.map (Param.map g))) t v
  | .structDef n u ms => .structDef n u (ms.map (List.map (Param.map g)))
  | .typeDef n t => .typeDef n t
  | .macroDef n ps b => .macroDef n ps (b.map g)
  | .primitive n => .primitive n

namespace Form

theorem map_map {δ : Type} (g : β → γ) (h : γ → δ) (f : Form α β) : (f.map g).map h = f.map (h ∘ g) := by
  have hblock : Block.map h ∘ Block.map g = (Block.map (h ∘ g) : Block α β → _) := by
    funext b
    simp only [Function.comp_apply, Block.map, Option.map_map]
  have hparam : Param.map h ∘ Param.map g = Param.map (h ∘ g) := by
    funext p
    simp only [Function.comp_apply, Param.map, Option.map_map]
  have hwhen : When.map h ∘ When.map g = When.map (h ∘ g) := by
    funext w
    simp only [Function.comp_apply, When.map, Option.map_map, List.map_comp_map]
  cases f <;> simp only [map, Option.map_map, List.map_comp_map, hblock, hparam, hwhen]

theorem map_id (f : Form α β) : f.map id = f := by
  have hblock : Block.map id = (id : Block α β → _) := by
    funext b
    simp only [Block.map, Option.map_id, id]
  have hparam : Param.map id = (id : Param β → _) := by
    funext p
    simp only [Param.map, Option.map_id, id]
  have hwhen : When.map id = (id : When β → _) := by
    funext w
    simp only [When.map, List.map_id_fun, Option.map_id, id]
  cases f <;> simp only [map, List.map_id_fun, Option.map_id, hblock, hparam, hwhen, id]

/-- A layer changes with its nodes only. -/
theorem map_congr {g h : β → γ} {f : Form α β} (heq : ∀ p ∈ f.fields, ∀ c ∈ p.2.nodes, g c = h c) :
    f.map g = f.map h := by
  have hchild : ∀ o : Option β, (∀ x ∈ o, ∀ c ∈ (FieldValue.child x : FieldValue α β).nodes, g c = h c) →
      o.map g = o.map h :=
    fun o ho => Option.map_congr fun x hx => ho x hx x List.mem_cons_self
  have hmany : ∀ o : Option (List β),
      (∀ xs ∈ o, ∀ c ∈ (FieldValue.children xs : FieldValue α β).nodes, g c = h c) →
      o.map (List.map g) = o.map (List.map h) :=
    fun o ho => Option.map_congr fun xs hxs => FieldValue.children.inj (FieldValue.map_congr (ho xs hxs))
  have hblock : ∀ o : Option (Block α β), (∀ b ∈ o, ∀ c ∈ (FieldValue.block b).nodes, g c = h c) →
      o.map (Block.map g) = o.map (Block.map h) :=
    fun o ho => Option.map_congr fun b hb => FieldValue.block.inj (FieldValue.map_congr (ho b hb))
  have hparams : ∀ o : Option (List (Param β)),
      (∀ ps ∈ o, ∀ c ∈ (FieldValue.params ps : FieldValue α β).nodes, g c = h c) →
      o.map (List.map (Param.map g)) = o.map (List.map (Param.map h)) :=
    fun o ho => Option.map_congr fun ps hps => FieldValue.params.inj (FieldValue.map_congr (ho ps hps))
  have hwhens : ∀ o : Option (List (When β)),
      (∀ ws ∈ o, ∀ c ∈ (FieldValue.whens ws : FieldValue α β).nodes, g c = h c) →
      o.map (List.map (When.map g)) = o.map (List.map (When.map h)) :=
    fun o ho => Option.map_congr fun ws hws => FieldValue.whens.inj (FieldValue.map_congr (ho ws hws))
  cases f <;>
    simp only [fields, List.forall_mem_append, Fields.forall_mem_given, Fields.forall_mem_text,
      Fields.forall_mem_flag] at heq <;>
    grind [map]

end Form

namespace Tree

theorem foldForm_eq (layer : α → Form α β → β) (f : Form α (Tree α)) : foldForm layer f = f.map (fold layer) := by
  cases f <;> rw [foldForm] <;> simp only [Form.map, foldOption_eq, foldMany_eq, foldBlock_eq, foldParams_eq,
    foldWhens_eq]

variable {σ τ : List (String × Tree α)}

/-! ### What a substitution leaves as it is -/

/-- A variable of a name occurs in a tree, in whatever place. -/
def Mentions (t : Tree α) (name : String) : Prop :=
  ∃ way place m out, t.at? way = some (place, .node m (.localVar name out))

theorem mentions_of_mem_places {t : Tree α} {x : Place × Tree α} {name : String} (hx : x ∈ t.places)
    (h : x.2.Mentions name) : t.Mentions name := by
  obtain ⟨way, place, m, out, hway⟩ := h
  obtain ⟨i, hi⟩ := List.mem_iff_getElem?.mp hx
  have hstep : ∀ rest, t.at? (i :: rest) = follow x rest := by
    intro rest
    rw [at?, follow, hi]
    rfl
  obtain ⟨p, c⟩ := x
  cases way with
  | nil =>
    obtain ⟨-, rfl⟩ := Prod.mk.inj (Option.some.inj hway)
    exact ⟨[i], p, m, out, hstep []⟩
  | cons j way => exact ⟨i :: j :: way, place, m, out, (hstep _).trans hway⟩

/-- Variables are mentioned in the places of a node, unless it is one itself. -/
theorem mentions_iff {t : Tree α} {name : String} : t.Mentions name ↔
    (∃ m out, t = .node m (.localVar name out)) ∨ ∃ x ∈ t.places, x.2.Mentions name := by
  refine ⟨fun ⟨way, place, m, out, hway⟩ => ?_, ?_⟩
  · cases way with
    | nil => exact .inl ⟨m, out, (Prod.mk.inj (Option.some.inj hway)).2⟩
    | cons i way =>
      obtain ⟨x, hx, hway⟩ := Option.bind_eq_some_iff.mp hway
      refine .inr ⟨x, List.mem_of_getElem? hx, ?_⟩
      cases way with
      | nil =>
        obtain rfl : x = (place, .node m (.localVar name out)) := Option.some.inj hway
        exact ⟨[], .any, m, out, rfl⟩
      | cons j way => exact ⟨j :: way, place, m, out, hway⟩
  · rintro (⟨m, out, rfl⟩ | ⟨x, hx, h⟩)
    · exact ⟨[], .any, m, out, rfl⟩
    · exact mentions_of_mem_places hx h

theorem mentions_localVar (m : α) (name : String) (out : Bool) : (node m (.localVar name out)).Mentions name :=
  ⟨[], .any, m, out, rfl⟩

/-- A tree mentions what its nodes mention. -/
theorem mentions_of_mem_nodes {m : α} {f : Form α (Tree α)} {p : String × FieldValue α (Tree α)} {c : Tree α}
    (hp : p ∈ f.fields) (hc : c ∈ p.2.nodes) {name : String} (h : c.Mentions name) : (node m f).Mentions name := by
  have hplaces : ∀ x ∈ p.2.places, x ∈ (node m f).places := fun x hx => List.mem_flatMap.mpr ⟨p, hp, hx⟩
  obtain ⟨field, v⟩ := p
  have hdirect : (.any, c) ∈ v.places → (node m f).Mentions name := fun hx => mentions_of_mem_places (hplaces _ hx) h
  cases v with
  | block b =>
    -- the nodes of a block are the children of a child
    refine mentions_of_mem_places (hplaces (.any, ofBlock b) List.mem_cons_self) ?_
    refine mentions_of_mem_places (x := (.any, c)) ?_ h
    rw [places_ofBlock]
    exact List.mem_append_right _ (List.mem_map_of_mem hc)
  | params items =>
    refine hdirect (List.mem_map_of_mem ?_)
    obtain ⟨q, hq, hc⟩ := List.mem_flatMap.mp hc
    exact List.mem_filterMap.mpr ⟨q, hq, Option.mem_toList.mp hc⟩
  | «variables» items => cases hc
  | path p => cases hc
  | _ => exact hdirect (List.mem_map_of_mem hc)

theorem mentions_of_mem_params {m : α} {ps : List (Variable α)} {body : Option (Tree α)} {v : Variable α}
    (hv : v ∈ ps) : (node m (.block (some ps) body)).Mentions v.name := by
  refine mentions_of_mem_places (x := (.binder, ofVariable v)) ?_ (mentions_localVar v.mark v.name v.out)
  rw [show node m (.block (some ps) body) = ofBlock ⟨m, some ps, body⟩ from rfl, places_ofBlock]
  exact List.mem_append_left _ (List.mem_map_of_mem hv)

/-- Parameters that are not replaced stay. -/
theorem substituteParams_eq_self {m : α} {ps : Option (List (Variable α))} {body : Option (Tree α)}
    (h : ∀ name, (node m (.block ps body)).Mentions name → replacement? σ name = none) :
    substituteParams σ ps = ps := by
  cases ps with
  | none => rfl
  | some vs =>
    refine congrArg some ((List.map_congr_left fun v hv => ?_).trans (List.map_id vs))
    rw [substituteVariable, h v.name (mentions_of_mem_params hv)]
    rfl

/-- **A tree that mentions nothing that is replaced** stays as it is. -/
theorem substitute_eq_self {t : Tree α} (h : ∀ name, t.Mentions name → replacement? σ name = none) :
    t.substitute σ = t := by
  induction t using Tree.induction with
  | node m f ih =>
    have hnodes : f.map (substitute σ) = f := by
      refine (Form.map_congr fun p hp c hc => ?_).trans f.map_id
      exact ih p hp c hc fun name hname => h name (mentions_of_mem_nodes hp hc hname)
    rw [substitute, fold_node, foldForm_eq]
    change substituteLayer σ m (f.map (substitute σ)) = _
    rw [hnodes]
    cases f with
    | localVar name out =>
      rw [substituteLayer, h name (mentions_localVar m name out)]
      rfl
    | block ps body => rw [substituteLayer, substituteParams_eq_self h]
    | call obj name as b parens =>
      cases b with
      | none => rfl
      | some b =>
        have hblock : substituteParams σ b.params = b.params := by
          refine substituteParams_eq_self fun name (hname : (ofBlock b).Mentions name) => h name ?_
          refine mentions_of_mem_places (x := (.any, ofBlock b)) ?_ hname
          exact List.mem_flatMap.mpr ⟨("block", .block b), by simp [form, Form.fields, Fields.given], List.mem_cons_self⟩
        rw [substituteLayer, Option.map_some, hblock]
    | _ => rfl

/-! ### Composition -/

theorem replacement?_append (name : String) :
    replacement? (τ ++ σ) name = (replacement? σ name).or (replacement? τ name) := by
  rw [replacement?, List.reverse_append, List.find?_append, replacement?, replacement?]
  cases σ.reverse.find? fun x => x.1 == name <;> rfl

/-- Only what the names are replaced with counts. -/
theorem substitute_congr (h : ∀ name, replacement? σ name = replacement? τ name) (t : Tree α) :
    t.substitute σ = t.substitute τ := by
  have hsame : replacement? σ = replacement? τ := funext h
  have hvariable : substituteVariable σ = substituteVariable τ := by
    funext v
    rw [substituteVariable, hsame]
    rfl
  have hlayer : substituteLayer σ = substituteLayer τ := by
    funext m f
    simp only [substituteLayer, substituteParams, hvariable, hsame]
  rw [substitute, substitute, hlayer]

theorem substituteVariable_of_localVar {v : Variable α} {m : α} {name : String} {out : Bool}
    (h : replacement? σ v.name = some (.node m (.localVar name out))) : substituteVariable σ v = ⟨m, name, out⟩ := by
  rw [substituteVariable, h]

theorem substituteVariable_of_ne {v : Variable α}
    (h : ∀ m name out, replacement? σ v.name ≠ some (.node m (.localVar name out))) : substituteVariable σ v = v := by
  unfold substituteVariable
  split
  · rename_i hr
    exact absurd hr (h _ _ _)
  · rfl

section

variable (hnames : ∀ name a, replacement? σ name = some a → replacement? τ name = none)
  (hargs : ∀ name a, replacement? σ name = some a → a.substitute τ = a)

include hnames hargs

theorem substituteVariable_substituteVariable (v : Variable α) :
    substituteVariable τ (substituteVariable σ v) = substituteVariable (τ ++ σ) v := by
  have happend := replacement?_append (τ := τ) (σ := σ) v.name
  by_cases hvar : ∃ m name out, replacement? σ v.name = some (.node m (.localVar name out))
  · obtain ⟨m, name, out, ha⟩ := hvar
    rw [ha, Option.some_or] at happend
    rw [substituteVariable_of_localVar ha, substituteVariable_of_localVar happend]
    -- what takes the place of the parameter stays there
    have hstays := hargs _ _ ha
    rw [substitute_localVar] at hstays
    cases hr : replacement? τ name with
    | none => exact substituteVariable_of_ne fun _ _ _ h => nomatch hr.symm.trans h
    | some b =>
      rw [hr, Option.getD_some] at hstays
      exact substituteVariable_of_localVar (hstays ▸ hr)
  · rw [substituteVariable_of_ne fun m name out h => hvar ⟨m, name, out, h⟩]
    cases ha : replacement? σ v.name with
    | none =>
      rw [ha, Option.none_or] at happend
      rw [substituteVariable, substituteVariable, happend]
    | some a =>
      rw [ha, Option.some_or] at happend
      have hboth : substituteVariable (τ ++ σ) v = v := substituteVariable_of_ne fun m name out h =>
        hvar ⟨m, name, out, ha.trans (happend.symm.trans h)⟩
      have hlast : substituteVariable τ v = v :=
        substituteVariable_of_ne fun _ _ _ h => nomatch (hnames _ _ ha).symm.trans h
      rw [hlast, hboth]

theorem substituteParams_substituteParams (ps : Option (List (Variable α))) :
    substituteParams τ (substituteParams σ ps) = substituteParams (τ ++ σ) ps := by
  simp only [substituteParams, Option.map_map, List.map_comp_map]
  congr 2
  funext v
  exact substituteVariable_substituteVariable hnames hargs v

/-- **One substitution after the other** is both at once, if the second one leaves alone what the first one puts
in. -/
theorem substitute_substitute (t : Tree α) : (t.substitute σ).substitute τ = t.substitute (τ ++ σ) := by
  induction t using Tree.induction with
  | node m f ih =>
    have hnodes : (f.map (substitute σ)).map (substitute τ) = f.map (substitute (τ ++ σ)) :=
      (Form.map_map _ _ f).trans (Form.map_congr ih)
    have hlayer : ∀ (ρ : List (String × Tree α)) (m : α) (f : Form α (Tree α)),
        substitute ρ (.node m f) = substituteLayer ρ m (f.map (substitute ρ)) := by
      intro ρ m f
      rw [substitute, fold_node, foldForm_eq]
    have hparams := substituteParams_substituteParams hnames hargs
    rw [hlayer σ, hlayer (τ ++ σ), ← hnodes]
    cases f with
    | localVar name out =>
      rw [Form.map, Form.map, substituteLayer, substituteLayer, replacement?_append]
      cases ha : replacement? σ name with
      | none =>
        rw [Option.getD_none, Option.none_or, substitute_localVar]
      | some a => exact hargs name a ha
    | block ps body =>
      simp only [Form.map, substituteLayer]
      rw [hlayer, Form.map, substituteLayer, hparams]
    | call obj name as b parens =>
      simp only [Form.map, substituteLayer]
      rw [hlayer, Form.map, substituteLayer]
      cases b with
      | none => rfl
      | some b =>
        simp only [Option.map_some, Block.map, hparams]
    | _ => exact hlayer τ m _

end

theorem map_fst_zip {names : List String} {args : List (Tree α)} (h : args.length = names.length) :
    (names.zip args).map Prod.fst = names :=
  List.map_fst_zip (Nat.le_of_eq h.symm)

/-- The replacements of a first group of names that mention none of a second group can be put in before those of the
second group. -/
theorem substitute_zip_append {ps qs : List String} {as bs : List (Tree α)} (hps : as.length = ps.length)
    (hqs : bs.length = qs.length) (hdistinct : (ps ++ qs).Nodup) (t : Tree α) :
    ((∀ a ∈ as, ∀ q ∈ qs, ¬ a.Mentions q) →
      t.substitute ((ps ++ qs).zip (as ++ bs)) = (t.substitute (ps.zip as)).substitute (qs.zip bs)) ∧
    ((∀ b ∈ bs, ∀ p ∈ ps, ¬ b.Mentions p) →
      t.substitute ((ps ++ qs).zip (as ++ bs)) = (t.substitute (qs.zip bs)).substitute (ps.zip as)) := by
  obtain ⟨-, -, hapart⟩ := List.nodup_append.mp hdistinct
  have hnone : ∀ {names : List String} {args : List (Tree α)}, args.length = names.length → ∀ name,
      replacement? (names.zip args) name = none ↔ name ∉ names := by
    intro names args h name
    rw [replacement?_eq_none_iff, map_fst_zip h]
  have hmem : ∀ {names : List String} {args : List (Tree α)} {name : String} {a : Tree α},
      replacement? (names.zip args) name = some a → name ∈ names ∧ a ∈ args := fun h =>
    List.of_mem_zip (mem_of_replacement? h)
  rw [List.zip_append hps.symm]
  refine ⟨fun hfree => ?_, fun hfree => ?_⟩
  · -- the names are distinct, so it does not matter which of the replacements come last
    have hswap : ∀ name, replacement? (ps.zip as ++ qs.zip bs) name = replacement? (qs.zip bs ++ ps.zip as) name := by
      intro name
      rw [replacement?_append, replacement?_append]
      by_cases hp : name ∈ ps
      · rw [(hnone hqs name).mpr fun hq => hapart name hp name hq rfl, Option.none_or, Option.or_none]
      · rw [(hnone hps name).mpr hp, Option.none_or, Option.or_none]
    rw [substitute_congr hswap]
    refine (substitute_substitute (fun name a ha => ?_) (fun name a ha => ?_) t).symm
    · exact (hnone hqs name).mpr fun hq => hapart name (hmem ha).1 name hq rfl
    · exact substitute_eq_self fun n hn => (hnone hqs n).mpr fun hq => hfree a (hmem ha).2 n hq hn
  · refine (substitute_substitute (fun name a ha => ?_) (fun name a ha => ?_) t).symm
    · exact (hnone hps name).mpr fun hp => hapart name hp name (hmem ha).1 rfl
    · exact substitute_eq_self fun n hn => (hnone hps n).mpr fun hp => hfree a (hmem ha).2 n hp hn

end Tree

namespace Expansion

/-- The expansion of a macro with a body for as many arguments as it has parameters. -/
theorem substitute_of_body {c : Call} {names : List String} {body : Source} (hnames : c.params.getD [] = names)
    (hlength : c.args.length = names.length) (hbody : c.body = some body) :
    substitute c = .ok (body.substitute (names.zip c.args)) := by
  simp only [substitute, hnames, hlength, ne_eq, not_true_eq_false, if_false, hbody]

/-- **Macros are expanded by simultaneous substitution**, which fails for another number of arguments than there are
parameters, and makes nil of a macro without body. Parameters of distinct names can be taken in two groups, one
after the other in either order, as long as no argument mentions a parameter of the group that comes after its
own. -/
theorem substitute_laws (c : Call) :
    let names := c.params.getD []
    (c.args.length ≠ names.length → substitute c = .error ("wrong number of arguments for macro '" ++ c.name ++
      "' (" ++ toString c.args.length ++ " for " ++ toString names.length ++ ")")) ∧
    (c.args.length = names.length → c.body = none → substitute c = .ok (.node none .nilLiteral)) ∧
    ∀ body, c.args.length = names.length → names.Nodup → c.body = some body →
      ∃ out, substitute c = .ok out ∧ Tree.Substituted (names.zip c.args) body out ∧
        ∀ ps qs as bs, names = ps ++ qs → c.args = as ++ bs → as.length = ps.length →
          ((∀ a ∈ as, ∀ q ∈ qs, ¬ a.Mentions q) →
            (do
              let first ← substitute { c with params := some ps, args := as }
              substitute { c with params := some qs, args := bs, body := some first }) = .ok out) ∧
          ((∀ b ∈ bs, ∀ p ∈ ps, ¬ b.Mentions p) →
            (do
              let first ← substitute { c with params := some qs, args := bs }
              substitute { c with params := some ps, args := as, body := some first }) = .ok out) := by
  intro names
  refine ⟨fun hlength => ?_, fun hlength hbody => ?_, fun body hlength hdistinct hbody => ?_⟩
  · simp only [substitute]
    rw [if_pos hlength]
  · simp only [substitute]
    rw [if_neg (not_not.mpr hlength), hbody]
  · refine ⟨_, substitute_of_body rfl hlength hbody, Tree.substituted ?_ body, fun ps qs as bs hnames hargs hps => ?_⟩
    · rwa [Tree.map_fst_zip hlength]
    · have hqs : bs.length = qs.length := by
        rw [hnames, hargs, List.length_append, List.length_append] at hlength
        omega
      obtain ⟨hfirst, hlast⟩ := Tree.substitute_zip_append hps hqs (hnames ▸ hdistinct) body
      have hout : names.zip c.args = (ps ++ qs).zip (as ++ bs) := by rw [hnames, hargs]
      have hgroup : ∀ (ps : List String) (as : List Source) (body? : Option Source) (body : Source),
          as.length = ps.length → body? = some body →
          substitute { c with params := some ps, args := as, body := body? } = .ok (body.substitute (ps.zip as)) :=
        fun ps as body? body hlength hbody => substitute_of_body rfl hlength hbody
      refine ⟨fun hfree => ?_, fun hfree => ?_⟩
      · rw [hgroup ps as c.body body hps hbody, hout, hfirst hfree]
        exact hgroup qs bs _ _ hqs rfl
      · rw [hgroup qs bs c.body body hqs hbody, hout, hlast hfree]
        exact hgroup ps as _ _ hps rfl

/-- A call of a macro with two parameters, which are also those of a block in its body. -/
def pairing : Call where
  name := "pairing"
  params := some ["a", "b"]
  args := [.node none (.localVar "x" false), .node none (.intLiteral "1" "")]
  body := some (.node none (.expressions (some [.node none (.localVar "a" false),
    .node none (.call none "each" none
      (some ⟨none, some [⟨none, "a", false⟩, ⟨none, "b", false⟩], some (.node none (.localVar "b" false))⟩) true)])))

/-- The variable takes the place of the first parameter everywhere, and the number that of the second one, but not among
the parameters of the block. The parameters can be taken one by one. -/
theorem substitute_laws_pairing : ∃ out, substitute pairing = .ok out ∧
    out.at? [0] = some (.any, .node none (.localVar "x" false)) ∧
    out.at? [1, 0, 0] = some (.binder, .node none (.localVar "x" false)) ∧
    out.at? [1, 0, 1] = some (.binder, .node none (.localVar "b" false)) ∧
    out.at? [1, 0, 2] = some (.any, .node none (.intLiteral "1" "")) ∧
    (do
      let first ← substitute { pairing with params := some ["a"], args := pairing.args.take 1 }
      substitute { pairing with params := some ["b"], args := pairing.args.drop 1, body := some first }) = .ok out ∧
    (do
      let first ← substitute { pairing with params := some ["b"], args := pairing.args.drop 1 }
      substitute { pairing with params := some ["a"], args := pairing.args.take 1, body := some first }) = .ok out := by
  obtain ⟨-, -, hbody⟩ := substitute_laws pairing
  obtain ⟨out, hout, hplaces, hgroups⟩ := hbody _ rfl (by decide) rfl
  obtain ⟨hfirst, hlast⟩ := hgroups ["a"] ["b"] (pairing.args.take 1) (pairing.args.drop 1) rfl rfl rfl
  have hleaf : ∀ {t : Source} {name : String}, t.places = [] → (∀ m out, t ≠ .node m (.localVar name out)) →
      ¬ t.Mentions name := by
    intro t name hplaces hne hmentions
    rcases Tree.mentions_iff.mp hmentions with ⟨m, out, rfl⟩ | ⟨x, hx, -⟩
    · exact hne m out rfl
    · rw [hplaces] at hx
      cases hx
  have hx : ("a", .node none (.localVar "x" false)) ∈ ["a", "b"].zip pairing.args := List.mem_cons_self
  have hone : ("b", .node none (.intLiteral "1" "")) ∈ ["a", "b"].zip pairing.args :=
    List.mem_cons_of_mem _ List.mem_cons_self
  refine ⟨out, hout, hplaces.replaced [0] none "a" false _ rfl hx, hplaces.bound [1, 0, 0] none "a" false _ rfl hx,
    hplaces.bound [1, 0, 1] none "b" false _ rfl hone, hplaces.replaced [1, 0, 2] none "b" false _ rfl hone,
    hfirst fun a ha q hq => ?_, hlast fun b hb p hp => ?_⟩
  · obtain rfl := List.mem_singleton.mp ha
    obtain rfl := List.mem_singleton.mp hq
    exact hleaf rfl (by simp)
  · obtain rfl := List.mem_singleton.mp hb
    obtain rfl := List.mem_singleton.mp hp
    exact hleaf rfl (by simp)

end Expansion

end TypeFlow
