import TypeFlow.Proofs.Inference.Typing
import TypeFlow.Proofs.Tree.Substitution

/-!
# Expansions of macro calls

A macro call is expanded once: calls that are written the same way share the expansion of the first of them
(`expansionAt_shared`). What they share is what the first call expanded to by the macro that was the latest of its
name then. So a call is expanded as if nothing were remembered if its macro has not been declared differently
before; one that is declared anew leaves the expansions of the old one in force
(`Session.expansion_of_redeclared`).

Calls are told apart by a text in which NUL stands between the name and the written arguments. Written arguments
hold no NUL (`Tree.nul_notMem_encode`), so the text determines them if the names of macros hold none either
(`expansionKey_eq_iff`).
-/

namespace TypeFlow

open Document

namespace Infer

/-! ### Keys -/

variable {name name' : String} {args args' : List Source}

theorem toList_expansionKey (name : String) (args : List Source) :
    (expansionKey name args).toList = [nul].intercalate (name.toList :: args.map (Tree.encode · |>.toList)) := by
  induction args generalizing name with
  | nil => simp [expansionKey]
  | cons a args ih =>
    have hstep : expansionKey name (a :: args) = expansionKey (name ++ "\x00" ++ a.encode) args := rfl
    rw [hstep, ih, String.toList_append, String.toList_append, List.map_cons, List.intercalate_cons_cons]
    cases args with
    | nil => simp [nul]
    | cons b args =>
      rw [List.map_cons, List.intercalate_cons_cons, List.intercalate_cons_cons]
      simp [nul]

/-- The parts of a key are found again in it. -/
theorem splitOn_expansionKey (hname : nul ∉ name.toList) (args : List Source) :
    (expansionKey name args).toList.splitOn nul = name.toList :: args.map (Tree.encode · |>.toList) := by
  rw [toList_expansionKey]
  refine List.splitOn_intercalate nul (fun l hl => ?_) (List.cons_ne_nil _ _)
  rcases List.mem_cons.mp hl with rfl | hl
  · exact hname
  · obtain ⟨a, -, rfl⟩ := List.mem_map.mp hl
    exact a.nul_notMem_encode

/-- **A key determines the name and the written arguments** of a call. -/
theorem expansionKey_eq_iff (hname : nul ∉ name.toList) (hname' : nul ∉ name'.toList) :
    expansionKey name args = expansionKey name' args' ↔
      name = name' ∧ args.map Tree.encode = args'.map Tree.encode := by
  constructor
  · intro h
    have hsplit := congrArg (fun key => key.toList.splitOn nul) h
    simp only [splitOn_expansionKey hname, splitOn_expansionKey hname'] at hsplit
    injection hsplit with hhead htail
    refine ⟨String.toList_injective hhead, List.map_injective_iff.mpr (fun _ _ => String.toList_injective) ?_⟩
    rw [List.map_map, List.map_map]
    exact htail
  · rintro ⟨rfl, h⟩
    refine String.toList_injective ?_
    rw [toList_expansionKey, toList_expansionKey]
    have hlists := congrArg (List.map String.toList) h
    rw [List.map_map, List.map_map] at hlists
    exact congrArg (fun l => [nul].intercalate (name.toList :: l)) hlists

/-! ### Runs -/

variable {p p' q : Program} {loc : Option Location} {c c' : Expansion.Call} {x : Expanded}

/-- The program after the expansion of a call is remembered. -/
def remember (p : Program) (c : Expansion.Call) (x : Expanded) : Program :=
  { p with env := { p.env with expansions := (expansionKey c.name c.args, x) :: p.env.expansions } }

/-- By substitution, a call is expanded to what is remembered, or else afresh. -/
theorem run_expansionAt (hexpander : p.env.expander = .substitute) (loc : Option Location) (c : Expansion.Call) :
    (expansionAt loc c).run.run p =
      match assoc? p.env.expansions (expansionKey c.name c.args), Expansion.fresh c with
      | some x, _ => (.ok x, p)
      | none, .ok x => (.ok x, remember p c x)
      | none, .error f => (.error (.expanding loc c.name "" f), p) := by
  have hcall : (expandCall c).run.run p = (.ok ((Expansion.substitute c).mapError .plain), p) := by
    unfold expandCall
    rw [run_env_bind, hexpander]
    rfl
  have hexpand : (expand c).run.run p =
      match assoc? p.env.expansions (expansionKey c.name c.args), Expansion.fresh c with
      | some x, _ => (.ok (.ok x), p)
      | none, .ok x => (.ok (.ok x), remember p c x)
      | none, .error f => (.ok (.error f), p) := by
    unfold expand
    rw [run_env_bind]
    cases assoc? p.env.expansions (expansionKey c.name c.args) with
    | some x => rfl
    | none =>
      simp only
      rw [Flow.run_bind_of_ok hcall, ← Expansion.fresh]
      cases Expansion.fresh c <;> rfl
  unfold expansionAt
  rw [run_env_bind, hexpander]
  simp only
  cases hx : assoc? p.env.expansions (expansionKey c.name c.args) with
  | some x =>
    rw [hx] at hexpand
    rw [Flow.run_bind_of_ok hexpand]
    rfl
  | none =>
    rw [hx] at hexpand
    cases hfresh : Expansion.fresh c <;>
      (rw [hfresh] at hexpand; rw [Flow.run_bind_of_ok hexpand]; rfl)

/-- What is read again is fixed by what is written. -/
theorem normalize_eq {t t' : Source} (h : t.encode = t'.encode) : normalize name t = normalize name t' := by
  unfold normalize
  rw [h]

/-- What goes on from a written tree is fixed by what is written. -/
theorem bind_eq_of_encode {k : Source → Except Failure Expanded} (hk : ∀ t t', t.encode = t'.encode → k t = k t')
    {r r' : Except String Source} (h : r.map Tree.encode = r'.map Tree.encode) :
    (r.mapError Failure.plain).bind k = (r'.mapError Failure.plain).bind k := by
  cases r with
  | error text =>
    cases r' with
    | error text' => rw [Except.error.inj h]
    | ok t' => cases h
  | ok t =>
    cases r' with
    | error text' => cases h
    | ok t' => exact hk t t' (Except.ok.inj h)

/-- A fresh expansion is fixed by the macro and the documents of the arguments. -/
theorem fresh_eq (hname : c.name = c'.name) (hparams : c.params = c'.params) (hbody : c.body = c'.body)
    (hargs : c.args.map Tree.toNode = c'.args.map Tree.toNode) : Expansion.fresh c = Expansion.fresh c' := by
  have hsame := Expansion.encode_substitute hname hparams hbody hargs
  rw [Expansion.fresh, Expansion.fresh, hname]
  exact bind_eq_of_encode (fun _ _ => normalize_eq) hsame

/-- From the start on, what is remembered was made for a call of the macro that was the latest of its name. -/
theorem expands_of_advances {y : Expander} (h : Advances (.initial y) p) :
    p.env.expander = y ∧ ∀ key x, assoc? p.env.expansions key = some x → p.env.Expands key x := by
  have hstart := (Program.evolving_setUp { types := .initial, graph := {}, env := { expander := y } }).trans h
  have hremembers := hstart.retains.remembers
  refine ⟨hremembers.expander, fun key x hx => ?_⟩
  rcases hremembers.expands key x hx with hx | hx
  · cases hx
  · exact hx

/-- **Calls that are written the same way share one expansion.** The first of them is expanded as if nothing were
remembered. -/
theorem expansionAt_shared (h : Advances (.initial .substitute) p) (hc : p.env.Latest c)
    (hnames : ∀ m ∈ p.env.macros, nul ∉ m.1.toList) (hx : (expansionAt loc c).run.run p = (.ok x, p')) :
    (assoc? p.env.expansions (expansionKey c.name c.args) = none → Expansion.fresh c = .ok x) ∧
    (∃ c₀ ms, ms <:+ p.env.macros ∧ assoc? ms c.name = some ⟨c₀.params, c₀.body⟩ ∧ c₀.name = c.name ∧
      c₀.args.map Tree.encode = c.args.map Tree.encode ∧ Expansion.fresh c₀ = .ok x ∧
      ((∀ d, (c.name, d) ∈ p.env.macros → d = ⟨c.params, c.body⟩) →
        (∀ a ∈ c₀.args ++ c.args, ReadsBack a.toNode) → Expansion.fresh c = .ok x)) ∧
    ∀ q, Advances p' q → ∀ loc c', c'.name = c.name → c'.args.map Tree.encode = c.args.map Tree.encode →
      (expansionAt loc c').run.run q = (.ok x, q) := by
  have hexpander := (expands_of_advances h).1
  have hstep : Advances p p' := (evolving_expansionAt loc c).advances hc hx
  have hname : nul ∉ c.name.toList := hnames _ (mem_of_assoc? hc)
  have hrun := (run_expansionAt hexpander loc c).symm.trans hx
  -- in either case the expansion is the one that is remembered afterwards
  obtain ⟨hafter, hmacros, hfirst⟩ : assoc? p'.env.expansions (expansionKey c.name c.args) = some x ∧
      p'.env.macros = p.env.macros ∧
      (assoc? p.env.expansions (expansionKey c.name c.args) = none → Expansion.fresh c = .ok x) := by
    split at hrun
    · rename_i y hy
      cases hrun
      exact ⟨hy, rfl, fun hnone => absurd (hy.symm.trans hnone) (Option.some_ne_none x)⟩
    · rename_i y hnone hfresh
      cases hrun
      exact ⟨(assoc?_cons _ _ _ _).trans (if_pos rfl), rfl, fun _ => hfresh⟩
    · cases hrun
  refine ⟨hfirst, ?_, fun q hq loc c' hname' hargs => ?_⟩
  · obtain ⟨hexpander', hexpands⟩ := expands_of_advances (h.trans hstep)
    obtain ⟨c₀, ms, hms, hc₀, hkey, hfresh⟩ := hexpands _ _ hafter
    rw [hmacros] at hms
    have hdeclared := hms.subset (mem_of_assoc? hc₀)
    have hplain : nul ∉ c₀.name.toList := hnames _ hdeclared
    obtain ⟨hname₀, hargs⟩ := (expansionKey_eq_iff hplain hname).mp hkey
    rw [hname₀] at hc₀ hdeclared
    refine ⟨c₀, ms, hms, hc₀, hname₀, hargs, hfresh hexpander', fun hsame hback => ?_⟩
    have hd := hsame _ hdeclared
    injection hd with hparams hbody
    rw [← hfresh hexpander', fresh_eq hname₀ hparams hbody (Tree.map_toNode_of_encode hargs hback)]
  · have hkey : expansionKey c'.name c'.args = expansionKey c.name c.args :=
      (expansionKey_eq_iff (hname' ▸ hname) hname).mpr ⟨hname', hargs⟩
    have hlater := hq.retains.remembers.expanded _ _ hafter
    have hexpander' := (expands_of_advances ((h.trans hstep).trans hq)).1
    rw [run_expansionAt hexpander', hkey, hlater]

/-- A call without arguments of the latest macro of a name. -/
def callOf (p : Program) (name : String) : Expansion.Call :=
  let d := (assoc? p.env.macros name).getD ⟨none, none⟩
  { name, params := d.params, args := [], body := d.body }

theorem latest_callOf {name : String} (h : (assoc? p.env.macros name).isSome) : p.env.Latest (callOf p name) := by
  obtain ⟨d, hd⟩ := Option.isSome_iff_exists.mp h
  have hname : (callOf p name).name = name := rfl
  rw [Env.Latest, hname, callOf, hd]
  rfl

/-- A macro without parameters. -/
def bell (sound : Form (Option Location) Source) : Source :=
  .node none (.macroDef "bell" none (some (.node none sound)))

/-- A call of it. -/
def ring : Source :=
  .node none (.call none "bell" none none false)

/-- The program after the bell is declared and rung. -/
def rung : Program :=
  ((Program.initial .substitute).run
    (Program.infer (.node none (.expressions (some [bell (.boolLiteral true), ring]))))).2

/-- The bell sounds as it was declared, and however often it is rung later. -/
theorem expansionAt_shared_bell : ∃ x,
    Expansion.fresh (callOf rung "bell") = .ok x ∧ x.tree.kind = .boolLiteral ∧
    ∀ q, Advances (rung.run (expansionAt none (callOf rung "bell"))).2 q → ∀ c, c.name = "bell" → c.args = [] →
      (expansionAt none c).run.run q = (.ok x, q) := by
  have hsession : Session .substitute rung := .tree .initial _
  have hlatest : rung.env.Latest (callOf rung "bell") := latest_callOf (by decide +kernel)
  obtain ⟨hnames, hone, hmade⟩ : (∀ m ∈ rung.env.macros, nul ∉ m.1.toList) ∧ rung.env.macros.length = 1 ∧
      (((expansionAt none (callOf rung "bell")).run.run rung).1.toOption.map fun x => x.tree.kind) =
        some Kind.boolLiteral := by
    decide +kernel
  obtain ⟨x, hx, hkind⟩ := Option.map_eq_some_iff.mp hmade
  obtain ⟨-, ⟨c₀, ms, -, -, -, hargs, -, hfresh⟩, hshared⟩ :=
    expansionAt_shared hsession.advances hlatest hnames (Flow.run_of_toOption hx)
  have hnone : c₀.args = [] := List.map_eq_nil_iff.mp hargs
  refine ⟨x, hfresh (fun d hd => ?_) (fun a ha => ?_), hkind, fun q hq c hname hc => ?_⟩
  · obtain ⟨m, hm⟩ := List.length_eq_one_iff.mp hone
    rw [hm] at hd
    obtain rfl := List.mem_singleton.mp hd
    rw [Env.Latest, hm] at hlatest
    rw [assoc?_cons, if_pos rfl] at hlatest
    exact Option.some.inj hlatest
  · rw [hnone] at ha
    exact absurd ha List.not_mem_nil
  · exact hshared q hq none c hname (by rw [hc]; rfl)

end Infer

namespace Session

open Infer

/-- The bell is declared anew after it was rung, and rung again. -/
def rungAgain : Program :=
  (rung.run (Program.infer (.node none (.expressions (some [bell (.stringLiteral "dong"), ring]))))).2

/-- **A macro that is declared anew leaves the old expansions in force.** The bell was declared to sound `true` and
is declared to sound `"dong"` now. A call of it still expands to the boolean. -/
theorem expansion_of_redeclared :
    Session .substitute rungAgain ∧ rungAgain.env.Latest (callOf rungAgain "bell") ∧
    (((expansionAt none (callOf rungAgain "bell")).run.run rungAgain).1.toOption.map fun x => x.tree.kind) =
      some Kind.boolLiteral ∧
    ((Expansion.fresh (callOf rungAgain "bell")).toOption.map fun x => x.tree.kind) = some Kind.stringLiteral ∧
    (rungAgain.env.roots.map fun t => rungAgain.types.name (rungAgain.typeOf t)) = ["Bool", "Bool"] :=
  ⟨.tree (.tree .initial _) _, latest_callOf (by decide +kernel), by decide +kernel⟩

end Session

end TypeFlow
