import TypeFlow.Inference.Program
import TypeFlow.Proofs.Inference.Pointed
import TypeFlow.Proofs.Inference.Subcalls

/-!
# Failures of programs

However a program was prepared, a tree that was read fails with locations: the failure points at the source, as do
the instantiations and expansions that led to it and the cause in them.
-/

namespace TypeFlow

open Failure (Points Locatable)

variable {x : Expander} {F : Failure → Prop}

/-! ### The tree of an empty text -/

/-- A tree has no node yet, or one that is quiet. -/
def Program.Idle (p : Program) (t : Placed) : Prop :=
  p.nodeOf t = 0 ∨ p.graph.Quiet (p.nodeOf t)

theorem Infer.run_nodeOf_idle {p : Program} {t : Placed} (h : p.Idle t) :
    ∃ id, ∃ p' : Program, (nodeOf t).run.run p = (.ok id, p') ∧ p'.graph.Quiet id ∧ p'.Idle t := by
  by_cases hnode : p.nodeOf t = 0
  · refine ⟨_, _, run_nodeOf_of_eq_zero hnode, Graph.quiet_add_size _ _, ?_⟩
    refine .inr ?_
    rw [Program.nodeOf_withNode_self]
    exact Graph.quiet_add_size _ _
  · exact ⟨_, p, run_nodeOf_known hnode, h.resolve_left hnode, h⟩

namespace Engine

variable (e : Engine)

/-- A tree of nothing that has no node yet is always typed. -/
theorem run_visitNode_nop (s : ScopeId) (m : Mark) {p : Program} (h : (p.env.note m.occ).node = 0) :
    ∃ p', (e.visitNode s (.node m .nop)).run.run p = (.ok (), p') := by
  obtain ⟨id, p₁, hrun, -, hidle⟩ := Infer.run_nodeOf_idle (t := .node m .nop) (.inl h)
  obtain ⟨id', p₂, hrun', hquiet, -⟩ := Infer.run_nodeOf_idle hidle
  obtain ⟨p₃, hassign, -⟩ := Flow.setType_quiet (h := e.hooks) hquiet Builtin.nil
  refine ⟨p₃, ?_⟩
  have hform : (e.visitForm s (.node m .nop)).run.run p₁ = (.ok (), p₃) := by
    change (e.setType (.node m .nop) Builtin.nil).run.run p₁ = _
    rw [setType, Flow.run_bind_of_ok hrun']
    exact hassign
  rw [visitNode, Flow.run_bind_of_ok hrun]
  exact Flow.run_locating_of_ok _ hform

theorem Fair.visitNode_nop {e : Engine} (h : e.Fair x) (s : ScopeId) (m : Mark) :
    TracksFrom (fun p => (p.env.note m.occ).node = 0) x F (fun _ => True) (e.visitNode s (.node m .nop)) := by
  intro p hnode hp
  obtain ⟨p', hrun⟩ := e.run_visitNode_nop s m hnode
  have htracks : Tracks x (Locatable x) (e.visitNode s (.node m .nop)) :=
    (Infer.tracks_nodeOf _).bind fun _ => (h.setType _ _).locating _
  have hlocated := (htracks.of_run hp hrun).1
  rw [Flow.Ends, hrun]
  exact ⟨hlocated, True.intro⟩

end Engine

/-- **Every engine tracks locations**, however deep it may nest. -/
theorem engine_fair (x : Expander) (fuel : Nat) : (engine fuel).Fair x := by
  induction fuel with
  | zero =>
    exact ⟨fun _ _ _ => .throw Failure.locatable_exhausted, fun _ _ _ => .throw True.intro,
      fun _ _ => Tracks.from (.throw True.intro) _, fun _ => .throw Failure.locatable_exhausted⟩
  | succ fuel ih =>
    exact ⟨fun s n hn => ih.visitNode hn s, fun s n hn => ih.visitNode_located hn s, ih.visitNode_nop, ih.resolveSite⟩

/-! ### Programs -/

namespace Program

/-- **Typing a tree that was read tracks locations**, and what it fails with points at the source. -/
theorem tracks_infer {t : Source} (ht : t = .node none .nop ∨ t.Located id) : Tracks x (Points x) (infer t) := by
  have hroot : ∀ root, Tracks x (Points x) (Infer.changeEnv fun e => { e with roots := e.roots ++ [root] }) :=
    fun root => .changeBeside fun _ => rfl
  rcases ht with rfl | ht
  · -- the root is new, and has no node before it is typed
    intro p hp
    have hvisit := fun s => (engine_fair x nesting).empty s ⟨none, p.env.notes.size⟩
    rw [Flow.Ends, infer, Flow.run_bind_of_ok (Infer.run_place_nop p)]
    refine ((hroot _).from fun q => (q.env.note p.env.notes.size).node = 0).andThen
      (S := fun _ q => (q.env.note p.env.notes.size).node = 0) ?_ (fun _ _ => ?_)
      (p.opened 1) (Infer.node_opened p) (hp.opened 1)
    · rintro q _ q' hq ⟨⟩
      exact hq
    · refine ((Infer.tracks_newScope _).from _).andThen
        (S := fun _ q => (q.env.note p.env.notes.size).node = 0) ?_ fun s _ => hvisit s
      rintro q _ q' hq ⟨⟩
      exact hq
  · refine (Infer.tracksTo_place_located ht).bind fun root hlocated => (hroot root).bind fun _ => ?_
    exact (Infer.tracks_newScope _).bind fun s => (engine_fair x nesting).located s root hlocated

theorem located_initial (x : Expander) : (initial x).env.Located x := by
  have hempty : Env.Located x { expander := x } :=
    { expander := rfl
      methods := fun m hm => absurd hm (Array.not_mem_empty m)
      sites := fun n s hs => absurd hs nofun
      blocks := fun b hb => absurd hb (Array.not_mem_empty b)
      notes := fun n hn => absurd hn (Array.not_mem_empty n)
      expansions := List.forall_mem_nil _ }
  have hsetUp : Tracks x (Points x) setUp := tracks_setUp
  exact (hsetUp { types := .initial, graph := {}, env := { expander := x } } hempty).1

end Program

namespace Standard

theorem tracks_inferText (name text : String) : Tracks x (Points x) (inferText name text) := by
  unfold inferText
  split
  · rename_i m hm
    exact .throw (Infer.points_malformed hm)
  · rename_i t ht
    exact Program.tracks_infer (Source.located_of_decode ht)

theorem tracks_inferFiles (files : List TextFile) : Tracks x (Locatable x) (inferFiles files) := by
  induction files with
  | nil => exact .pure _
  | cons f files ih =>
    refine Tracks.bind ?_ fun _ => ih
    unfold inferFile
    split
    · exact .throw (Failure.locatable_plain _)
    · exact (tracks_inferText _ _).imp (fun _ h => h.locatable) fun _ h => h

theorem tracks_load (n : NumericTower) (files : List TextFile) : Tracks x (Locatable x) (load n files) := by
  refine (tracks_defineNumeric n).bind fun _ => (tracks_defineContainers _).bind fun _ => ?_
  exact .bind ((tracks_inferText _ _).imp (fun _ h => h.locatable) fun _ h => h) fun _ => tracks_inferFiles files

end Standard

/-- A program as it is found before a tree is typed: a new one, after the standard definitions, or after other trees,
whether they failed or not, unified or not. -/
inductive Program.Prepared (x : Expander) : Program → Prop
  | initial : Prepared x (.initial x)
  | loaded {p : Program} (h : Prepared x p) (n : NumericTower) (files : List Standard.TextFile) :
    Prepared x (p.run (Standard.load n files)).2
  | typed {p : Program} (h : Prepared x p) {file text : String} {t : Source} (ht : Source.decode file text = .ok t) :
    Prepared x (p.run (Program.infer t)).2
  | unified {p p' : Program} {s : Unifier.Stats} (h : Prepared x p) (hp : p.unify = some (s, p')) : Prepared x p'

theorem Tracks.keeps {α : Type} {F : Failure → Prop} {m : Infer α} (hm : Tracks x F m)
    {p : Program} (hp : p.env.Located x) : (p.run m).2.env.Located x :=
  (hm.of_run hp rfl).1

/-- Unification leaves all there is to be typed as it is. -/
theorem Program.env_of_unify {p p' : Program} {s : Unifier.Stats} (h : p.unify = some (s, p')) :
    ∃ instances, p'.env = { p.env with instances } := by
  obtain ⟨g, -, h⟩ := Option.bind_eq_some_iff.mp h
  obtain ⟨is, -, h⟩ := Option.bind_eq_some_iff.mp h
  obtain rfl := (Prod.mk.inj (Option.some.inj h)).2
  exact ⟨is, rfl⟩

/-- What is there to be typed in a program is located. -/
theorem Program.Prepared.located {p : Program} (h : p.Prepared x) : p.env.Located x := by
  induction h with
  | initial => exact located_initial x
  | loaded _ n files ih => exact (Standard.tracks_load n files).keeps ih
  | typed _ ht ih => exact (tracks_infer (Source.located_of_decode ht)).keeps ih
  | unified _ hp ih =>
    obtain ⟨is, he⟩ := Program.env_of_unify hp
    exact ih.of_stock (by rw [he]; rfl)

/-! ### Chains -/

namespace Failure

variable {f g : Failure}

theorem Points.isSome (h : f.Points x) (hf : f ≠ .exhausted) : f.loc?.isSome := by
  cases f with
  | exhausted => exact absurd rfl hf
  | instantiating _ _ _ => exact h.1
  | expanding _ _ _ _ => exact h.1
  | _ => exact h

/-- What an expander says about a call of a macro is the cause of the failure to expand that call. -/
def Said (x : Expander) (f g : Failure) : Prop :=
  ∃ loc name message, g = .plain message ∧ .expanding loc name "" g ∈ f.chain ∧ x.Refuses name message

theorem Said.of_chain {f' : Failure} (h : Said x f g) (hf : ∀ g ∈ f.chain, g ∈ f'.chain) : Said x f' g := by
  obtain ⟨loc, name, message, hg, hmem, hrefuses⟩ := h
  exact ⟨loc, name, message, hg, hf _ hmem, hrefuses⟩

/-- Where a failure points at the source, every part of it does, but for what the expander said. -/
theorem Points.chain (h : f.Points x) : ∀ g ∈ f.chain, g.loc?.isSome ∨ g = .exhausted ∨ Said x f g := by
  induction f with
  | instantiating l signature cause ih =>
    obtain ⟨hl, hcause⟩ := h
    refine List.forall_mem_cons.mpr ⟨.inl hl, fun g hg => ?_⟩
    exact (ih hcause g hg).imp_right (Or.imp_right fun hsaid => hsaid.of_chain fun _ => List.mem_cons_of_mem _)
  | expanding l name text cause ih =>
    obtain ⟨hl, hcause⟩ := h
    refine List.forall_mem_cons.mpr ⟨.inl hl, fun g hg => ?_⟩
    rcases hcause with hcause | ⟨rfl, message, rfl, hrefuses⟩
    · exact (ih hcause g hg).imp_right (Or.imp_right fun hsaid => hsaid.of_chain fun _ => List.mem_cons_of_mem _)
    · obtain rfl := List.mem_singleton.mp hg
      exact .inr (.inr ⟨l, name, message, rfl, List.mem_cons_self, hrefuses⟩)
  | _ =>
    -- there are no frames
    intro g hg
    obtain rfl := List.mem_singleton.mp hg
    exact or_iff_not_imp_right.mpr fun hne => h.isSome fun heq => hne (.inl heq)

end Failure

/-- **A tree that was read fails with locations**, however the program was prepared. The failure has one unless it was
given up, and so have the instantiations and expansions that led to it and their cause, unless that is what the
expander said. -/
theorem Program.Prepared.isSome_of_infer {p p' : Program} (hp : p.Prepared x) {file text : String} {t : Source}
    (ht : Source.decode file text = .ok t) {f : Failure} (hf : p.run (infer t) = (.error f, p')) :
    (f ≠ .exhausted → f.loc?.isSome) ∧
      ∀ g ∈ f.chain, g.loc?.isSome ∨ g = .exhausted ∨ Failure.Said x f g := by
  have hpoints : f.Points x := ((tracks_infer (Source.located_of_decode ht)).of_run hp.located hf).2
  exact ⟨hpoints.isSome, hpoints.chain⟩

/-- What a text fails with can be computed. -/
theorem Program.exists_infer_error {p : Program} {file text message : String}
    (h : (Source.decode file text).toOption.any (fun t =>
      ((p.run (infer t)).1.mapError fun f => decide (f.message = message)) matches .error true) = true) :
    ∃ t f p', Source.decode file text = .ok t ∧ p.run (infer t) = (.error f, p') ∧ f.message = message := by
  cases ht : Source.decode file text with
  | error m =>
    rw [ht] at h
    cases h
  | ok t =>
    rw [ht, Except.toOption, Option.any_some] at h
    rcases hrun : p.run (infer t) with ⟨f | _, p'⟩
    · rw [hrun] at h
      refine ⟨t, f, p', rfl, hrun, of_decide_eq_true ?_⟩
      cases hmessage : decide (f.message = message) with
      | true => rfl
      | false =>
        rw [Except.mapError, hmessage] at h
        cases h
    · rw [hrun] at h
      cases h

/-- A text that declares a method with an unknown name in its body, and calls it. -/
def strayText : String :=
  "- \x7bkind: def, name: f, body: \x7bkind: call, name: g\x7d\x7d\n" ++ "- \x7bkind: call, name: f\x7d\n"

/-- What is unknown in the body of a method fails there and at the call of the method. -/
theorem Program.Prepared.isSome_of_infer_strayText : ∃ t f p', Source.decode "main.yml" strayText = .ok t ∧
    (Program.initial .none).run (infer t) = (.error f, p') ∧
    f.message = "undefined local variable or method 'g' (in 'f')\n  while instantiating 'f()'" ∧
    (f ≠ .exhausted → f.loc?.isSome) ∧
    ∀ g ∈ f.chain, g.loc?.isSome ∨ g = .exhausted ∨ Failure.Said .none f g := by
  obtain ⟨t, f, p', ht, hf, hmessage⟩ : ∃ t f p', Source.decode "main.yml" strayText = .ok t ∧
      (Program.initial .none).run (infer t) = (.error f, p') ∧
      f.message = "undefined local variable or method 'g' (in 'f')\n  while instantiating 'f()'" :=
    exists_infer_error (by decide +kernel)
  exact ⟨t, f, p', ht, hf, hmessage, initial.isSome_of_infer ht hf⟩

end TypeFlow
