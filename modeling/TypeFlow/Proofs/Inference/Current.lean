import TypeFlow.Proofs.Inference.Attending
import TypeFlow.Proofs.Inference.Dispatch
import TypeFlow.Proofs.Inference.Echoing
import TypeFlow.Proofs.Inference.Memo
import TypeFlow.Proofs.Standard.Served

/-!
# Calls are resolved for the types that they have

A call is resolved again whenever the type of its receiver or of an argument changes. What it is resolved to is an
instance for just these types, or a dispatch, and the types are noted at its site. So at the end of every step of a
session in which nothing fails, all calls whose receiver and arguments have types were resolved for the types that these
have then. Calls on libraries are left out: there, variables are bound to out parameters first, which may resolve the
call, and after that it is resolved for the receiver type of before.

The types that are noted are those of the resolution that began last. Typing the body of a method may change the
types of the call that it is typed for; then the call is resolved again in the middle of its resolution, and it is
the one that began first that comes to its end last: the call is overtaken, and keeps the targets of the types that it
had before. An engine that watches (`watching true`) gives up on such a call. Where it does the same as the engine
itself, the targets of every call are those for the types that it has (`Unbroken.calls_current`).
-/

namespace TypeFlow

open TypeFlow.Graph (Observer)

/-! ### The engine that watches -/

namespace Engine

/-- Gives up on a call that, while it was resolved for some types, was resolved for others. -/
def standBy (watch : Bool) (node : NodeId) (site : Site) (key : Option (List TypeId)) : Infer Unit := do
  let now ← Infer.site? node
  if watch && now.any (fun s => s.obj ≠ site.obj || s.key ≠ key) then throw (.plain "overtaken")
  else return

variable (watch : Bool) (e : Engine)

/-- Resolves the call at a node for given types, and stands by for what comes between. -/
def watchFor (node : NodeId) (recv : TypeId) (args : List TypeId) : Infer Unit := do
  match ← Infer.site? node with
  | none => return
  | some site =>
    let key := some (recv :: args)
    if site.key = key then return
    else
      Infer.changeSite node fun s => { s with key }
      let mark := site.call.mark
      let (nodes, targets) ← Flow.locating mark.loc (e.resolveCall site recv args)
      standBy watch node site key
      e.retarget node mark.loc mark.occ nodes targets

/-- Resolves the call at a node for the current types, and stands by for what comes between. -/
def watchSite (node : NodeId) : Infer Unit := do
  match ← Infer.site? node with
  | none => return
  | some site =>
    let recv ← Infer.receiverType site
    if recv = 0 then return
    else
      e.prepare site recv
      match ← Infer.typesOf? site.args with
      | none => return
      | some args => e.watchFor watch node recv args

/-- The engine that nests at most `fuel` deep, and gives up on calls that are overtaken if it watches. -/
def watching : Nat → Engine
  | 0 => ⟨fun _ _ => throw .exhausted, fun _ => throw .exhausted⟩
  | fuel + 1 => ⟨(watching fuel).visitNode, (watching fuel).watchSite watch⟩

variable {watch : Bool} {e : Engine}

end Engine

/-! ### Sites that are resolved -/

theorem Program.Grows.site (p : Program) (x : NodeId) (f : Site → Site) :
    p.Grows { p with env := { p.env with sites := p.env.sites.modify x f } } :=
  .of_eq (.refl _) (Nat.le_refl _) rfl rfl rfl rfl

/-- A program in which a call has targets, which its occurrence notes. -/
def Program.targeted (p : Program) (x : NodeId) (occ : Nat) (nodes : List NodeId) (targets : List Target) : Program :=
  let e : Env := { p.env with sites := p.env.sites.modify x fun s => { s with targets := nodes } }
  { p with env := e.changeNote occ fun n => { n with targets } }

namespace Program.Attentive

variable {w : Prop} {p : Program} {G : List NodeId} {x : NodeId}

/-- A call that turns out to be up to date need not be on the list. -/
theorem settle (hp : p.Attentive w [⟨x, .recalc⟩] G)
    (hx : ∀ s, p.env.sites.get? x = some s → s.Foreign p.env ∨ s.UpToDate p) : p.Attentive w [] G := by
  refine { hp with sites := fun y s hs => ?_ }
  have hold := hp.sites y s hs
  refine { hold with current := .inr ?_ }
  rcases hold.current with hmem | hrest
  · obtain rfl : y = x := by simpa using hmem
    exact .inr (hx s hs)
  · exact hrest

/-- There is nothing to resolve where no call is. -/
theorem settle_none (hp : p.Attentive w [⟨x, .recalc⟩] G) (hx : p.env.sites.get? x = none) : p.Attentive w [] G :=
  hp.settle fun s hs => absurd (hs.symm.trans hx) (Option.some_ne_none s)

theorem weaken (hp : p.Attentive w [] G) (F : List Observer) : p.Attentive w F G :=
  { hp with
    sites := fun y s hs => { hp.sites y s hs with
      current := .inr ((hp.sites y s hs).current.resolve_left List.not_mem_nil) } }

/-- A site changes whose call was on the list, and is being resolved from now on. -/
theorem changeSite {H : List NodeId} {f : Site → Site} (hp : p.Attentive w [⟨x, .recalc⟩] G)
    (hf : ∀ s, p.env.sites.get? x = some s → s.Attended w x [⟨x, .recalc⟩] G p → (f s).Attended w x [] H p)
    (hG : ∀ y ∈ G, y ∈ H) :
    Attentive w { p with env := { p.env with sites := p.env.sites.modify x f } } [] H := by
  refine ⟨hp.made, fun v hv => hp.held v (Env.Owns.congr (e := p.env) hv rfl rfl rfl), hp.parted, hp.filed,
    fun y s hs => ?_⟩
  refine Site.Attended.beside ?_ _ (.site p x f)
  rw [Slots.get?_modify] at hs
  split at hs
  · rename_i hy
    subst hy
    obtain ⟨s₀, hs₀, rfl⟩ := Option.map_eq_some_iff.mp hs
    exact hf s₀ hs₀ (hp.sites x s₀ hs₀)
  · rename_i hy
    have hold := hp.sites y s hs
    refine { hold with
      current := hold.current.imp_left fun hmem => ?_, answered := hold.answered.imp_right (.imp_left (hG y)) }
    exact absurd (congrArg Observer.node (List.mem_singleton.mp hmem)) (Ne.symm hy)

/-- The call at a node gets its targets, and is not being resolved any longer. Its occurrence is the only one with
that node, so no other call is given other targets. -/
theorem retarget {occ : Nat} {nodes : List NodeId} {targets : List Target} (hp : p.Attentive w [] (x :: G))
    (hocc : (p.env.note occ).node = x) (hnodes : ∃ v, nodes = [v])
    {s₀ : Site} {recv : TypeId} {args : List TypeId} (hmeets : p.Meets s₀ recv args targets)
    (hstill : w → ∀ s, p.env.sites.get? x = some s → s.obj = s₀.obj ∧ s.key = some (recv :: args)) :
    p.Leads w G (p.targeted x occ nodes targets) := by
  set p' := p.targeted x occ nodes targets with hp'
  have hnote : ∀ o, (p'.env.note o).node = (p.env.note o).node ∧
      (p'.env.note o).targets = if occ = o then targets else (p.env.note o).targets := by
    intro o
    rw [hp', Program.targeted, Env.note_changeNote]
    split
    · rename_i ho
      exact ho ▸ ⟨rfl, rfl⟩
    · exact ⟨rfl, rfl⟩
  have hgrows : p.Grows p' :=
    { Grows.refl p with nodes := fun o _ => (hnote o).1 }
  refine ⟨⟨hp.made, fun v hv => hp.held v ?_, fun o o' => ?_, hp.filed, fun y s hs => ?_⟩, hgrows, fun _ => id⟩
  · cases hv with
    | nil => exact .nil
    | note o => exact (hnote o).1 ▸ .note o
    | var hs h => exact .var (e := p.env) hs h
    | shared h => exact .shared (e := p.env) h
  · rw [(hnote o).1, (hnote o').1]
    exact hp.parted o o'
  · replace hs : (p.env.sites.modify x fun s => { s with targets := nodes }).get? y = some s := hs
    rw [Slots.get?_modify] at hs
    split at hs
    · rename_i hy
      subst hy
      obtain ⟨s₁, hs₁, rfl⟩ := Option.map_eq_some_iff.mp hs
      have hold := hp.sites x s₁ hs₁
      refine { hold with stands := (hnote _).1.trans hold.stands, answered := .inr (.inr ⟨hnodes, ?_⟩) }
      have hsame : occ = s₁.call.mark.occ :=
        hp.parted _ _ (hocc.symm ▸ hold.ne_zero) (hocc.trans hold.stands.symm)
      refine ⟨s₀, recv, args, fun hw => hstill hw s₁ hs₁, ?_⟩
      rw [(hnote _).2, if_pos hsame]
      exact hmeets.later hgrows rfl
    · rename_i hy
      have hold := hp.sites y s hs
      refine { hold with stands := (hnote _).1.trans hold.stands, answered := ?_ }
      rw [(hnote _).2, if_neg fun ho => hy ?_]
      · refine hold.answered.imp_right (.imp (fun hmem => (List.mem_cons.mp hmem).resolve_left (Ne.symm hy))
          (.imp_right fun ⟨s₁, recv, args, hkey, hmeets⟩ => ⟨s₁, recv, args, hkey, hmeets.later hgrows rfl⟩))
      · exact hocc.symm.trans (ho ▸ hold.stands)

end Program.Attentive

/-! ### What a call is resolved to -/

namespace Infer

variable {site : Site} {recv owner : TypeId} {args : List TypeId} {key : GroupKey} {g : Group} {p p' : Program}

theorem owner_of_lookupDeclared? (h : (lookupDeclared? site recv key).run.run p = (.ok (some (g, owner)), p')) :
    owner = recv ∨ site.obj = 0 ∧ owner = Builtin.program := by
  obtain ⟨own, p₁, -, h⟩ := Flow.exists_of_run_bind h
  extract_lets k at h
  have hk : ∀ found (q : Program), (∀ x, found = some x → x.2 = recv) →
      (k found).run.run q = (.ok (some (g, owner)), p') → owner = recv ∨ site.obj = 0 ∧ owner = Builtin.program := by
    intro found q hfound h
    unfold k at h
    split at h
    · cases h
      exact .inl (hfound _ rfl)
    · split at h
      · rename_i hfalls
        obtain ⟨top, p₂, -, h⟩ := Flow.exists_of_run_bind h
        obtain ⟨g', -, heq⟩ := Option.map_eq_some_iff.mp (Except.ok.inj (congrArg Prod.fst h))
        cases heq
        exact .inr ⟨of_decide_eq_true (Bool.and_eq_true_iff.mp hfalls).1, rfl⟩
      · cases h
  split at h
  · rename_i g'
    obtain ⟨inherited, p₂, -, h⟩ := Flow.exists_of_run_bind h
    split at h
    · exact hk none p₂ (fun _ hx => nomatch hx) h
    · refine hk (some (g', recv)) p₂ (fun x hx => ?_) h
      cases hx
      rfl
  · obtain ⟨found, p₂, hfound, h⟩ := Flow.exists_of_run_bind h
    cases hfound
    exact hk none p₁ (fun _ hx => nomatch hx) h

theorem owner_of_lookupSuper {declaring : TypeId} {name : String}
    (h : (lookupSuper site declaring name recv args).run.run p = (.ok (g, owner), p')) : owner = recv := by
  obtain ⟨e, p₁, -, h⟩ := Flow.exists_of_run_bind h
  obtain ⟨found, p₂, -, h⟩ := Flow.exists_of_run_bind h
  split at h
  · cases h
    rfl
  · obtain ⟨_, _, -, h⟩ := Flow.exists_of_run_bind h
    exact absurd h (failing_undefined _ _ _ _ _)

/-- The instances of a call belong to its receiver; those of a call without receiver may belong to the top level. -/
theorem owner_of_matchCall {ms : Matches MethodId}
    (h : (matchCall site recv args).run.run p = (.ok (owner, ms), p')) :
    owner = recv ∨ site.obj = 0 ∧ owner = Builtin.program := by
  obtain ⟨⟨g, owner'⟩, p₁, hlookup, h⟩ := Flow.exists_of_run_bind h
  obtain ⟨ms', p₂, -, h⟩ := Flow.exists_of_run_bind h
  split at h
  · cases h
    unfold lookup at hlookup
    split at hlookup
    · exact .inl (owner_of_lookupSuper hlookup)
    · obtain ⟨declared, p₃, hdeclared, hlookup⟩ := Flow.exists_of_run_bind hlookup
      split at hlookup
      · cases hlookup
        exact owner_of_lookupDeclared? hdeclared
      · obtain ⟨made, p₄, -, hlookup⟩ := Flow.exists_of_run_bind hlookup
        split at hlookup
        · cases hlookup
          exact .inl rfl
        · exact absurd hlookup (failing_unknownCall _ _ _ _ _ _)
  · exact absurd h (failing_noOverload _ _ _ _ _ _ _)

end Infer

/-! ### Resolving a call -/

namespace Infer

theorem run_typesOf?_none {p : Program} {ids : List NodeId} (h : ∃ id ∈ ids, p.graph.typeOf id = 0) :
    (typesOf? ids).run.run p = (.ok none, p) := by
  induction ids with
  | nil => simp at h
  | cons id ids ih =>
    have htype : (Flow.typeOf id : Infer TypeId).run.run p = (.ok (p.graph.typeOf id), p) := rfl
    rw [typesOf?, Flow.run_bind_of_ok htype]
    split
    · rfl
    · rename_i hid
      rw [Flow.run_bind_of_ok (ih (by simpa [hid] using h))]
      rfl

theorem run_site? (x : NodeId) (p : Program) : (site? x).run.run p = (.ok (p.env.sites.get? x), p) :=
  rfl

theorem run_changeSite (x : NodeId) (f : Site → Site) (p : Program) : (changeSite x f).run.run p =
    (.ok (), { p with env := { p.env with sites := p.env.sites.modify x f } }) :=
  rfl

theorem run_fun? (lib : TypeId) (name : String) (p : Program) :
    (fun? lib name).run.run p = (.ok (assoc? p.env.funs (lib, name)), p) :=
  rfl

/-- A call that is accepted has a match. -/
theorem list_ne_nil_of_matchCall {site : Site} {recv owner : TypeId} {args : List TypeId} {ms : Matches MethodId}
    {p p' : Program} (h : (matchCall site recv args).run.run p = (.ok (owner, ms), p')) : ms.list ≠ [] := by
  obtain ⟨⟨g, owner'⟩, p₁, -, h⟩ := Flow.exists_of_run_bind h
  obtain ⟨ms', p₂, -, h⟩ := Flow.exists_of_run_bind h
  split at h
  · rename_i hfound
    cases h
    simp only [Matches.found, Bool.and_eq_true, Bool.not_eq_true', List.isEmpty_eq_false_iff] at hfound
    exact hfound.1
  · exact absurd h (failing_noOverload _ _ _ _ _ _ _)

end Infer

namespace Engine

open Infer

variable {w : Prop} {watch : Bool} {e : Engine} {p p' : Program} {G : List NodeId} {x : NodeId}

/-- The type of a call that is resolved depends on one node. -/
theorem single_of_resolveCall {site : Site} {recv : TypeId} {args : List TypeId} {nodes : List NodeId}
    {targets : List Target} (h : (e.resolveCall site recv args).run.run p = (.ok (nodes, targets), p')) :
    ∃ v, nodes = [v] := by
  obtain ⟨t, p₁, -, h⟩ := Flow.exists_of_run_bind h
  split at h
  · -- a call of a foreign function
    obtain ⟨found, p₂, -, h⟩ := Flow.exists_of_run_bind h
    split at h
    · obtain ⟨_, _, -, h⟩ := Flow.exists_of_run_bind h
      cases h
    · obtain ⟨v, _, hv, -⟩ := callFun_targets h
      exact ⟨v, hv⟩
  split at h
  · obtain ⟨⟨owner, ms⟩, p₂, hmatch, h⟩ := Flow.exists_of_run_bind h
    simp only at h
    split at h
    · obtain ⟨v, _, hv, -⟩ := dispatch_targets h
      exact ⟨v, hv⟩
    split at h
    · rename_i hnil
      exact absurd hnil (list_ne_nil_of_matchCall hmatch)
    · obtain ⟨i, p₃, -, h⟩ := Flow.exists_of_run_bind h
      obtain ⟨inst, p₄, -, h⟩ := Flow.exists_of_run_bind h
      cases h
      exact ⟨_, rfl⟩
  · obtain ⟨v, _, hv, -⟩ := dispatch_targets h
    exact ⟨v, hv⟩

theorem run_of_standBy {site : Site} {key : Option (List TypeId)}
    (h : (standBy watch x site key).run.run p = (.ok (), p')) :
    p = p' ∧ (watch = true → ∀ s, p.env.sites.get? x = some s → s.obj = site.obj ∧ s.key = key) := by
  rw [standBy, Flow.run_bind_of_ok (run_site? x p)] at h
  split at h
  · cases h
  · rename_i hcalm
    cases h
    refine ⟨rfl, fun hwatch s hs => ?_⟩
    simpa [hwatch, hs] using hcalm

namespace Heedful

variable (h : e.Heedful w)
include h

/-- What a call on no library is resolved to answers the types that it is resolved for. -/
theorem meets_of_resolveCall {site : Site} {recv : TypeId} {args : List TypeId} {nodes : List NodeId}
    {targets : List Target} (hp : p.Attentive w [] G) (hs : site.scope < p.env.scopes.size)
    (hrun : (e.resolveCall site recv args).run.run p = (.ok (nodes, targets), p')) : p'.Meets site recv args targets := by
  obtain ⟨hleads, -⟩ := h.resolveCall (c := [.scope site.scope]) List.mem_cons_self recv args hrun hp
    fun f hf => List.mem_singleton.mp hf ▸ hs
  have hdispatch : ∀ {q : Program} {rs : List TypeId},
      (e.dispatch site rs args).run.run q = (.ok (nodes, targets), p') → p'.Meets site recv args targets := by
    intro q rs h
    obtain ⟨_, d, -, rfl⟩ := dispatch_targets h
    exact .inr (.dispatch d)
  obtain ⟨t, p₁, htypes, hrun⟩ := Flow.exists_of_run_bind hrun
  cases htypes
  split at hrun
  · rw [Engine.funCall, Flow.run_bind_of_ok (run_fun? _ _ p)] at hrun
    split at hrun
    · exact absurd hrun (Failing.after (fun _ => .throw _) _ _ _)
    · rename_i id hfun
      exact .inl ⟨_, hleads.grows.funs _ (mem_of_assoc? hfun), rfl⟩
  split at hrun
  · rename_i r hr
    obtain ⟨⟨owner, ms⟩, p₂, hmatch, hrun⟩ := Flow.exists_of_run_bind hrun
    simp only at hrun
    split at hrun
    · exact hdispatch hrun
    rename_i hbranches
    split at hrun
    · rename_i hnil
      exact absurd hnil (list_ne_nil_of_matchCall hmatch)
    · rename_i m rest hms
      obtain ⟨i, p₃, hinst, hrun⟩ := Flow.exists_of_run_bind hrun
      cases hrun
      have hwhole : m.argTypes = args := by simpa [Matches.branches, hms] using hbranches
      obtain ⟨hleads₂, -⟩ := heeds_matchCall (c := []) site r args hmatch hp (List.forall_mem_nil _)
      obtain ⟨-, hmade⟩ := h.instantiate (c := []) site owner m hinst hleads₂.attentive (List.forall_mem_nil _)
      refine .inr (.inst (hwhole ▸ hmade _ List.mem_cons_self) hleads.grows.types ?_)
      rcases owner_of_matchCall hmatch with rfl | htop
      · exact .inl hr
      · exact .inr htop
  · exact hdispatch hrun

/-- Once a call is resolved, it has one target, which answers the types that it was resolved for. -/
theorem retarget {site : Site} {recv : TypeId} {args : List TypeId} {nodes : List NodeId} {targets : List Target}
    (hp : p.Attentive w [] (x :: G)) (hnodes : ∃ v, nodes = [v]) (hmeets : p.Meets site recv args targets)
    (hocc : (p.env.note site.call.mark.occ).node = x)
    (hstill : w → ∀ s, p.env.sites.get? x = some s → s.obj = site.obj ∧ s.key = some (recv :: args))
    (hrun : (e.retarget x site.call.mark.loc site.call.mark.occ nodes targets).run.run p = (.ok (), p')) :
    p.Leads w G p' := by
  rw [Engine.retarget, Flow.run_bind_of_ok (run_site? x p)] at hrun
  extract_lets old at hrun
  obtain ⟨_, p₁, hdrop, hrun⟩ := Flow.exists_of_run_bind hrun
  cases hdrop
  have hdrop : p.Rests { p with graph := p.graph.dropDeps x old } := .beside (.refl _) (.dropDeps _ _ _) rfl
  obtain ⟨_, p₁, hsite, hrun⟩ := Flow.exists_of_run_bind hrun
  obtain ⟨_, p₂, hnote, hrun⟩ := Flow.exists_of_run_bind hrun
  cases hsite
  cases hnote
  have htargets := (hdrop.attentive hp).retarget hocc hnodes (hmeets.later hdrop.toGrows rfl) hstill
  obtain ⟨hleads, -⟩ := (h.connect (c := []) x nodes).locating _ hrun htargets.attentive (List.forall_mem_nil _)
  have hlast := htargets.trans hleads
  exact ⟨hlast.attentive, hdrop.toGrows.trans hlast.grows, fun o ho => (hdrop.waiting o).mp (hlast.waiting o ho)⟩

/-- A call is resolved for types that it has. If the engine watches, the call was not resolved for others meanwhile. -/
theorem watchFor (hw : w → watch = true) {recv : TypeId} {args : List TypeId} (hp : p.Attentive w [⟨x, .recalc⟩] G)
    (hkey : ∀ s, p.env.sites.get? x = some s →
      Site.Foreign { s with key := some (recv :: args) } p.env ∨ Site.UpToDate { s with key := some (recv :: args) } p)
    (hrun : (e.watchFor watch x recv args).run.run p = (.ok (), p')) : p.Leads w G p' := by
  rw [Engine.watchFor, Flow.run_bind_of_ok (run_site? x p)] at hrun
  split at hrun
  · rename_i hnone
    cases hrun
    exact (hp.settle_none hnone).leads
  · rename_i site hfound
    simp only at hrun
    split at hrun
    · -- it was resolved for these types
      rename_i hsame
      cases hrun
      refine (hp.settle fun s hs => ?_).leads
      obtain rfl := Option.some.inj (hfound.symm.trans hs)
      rw [← hsame] at hkey
      exact hkey _ hs
    · rw [Flow.run_bind_of_ok (run_changeSite _ _ _)] at hrun
      have hp₁ := hp.changeSite (x := x) (H := x :: G) (f := fun s => { s with key := some (recv :: args) })
        (fun s hs hold => { hold with
          current := .inr (.inr (hkey s hs)), answered := .inr (.inl List.mem_cons_self) })
        fun y hy => List.mem_cons_of_mem _ hy
      obtain ⟨⟨nodes, targets⟩, p₂, hresolve, hrun⟩ := Flow.exists_of_run_bind hrun
      have hresolve := Flow.run_of_locating hresolve
      have hsite := hp.sites x site hfound
      obtain ⟨hleads, -⟩ := h.resolveCall (c := [.scope site.scope]) List.mem_cons_self recv args hresolve hp₁
        fun f hf => List.mem_singleton.mp hf ▸ hsite.scope
      have hmeets := h.meets_of_resolveCall hp₁ hsite.scope hresolve
      obtain ⟨_, p₃, hstand, hrun⟩ := Flow.exists_of_run_bind hrun
      obtain ⟨rfl, hstill⟩ := run_of_standBy hstand
      obtain ⟨-, hocc⟩ := hleads.grows.knows (f := .stands site.call.mark.occ x) ⟨hsite.ne_zero, hsite.stands⟩
      have hlast := h.retarget hleads.attentive (single_of_resolveCall hresolve) hmeets hocc
        (fun hwatch => hstill (hw hwatch)) hrun
      exact ⟨hlast.attentive, (Program.Grows.site _ _ _).trans (hleads.grows.trans hlast.grows),
        fun o ho => hleads.waiting o (hlast.waiting o ho)⟩

/-- Binding variables to out parameters leaves a call alone that is on no library. -/
theorem prepare {site : Site} {recv : TypeId} (hsite : p.env.sites.get? x = some site)
    (hp : p.Attentive w [⟨x, .recalc⟩] G) (hrun : (e.prepare site recv).run.run p = (.ok (), p')) :
    p = p' ∨ p.Leads w G p' ∧ p.env.Library recv := by
  obtain ⟨t, p₁, htypes, hrun⟩ := Flow.exists_of_run_bind hrun
  cases htypes
  split at hrun
  · have hrun := Flow.run_of_locating hrun
    rw [bindOutArgs, Flow.run_bind_of_ok (run_fun? _ _ p)] at hrun
    split at hrun
    · cases hrun
      exact .inl rfl
    · rename_i id hfun
      rw [Flow.run_bind_of_ok (run_changeSite _ _ _)] at hrun
      refine .inr ⟨?_, _, mem_of_assoc? hfun, rfl⟩
      rw [(hp.sites x site hsite).node] at hrun
      have hp₁ := hp.changeSite (x := x) (f := fun s => { s with outBound := true })
        (fun s hs hold => { hold with current := .inr (.inr (.inl (.inl rfl))) }) fun _ hy => hy
      have hlast : Heeds w [] (Infer.method id >>= fun m => e.bindOuts site recv id 0 m.definition.params site.call.args) :=
        (heeds_method id).bind fun m => h.bindOuts _ _ _ _ _ _
      obtain ⟨hleads, -⟩ := hlast hrun hp₁ (List.forall_mem_nil _)
      exact ⟨hleads.attentive, (Program.Grows.site _ _ _).trans hleads.grows, hleads.waiting⟩
  · cases hrun
    exact .inl rfl

/-- **Resolving a call brings it up to date.** -/
theorem watchSite (hw : w → watch = true) (hp : p.Attentive w [⟨x, .recalc⟩] G)
    (hrun : (e.watchSite watch x).run.run p = (.ok (), p')) : p.Leads w G p' := by
  rw [Engine.watchSite, Flow.run_bind_of_ok (run_site? x p)] at hrun
  split at hrun
  · rename_i hnone
    cases hrun
    exact (hp.settle_none hnone).leads
  rename_i site hfound
  -- a site that is not resolved is up to date as long as it has no types
  have huntyped : site.receiver p = 0 ∨ (∃ a ∈ site.args, p.graph.typeOf a = 0) → p.Attentive w [] G := by
    refine fun hnone => hp.settle fun s hs => .inr fun hrecv hargs => ?_
    obtain rfl := Option.some.inj (hfound.symm.trans hs)
    rcases hnone with h0 | ⟨a, ha, h0⟩
    · exact absurd h0 hrecv
    · exact absurd h0 (hargs a ha)
  rw [Flow.run_bind_of_ok (run_receiverType site p)] at hrun
  split at hrun
  · rename_i h0
    cases hrun
    exact (huntyped (.inl h0)).leads
  obtain ⟨_, p₁, hprepare, hrun⟩ := Flow.exists_of_run_bind hrun
  rcases h.prepare hfound hp hprepare with rfl | ⟨hleads, hlib⟩
  · by_cases hargs : ∃ a ∈ site.args, p.graph.typeOf a = 0
    · rw [Flow.run_bind_of_ok (run_typesOf?_none hargs)] at hrun
      cases hrun
      exact (huntyped (.inr hargs)).leads
    · push Not at hargs
      rw [Flow.run_bind_of_ok (run_typesOf? hargs)] at hrun
      refine h.watchFor hw hp (fun s hs => .inr fun _ _ => ?_) hrun
      obtain rfl := Option.some.inj (hfound.symm.trans hs)
      rfl
  · have hp₁ := hleads.attentive
    by_cases hargs : ∃ a ∈ site.args, p₁.graph.typeOf a = 0
    · rw [Flow.run_bind_of_ok (run_typesOf?_none hargs)] at hrun
      cases hrun
      exact hleads
    · push Not at hargs
      rw [Flow.run_bind_of_ok (run_typesOf? hargs)] at hrun
      refine hleads.trans (h.watchFor hw (hp₁.weaken _) (fun s hs => .inl (.inr ?_)) hrun)
      obtain ⟨x, hx, heq⟩ := hlib
      exact ⟨_, _, rfl, x, hleads.grows.funs x hx, heq⟩

end Heedful

end Engine

/-- **Typing a tree keeps calls up to date**, and so does resolving one, however deep they nest. -/
theorem Engine.heedful_watching (watch : Bool) (fuel : Nat) : (watching watch fuel).Heedful (watch = true) := by
  -- an engine is made of the steps over the one that nests one level less
  induction fuel with
  | zero => exact ⟨fun _ _ _ _ => .throw _, fun _ _ _ _ hrun => nomatch hrun⟩
  | succ fuel ih => exact ⟨fun _ _ n hs => ih.visitNode hs n, fun _ _ _ _ hrun hp => ih.watchSite id hp hrun⟩


/-! ### Sessions in which nothing fails -/

/-- Types a tree at top level, by an engine. -/
def Program.inferBy (e : Engine) (t : Source) : Infer Unit := do
  let root ← Infer.place t
  Infer.changeEnv fun e => { e with roots := e.roots ++ [root] }
  let s ← Infer.newScope { self := Builtin.program, home := Builtin.program }
  e.visit s root

theorem Program.heeds_inferBy {w : Prop} {e : Engine} (he : e.Heedful w) (t : Source) : Heeds w [] (inferBy e t) := by
  refine (Infer.heeds_place t).bind fun root => .bind (.changeEnv fun _ => rfl) fun _ => ?_
  refine HeedsTo.andThen (Infer.heedsTo_newScope ?_) fun s => ?_
  · exact List.forall_mem_nil _
  · exact he.visit _ s root List.mem_cons_self

/-- The states of a program that is used from its start on, as long as nothing fails: numbers, containers and methods
are declared, and trees are typed, in any order. If it is watched, no call is overtaken while a tree is typed: an engine
that watches does the same. -/
inductive Unbroken (watch : Bool) (x : Expander) : Program → Prop
  | initial : Unbroken watch x (.initial x)
  | numbers {p p' : Program} (h : Unbroken watch x p) (n : NumericTower)
      (hok : p.run (Standard.defineNumeric n) = (.ok (), p')) : Unbroken watch x p'
  | containers {p p' : Program} (h : Unbroken watch x p) (int : String)
      (hok : p.run (Standard.defineContainers int) = (.ok (), p')) : Unbroken watch x p'
  | method {p p' : Program} (h : Unbroken watch x p) (owner : TypeId) (d : Definition)
      (hok : p.run (Infer.addMethod owner d) = (.ok (), p')) : Unbroken watch x p'
  | tree {p p' : Program} (h : Unbroken watch x p) (t : Source) (hok : p.run (Program.infer t) = (.ok (), p'))
      (hwatch : p.run (Program.inferBy (Engine.watching watch Program.nesting) t) = (.ok (), p')) : Unbroken watch x p'

/-- A program starts without calls. -/
theorem Program.attentive_initial (w : Prop) (x : Expander) :
    (initial x).Attentive w [] [] ∧ ∀ o, ¬ (initial x).graph.Waiting o := by
  have hsize : (blank x).graph.size = 2 := (Graph.size_modify _ _ _).trans (Graph.size_add _ _)
  have hblank : (blank x).Attentive w [] [] := by
    refine ⟨fun a ha => absurd ha (Array.not_mem_empty a), fun v hv => ?_, fun o _ hne => absurd rfl hne,
      fun key i ⟨m, hm, _⟩ => absurd hm (Array.not_mem_empty m), fun y s hs => ?_⟩
    · cases hv with
      | nil => exact ⟨hsize.symm ▸ Nat.lt_succ_self 1, fun _ a ha => absurd ha (Array.not_mem_empty a)⟩
      | note o => exact ⟨hsize.symm ▸ Nat.succ_pos 1, fun h0 => absurd rfl h0⟩
      | var hs h => exact absurd hs (Array.not_mem_empty _)
      | shared h => exact absurd h List.not_mem_nil
    · cases y <;> cases hs
  obtain ⟨hleads, -⟩ := Infer.heeds_addMethod (c := []) _ _ (run_addMethod_blank x) hblank (List.forall_mem_nil _)
  refine ⟨hleads.attentive, fun o ho => ?_⟩
  have hwait := hleads.waiting o ho
  rw [blank, Graph.freeze, Graph.waiting_modify _ _ fun _ e => by cases e <;> rfl, Graph.waiting_add] at hwait
  obtain ⟨n, hn, -⟩ := hwait
  rcases o with ⟨_ | x, e⟩ <;> simp [Graph.get?] at hn

theorem Unbroken.attentive {watch : Bool} {x : Expander} {p : Program} (h : Unbroken watch x p) :
    p.Attentive (watch = true) [] [] ∧ ∀ o, ¬ p.graph.Waiting o := by
  have hstep : ∀ {p p' : Program} {m : Infer Unit}, Heeds (watch = true) [] m → p.run m = (.ok (), p') →
      p.Attentive (watch = true) [] [] ∧ (∀ o, ¬ p.graph.Waiting o) →
        p'.Attentive (watch = true) [] [] ∧ ∀ o, ¬ p'.graph.Waiting o := by
    intro p p' m hm hok hp
    obtain ⟨hleads, -⟩ := hm hok hp.1 (List.forall_mem_nil _)
    exact ⟨hleads.attentive, fun o ho => hp.2 o (hleads.waiting o ho)⟩
  induction h with
  | initial => exact Program.attentive_initial _ x
  | numbers _ n hok ih => exact hstep (Standard.heeds_defineNumeric n) hok ih
  | containers _ int hok ih => exact hstep (Standard.heeds_defineContainers int) hok ih
  | method _ owner d hok ih => exact hstep (Infer.heeds_addMethod owner d) hok ih
  | tree _ t _ hwatch ih => exact hstep (Program.heeds_inferBy (Engine.heedful_watching _ _) t) hwatch ih

end TypeFlow
