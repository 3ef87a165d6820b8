import TypeFlow.Inference.Instances
import TypeFlow.Inference.Synthesis
import TypeFlow.Proofs.Inference.Evolution
import TypeFlow.Proofs.Inference.Numbering
import TypeFlow.Proofs.Tree.Located

/-!
# Failures that point at the source

A failure points at the source if all its frames have locations, and its cause as well (`Failure.Points`); only what
an expander itself says to a call of a macro has none. On its way out a failure may have no location of its own yet,
and then gets that of the first located node that it passes by: it is `Failure.Locatable`.

What is typed later was stored before: the bodies of methods, the blocks of calls, expansions, edits. All of this is
located (`Env.Located`). A typing step `Tracks` locations if it keeps that true, and one that fails does so with
locations. The rules follow the way steps are put together. They are applied to the steps that type no tree and
resolve no call in `TypeFlow.Proofs.Inference.Tracking`, and to the engine in `TypeFlow.Proofs.Inference.Pointed`.
-/

namespace TypeFlow

/-! ### Failures -/

/-- An expander refuses a call of a macro with a message. -/
inductive Expander.Refuses : Expander → String → String → Prop
  | substitute {c : Expansion.Call} {message : String} (h : Expansion.substitute c = .error message) :
    Refuses .substitute c.name message
  | server {answers : Request → Answer} {r : Request} {text : String} (h : answers r = .error text) :
    Refuses (.server answers) r.name ("expanding macro '" ++ r.name ++ "': [-32000] " ++ text)

namespace Failure

variable {x : Expander} {f : Failure} {l : Option Location}

/-- Every frame of a failure has a location, and so has its cause, unless it is what the expander said. -/
def Points (x : Expander) : Failure → Prop
  | .instantiating l _ cause => l.isSome ∧ cause.Points x
  | .expanding l name text cause =>
    l.isSome ∧ (cause.Points x ∨ text = "" ∧ ∃ message, cause = .plain message ∧ x.Refuses name message)
  | .exhausted => True
  | f => f.loc?.isSome

/-- A failure points at the source as soon as it passes by a located node. -/
def Locatable (x : Expander) (f : Failure) : Prop :=
  ∀ l, (f.locate (some l)).Points x

theorem Points.locate (h : f.Points x) : (f.locate l).Points x := by
  cases f <;> simp_all [Points, Failure.locate, loc?]

theorem Points.locatable (h : f.Points x) : f.Locatable x :=
  fun _ => h.locate

theorem Locatable.locate (h : f.Locatable x) : (f.locate l).Locatable x := by
  cases l with
  | some l => exact (h l).locatable
  | none =>
    intro l
    have hl := h l
    cases f <;> simp_all [Points, Failure.locate]

@[grind ←]
theorem locatable_plain (m : String) : (plain m).Locatable x :=
  fun _ => rfl

@[grind ←]
theorem locatable_malformed {m : String} (h : l.isSome) : (malformed l m).Locatable x :=
  fun _ => h

@[grind ←]
theorem locatable_undefined (text method : String) : (undefined l text method).Locatable x :=
  fun _ => Option.isSome_or.trans (Bool.or_true _)

@[grind ←]
theorem locatable_arity (name : String) (given : Nat) (expected : List Nat) :
    (arity l name given expected).Locatable x :=
  fun _ => Option.isSome_or.trans (Bool.or_true _)

@[grind ←]
theorem locatable_overload (text : String) (overloads missing : List String) :
    (overload l text overloads missing).Locatable x :=
  fun _ => Option.isSome_or.trans (Bool.or_true _)

@[grind ←]
theorem locatable_mismatch (m : String) : (mismatch l m).Locatable x :=
  fun _ => Option.isSome_or.trans (Bool.or_true _)

@[grind ←]
theorem locatable_frozen (f : Frozen) : (frozen f).Locatable x :=
  fun _ => rfl

@[grind ←]
theorem locatable_exhausted : exhausted.Locatable x :=
  fun _ => True.intro

end Failure

open Failure (Points Locatable)

/-! ### Located environments -/

/-- A definition has a location, and its body and its defaults are located. -/
structure Definition.Located (d : Definition) : Prop where
  loc : d.loc.isSome
  body : ∀ b ∈ d.body, b.Located id
  fallbacks : ∀ p ∈ d.params, ∀ c ∈ p.fallback, c.Located id

/-- The instances of a method have bodies that are typed. -/
def MethodKind.HasBody : MethodKind → Prop
  | .user | .external _ => True
  | _ => False

instance : DecidablePred MethodKind.HasBody
  | .user | .external _ => isTrue trivial
  | .primitive | .getter _ | .setter _ => isFalse id

/-- A method whose bodies are typed is located. -/
def Method.Located (m : Method) : Prop :=
  m.kind.HasBody → m.definition.Located

/-- A call has a location, as have its arguments, and the body of its block is located. -/
structure CallParts.Located (c : CallParts) : Prop where
  mark : c.mark.loc.isSome
  args : ∀ a ∈ c.args, a.loc.isSome
  block : ∀ b ∈ c.block, ∀ t ∈ b.body, t.Located Mark.loc

/-- What is there to be typed is located, and `x` expands macros. -/
structure Env.Located (x : Expander) (e : Env) : Prop where
  expander : e.expander = x
  methods : ∀ m ∈ e.methods, m.Located
  sites : ∀ n s, e.sites.get? n = some s → s.call.Located
  blocks : ∀ b ∈ e.blocks, ∀ t ∈ b.block.body, t.Located Mark.loc
  notes : ∀ n ∈ e.notes, n.Located
  expansions : ∀ q ∈ e.expansions, q.2.tree = .node none .nop ∨ q.2.tree.Located id

/-- What has to be located in an environment. -/
def Env.stock (e : Env) : Expander × Array Method × Slots Site × Array BlockContext × Array Note ×
    List (String × Expanded) :=
  (e.expander, e.methods, e.sites, e.blocks, e.notes, e.expansions)

theorem Note.located_empty : Note.Located {} :=
  ⟨List.forall_mem_nil _, List.forall_mem_nil _⟩

section

variable {α : Type} {P : α → Prop} {as : Array α}

theorem forall_mem_push (h : ∀ a ∈ as, P a) {b : α} (hb : P b) : ∀ a ∈ as.push b, P a := by
  intro a ha
  rcases Array.mem_push.mp ha with hold | rfl
  · exact h a hold
  · exact hb

theorem forall_mem_modify (h : ∀ a ∈ as, P a) (i : Nat) {f : α → α} (hf : ∀ a, P a → P (f a)) :
    ∀ a ∈ as.modify i f, P a := by
  intro a ha
  obtain ⟨j, hj⟩ := Array.mem_iff_getElem?.mp ha
  rw [Array.getElem?_modify] at hj
  split at hj
  · obtain ⟨b, hb, rfl⟩ := Option.map_eq_some_iff.mp hj
    exact hf b (h b (Array.mem_of_getElem? hb))
  · exact h a (Array.mem_of_getElem? hj)

end

namespace Env.Located

variable {x : Expander} {e e' : Env}

theorem of_stock (h : e.Located x) (hstock : e'.stock = e.stock) : e'.Located x := by
  simp only [Env.stock, Prod.mk.injEq] at hstock
  obtain ⟨hexpander, hmethods, hsites, hblocks, hnotes, hexpansions⟩ := hstock
  exact ⟨hexpander ▸ h.expander, hmethods ▸ h.methods, hsites ▸ h.sites, hblocks ▸ h.blocks, hnotes ▸ h.notes,
    hexpansions ▸ h.expansions⟩

theorem note (h : e.Located x) (occ : Nat) : (e.note occ).Located := by
  rw [Env.note]
  cases hn : e.notes[occ]? with
  | none => exact Note.located_empty
  | some n => exact h.notes n (Array.mem_of_getElem? hn)

theorem written (h : e.Located x) {t : Placed} (ht : t.Located Mark.loc) : (e.written t).Located id :=
  e.located_written h.note ht

/-- A located method is added. -/
theorem pushMethod (h : e.Located x) {m : Method} (hm : m.Located) :
    { e with methods := e.methods.push m }.Located x :=
  { h with methods := forall_mem_push h.methods hm }

/-- A method is changed, but neither how it is declared nor how it is typed. -/
theorem modifyMethod (h : e.Located x) (id : MethodId) {f : Method → Method}
    (hdef : ∀ m, (f m).definition = m.definition) (hkind : ∀ m, (f m).kind = m.kind) :
    { e with methods := e.methods.modify id f }.Located x :=
  { h with
    methods := forall_mem_modify h.methods id fun m hm => by
      unfold Method.Located
      rw [hdef, hkind]
      exact hm }

/-- A site is opened for a located call. -/
theorem setSite (h : e.Located x) {n : NodeId} {s : Site} (hs : s.call.Located) :
    { e with sites := e.sites.set n s }.Located x :=
  { h with
    sites := by
      intro n' s' hs'
      rw [Slots.get?_set] at hs'
      split at hs'
      · obtain rfl := Option.some.inj hs'
        exact hs
      · exact h.sites n' s' hs' }

/-- A site is changed, but not its call. -/
theorem modifySite (h : e.Located x) (n : NodeId) {f : Site → Site} (hf : ∀ s, (f s).call = s.call) :
    { e with sites := e.sites.modify n f }.Located x :=
  { h with
    sites := by
      intro n' s' hs'
      rw [Slots.get?_modify] at hs'
      split at hs'
      · obtain ⟨s, hs, rfl⟩ := Option.map_eq_some_iff.mp hs'
        rw [hf]
        exact h.sites n' s hs
      · exact h.sites n' s' hs' }

/-- A located block is given to an instance. -/
theorem pushBlock (h : e.Located x) {b : BlockContext} (hb : ∀ t ∈ b.block.body, t.Located Mark.loc) :
    { e with blocks := e.blocks.push b }.Located x :=
  { h with blocks := forall_mem_push h.blocks hb }

/-- What is known of the block of an instance is changed, but not the block. -/
theorem modifyBlock (h : e.Located x) (b : Nat) {f : BlockContext → BlockContext} (hf : ∀ c, (f c).block = c.block) :
    { e with blocks := e.blocks.modify b f }.Located x :=
  { h with blocks := forall_mem_modify h.blocks b fun c hc => (hf c).symm ▸ hc }

/-- A note is changed to a located one. -/
theorem modifyNote (h : e.Located x) (occ : Nat) {f : Note → Note} (hf : ∀ n : Note, n.Located → (f n).Located) :
    (e.changeNote occ f).Located x :=
  { h with notes := Env.forall_changeNote ⟨nofun, nofun⟩ h.notes (hf _) }

/-- Notes are opened. -/
theorem opened {p : Program} (h : p.env.Located x) (count : Nat) : (p.opened count).env.Located x :=
  { h with
    notes := by
      intro n hn
      rcases Array.mem_append.mp hn with hold | hnew
      · exact h.notes n hold
      · obtain ⟨-, rfl⟩ := Array.mem_replicate.mp hnew
        exact Note.located_empty }

/-- An expansion is remembered. -/
theorem remember (h : e.Located x) {key : String} {y : Expanded} (hy : y.tree = .node none .nop ∨ y.tree.Located id) :
    { e with expansions := (key, y) :: e.expansions }.Located x :=
  { h with expansions := List.forall_mem_cons.mpr ⟨hy, h.expansions⟩ }

end Env.Located

/-- An instance of a method whose bodies are typed. -/
def Env.Bodied (e : Env) (id : InstanceId) : Prop :=
  ∃ inst m, e.instances[id]? = some inst ∧ e.methods[inst.method]? = some m ∧ m.kind.HasBody

/-- It stays one when a method is changed, but not how it is typed. -/
theorem Env.Bodied.modifyMethod {e : Env} {id : InstanceId} (h : e.Bodied id) (m : MethodId) {f : Method → Method}
    (hkind : ∀ m, (f m).kind = m.kind) : { e with methods := e.methods.modify m f }.Bodied id := by
  obtain ⟨inst, method, hinst, hmethod, hbody⟩ := h
  by_cases hm : m = inst.method
  · refine ⟨inst, f method, hinst, ?_, (hkind method).symm ▸ hbody⟩
    rw [Array.getElem?_modify, if_pos hm, hmethod]
    rfl
  · refine ⟨inst, method, hinst, ?_, hbody⟩
    rw [Array.getElem?_modify, if_neg hm]
    exact hmethod

/-- The body of a located definition is located, also behind the assignments of defaults. -/
theorem Definition.Located.bodyFor? {d : Definition} (hd : d.Located) {given : Nat} {source : Source}
    (h : Infer.bodyFor? d given = some source) : source.Located id := by
  have hbody : (d.body.getD (.node d.loc .nilLiteral)).Located id := by
    cases hb : d.body with
    | some b => exact hd.body b hb
    | none => exact .of_nodes hd.loc (List.forall_mem_nil _)
  unfold Infer.bodyFor? at h
  simp only at h
  split at h
  · obtain ⟨defaults, hdefaults, rfl⟩ := Option.map_eq_some_iff.mp h
    refine .of_nodes hd.loc ?_
    simp only [Form.fields, Fields.forall_mem_given, FieldValue.nodes, Option.mem_def, Option.some.injEq, forall_eq',
      List.forall_mem_append, List.forall_mem_singleton]
    refine ⟨fun t ht => ?_, hbody⟩
    obtain ⟨p, hp, hdefault⟩ := exists_of_mem_mapM hdefaults ht
    obtain ⟨value, hvalue, rfl⟩ := Option.map_eq_some_iff.mp hdefault
    have hlocated := hd.fallbacks p (List.mem_of_mem_drop hp) value hvalue
    -- of the two sides of the assignment, only the variable has no location
    refine .node hlocated.isSome ?_
    simp only [Form.fields, List.forall_mem_append, Fields.forall_mem_given, FieldValue.nodes, Option.mem_def,
      Option.some.injEq, forall_eq', List.forall_mem_singleton]
    exact ⟨fun hne => absurd ⟨rfl, rfl⟩ hne, fun _ => hlocated⟩
  · exact Option.some.inj h ▸ hbody

/-! ### Definitions made on demand -/

namespace Synthesis

theorem located_var {loc : Option Location} (h : loc.isSome) (name : String) : (var loc name).Located id :=
  .of_nodes h (by simp [Form.fields, Fields.text, Fields.flag, FieldValue.nodes])

theorem located_allocation {loc : Option Location} (h : loc.isSome) : (allocation loc).Located id := by
  have hcall : (Tree.node loc (.call none "allocate" none none false)).Located id :=
    .of_nodes h (by simp [Form.fields, Fields.given, Fields.text, Fields.flag, FieldValue.nodes])
  have hvar := located_var h "__new"
  exact .of_nodes h (by simp [Form.fields, Fields.given, FieldValue.nodes, newObject, hcall, hvar])

theorem located_plainConstructor {loc : Option Location} (h : loc.isSome) :
    (plainConstructor loc).Located where
  loc := h
  body := by
    have hvar := located_var h "__new"
    rintro b ⟨⟩
    exact .of_nodes h
      (by simp [Form.fields, Fields.given, FieldValue.nodes, newObject, hvar, located_allocation h])
  fallbacks := List.forall_mem_nil _

theorem located_constructor {loc : Option Location} (h : loc.isSome) (params : List (Param Source)) :
    (constructor loc params).Located where
  loc := h
  body := by
    have hinit : (initialization loc params).Located id :=
      .of_nodes h (by simp [Form.fields, Fields.given, Fields.text, Fields.flag, FieldValue.nodes,
        newObject, located_var h])
    have hvar := located_var h "__new"
    rintro b ⟨⟩
    exact .of_nodes h
      (by simp [Form.fields, Fields.given, FieldValue.nodes, newObject, hvar, hinit, located_allocation h])
  fallbacks := by simp [constructor, bare]

theorem located_forwarder {loc : Option Location} (h : loc.isSome) (key : GroupKey) :
    (forwarder loc key).Located where
  loc := h
  body := by
    have hname : (Tree.node loc (.symbolLiteral key.name)).Located id :=
      .of_nodes h (by simp [Form.fields, Fields.text, FieldValue.nodes])
    have harray : (argArray loc key.arity).Located id := by
      unfold argArray
      split
      · exact .of_nodes h (by simp [Form.fields, Fields.given, FieldValue.nodes])
      · exact .of_nodes h (by simp [Form.fields, Fields.given, FieldValue.nodes, located_var h])
    rintro b ⟨⟩
    exact .of_nodes h (by simp [Form.fields, Fields.given, Fields.text, Fields.flag, FieldValue.nodes, hname, harray])
  fallbacks := by simp [forwarder]

end Synthesis

/-! ### Steps -/

section

variable {α β γ : Type}

/-- An outcome is a result with `Q`, or a failure with `F`. -/
def Answers (F : Failure → Prop) (Q : α → Prop) : Except Failure α → Prop
  | .ok a => Q a
  | .error f => F f

/-- Runs that start where `P` holds keep what is there to be typed located; their failures satisfy `F` and their
results `Q`. -/
def TracksFrom (P : Program → Prop) (x : Expander) (F : Failure → Prop) (Q : α → Prop) (m : Infer α) : Prop :=
  ∀ p : Program, P p → p.env.Located x → Flow.Ends p m fun r p' => p'.env.Located x ∧ Answers F Q r

/-- Every run keeps what is there to be typed located; its failure satisfies `F` and its result `Q`. -/
def TracksTo (x : Expander) (F : Failure → Prop) (Q : α → Prop) (m : Infer α) : Prop :=
  ∀ p : Program, p.env.Located x → Flow.Ends p m fun r p' => p'.env.Located x ∧ Answers F Q r

/-- Every run keeps what is there to be typed located, and its failure satisfies `F`. -/
def Tracks (x : Expander) (F : Failure → Prop) (m : Infer α) : Prop :=
  TracksTo x F (fun _ => True) m

variable {x : Expander} {F G : Failure → Prop} {Q : α → Prop} {R : β → Prop} {m : Infer α}

namespace TracksTo

theorem of_run (hm : TracksTo x F Q m) {p p' : Program} (hp : p.env.Located x) {r : Except Failure α}
    (h : m.run.run p = (r, p')) : p'.env.Located x ∧ Answers F Q r :=
  (hm p hp).of_run h

theorem pure {a : α} (h : Q a) : TracksTo x F Q (pure a) :=
  fun _ hp => ⟨hp, h⟩

theorem throw {f : Failure} (h : F f) : TracksTo x F Q (throw f) :=
  fun _ hp => ⟨hp, h⟩

theorem bind {k : α → Infer β} (hm : TracksTo x F Q m) (hk : ∀ a, Q a → TracksTo x F R (k a)) :
    TracksTo x F R (m >>= k) := by
  intro p hp
  refine .bind (fun a p' hrun => ?_) fun f p' hrun => ?_
  · obtain ⟨hp', ha⟩ := hm.of_run hp hrun
    exact hk a ha p' hp'
  · exact hm.of_run hp hrun

theorem imp {Q' : α → Prop} (hm : TracksTo x F Q m) (hF : ∀ f, F f → G f) (hQ : ∀ a, Q a → Q' a) : TracksTo x G Q' m :=
  fun p hp => (hm p hp).imp fun r p' ⟨hp', hr⟩ => ⟨hp', by
    cases r with
    | ok a => exact hQ a hr
    | error f => exact hF f hr⟩

theorem tracks (hm : TracksTo x F Q m) : Tracks x F m :=
  hm.imp (fun _ h => h) fun _ _ => True.intro

theorem locating (hm : TracksTo x F Q m) {loc : Option Location} (h : ∀ f, F f → G (f.locate loc)) :
    TracksTo x G Q (Flow.locating loc m) := by
  intro p hp
  refine .locating (fun a p' hrun => hm.of_run hp hrun) fun f p' hrun => ?_
  obtain ⟨hp', hf⟩ := hm.of_run hp hrun
  exact ⟨hp', h f hf⟩

theorem attempt (hm : TracksTo x F Q m) : TracksTo x G (Answers F Q) (Flow.attempt m) :=
  fun p hp => hm p hp

end TracksTo

theorem TracksTo.from (hm : TracksTo x F Q m) (P : Program → Prop) : TracksFrom P x F Q m :=
  fun p _ => hm p

/-- What follows starts where the first step ends. -/
theorem TracksFrom.andThen {P : Program → Prop} {S : α → Program → Prop} {k : α → Infer β}
    (hm : TracksFrom P x F Q m) (hP : ∀ p a p', P p → m.run.run p = (.ok a, p') → S a p')
    (hk : ∀ a, Q a → TracksFrom (S a) x F R (k a)) : TracksFrom P x F R (m >>= k) := by
  intro p hp hlocated
  refine .bind (fun a p' hrun => ?_) fun f p' hrun => (hm p hp hlocated).of_run hrun
  obtain ⟨hp', ha⟩ := (hm p hp hlocated).of_run hrun
  exact hk a ha p' (hP p a p' hp hrun) hp'

theorem TracksFrom.bind {P : Program → Prop} {k : α → Infer β} (hm : TracksFrom P x F Q m)
    (hk : ∀ a, Q a → TracksTo x F R (k a)) : TracksFrom P x F R (m >>= k) :=
  hm.andThen (S := fun _ _ => True) (fun _ _ _ _ _ => True.intro) fun a ha => (hk a ha).from _

theorem TracksFrom.attempt {P : Program → Prop} (hm : TracksFrom P x F Q m) :
    TracksFrom P x G (Answers F Q) (Flow.attempt m) :=
  fun p hp hlocated => hm p hp hlocated

namespace Tracks

@[grind ←]
theorem pure (a : α) : Tracks x F (pure a : Infer α) :=
  TracksTo.pure True.intro

@[grind ←]
theorem throw {f : Failure} (h : F f) : Tracks x F (throw f : Infer α) :=
  TracksTo.throw h

theorem bind {k : α → Infer β} (hm : Tracks x F m) (hk : ∀ a, Tracks x F (k a)) : Tracks x F (m >>= k) :=
  TracksTo.bind hm fun a _ => hk a

theorem bindTo {k : α → Infer β} (hm : Tracks x F m) (hk : ∀ a, TracksTo x F R (k a)) : TracksTo x F R (m >>= k) :=
  TracksTo.bind hm fun a _ => hk a

/-- A failure that can be located still can be when it has passed by a node. -/
theorem locating (hm : Tracks x (Locatable x) m) (loc : Option Location) :
    Tracks x (Locatable x) (Flow.locating loc m) :=
  TracksTo.locating hm fun _ hf => hf.locate

/-- A failure that can be located points at the source when it has passed by a located node. -/
theorem located (hm : Tracks x (Locatable x) m) {loc : Option Location} (hloc : loc.isSome) :
    Tracks x (Points x) (Flow.locating loc m) := by
  obtain ⟨l, rfl⟩ := Option.isSome_iff_exists.mp hloc
  exact TracksTo.locating hm fun f hf => hf l

theorem forIn {l : List γ} {f : γ → PUnit → Infer (ForInStep PUnit)} (hf : ∀ c, Tracks x F (f c ⟨⟩)) :
    Tracks x F (forIn l ⟨⟩ f) := by
  induction l with
  | nil => exact pure _
  | cons c l ih =>
    rw [List.forIn_cons]
    refine (hf c).bind fun r => ?_
    split
    · exact pure _
    · exact ih

@[grind ←]
theorem onTypes (c : TableM α) : Tracks x F (Flow.onTypes c : Infer α) :=
  fun _ hp => ⟨hp, True.intro⟩

@[grind ←]
theorem onGraph (c : Graph → α × Graph) : Tracks x F (Flow.onGraph c : Infer α) :=
  fun _ hp => ⟨hp, True.intro⟩

@[grind ←]
theorem changeGraph (f : Graph → Graph) : Tracks x F (Flow.changeGraph f : Infer Unit) :=
  fun _ hp => ⟨hp, True.intro⟩

theorem changeEnv {f : Env → Env} (h : ∀ e : Env, e.Located x → (f e).Located x) : Tracks x F (Infer.changeEnv f) :=
  fun p hp => ⟨h p.env hp, True.intro⟩

theorem changeBeside {f : Env → Env} (h : ∀ e, (f e).stock = e.stock) : Tracks x F (Infer.changeEnv f) :=
  changeEnv fun e he => he.of_stock (h e)

end Tracks

theorem Tracks.from (hm : Tracks x F m) (P : Program → Prop) : TracksFrom P x F (fun _ => True) m :=
  TracksTo.from hm P

end

end TypeFlow
