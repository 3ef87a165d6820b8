import TypeFlow.Proofs.Inference.Evolution
import TypeFlow.Proofs.Inference.Typing
import TypeFlow.Proofs.Types.Regular

/-!
# Instances are made once

A method that expects no block has at most one instance for a receiver type and argument types, and a foreign
function at most one at all. Nothing of this depends on what was typed or whether it failed: the instance is
remembered in the same act that makes it, so a call that is resolved while the body is being typed finds it,
and so does every later one (`Session.memoised`).

This is read off an invariant. The numbers in overload groups, in the names of foreign functions and in what methods
remember refer to methods and instances of the right kind, and every instance is accounted for by its method: the
instance of a foreign function is its only one, and an instance of a method that expects no block is remembered under
its types (`Program.Ordered`). Every act keeps this (`Acts.ordered`), as an instance and the entry that remembers it
are made together.

An instance with a block is never remembered. As overloads for calls with a block and for calls without are
filed apart, its method has no other instances.
-/

namespace TypeFlow

variable {p p' : Program}

/-! ### Order -/

/-- How a method accounts for one of its instances: a foreign function has no other, and a method that expects
no block remembers it. -/
def Method.Keeps (m : Method) (a : Instance) (i : InstanceId) : Prop :=
  if m.isForeign then m.external = some i
  else m.definition.yields = true ∨ assoc? m.memo (a.owner :: a.args) = some i

theorem Method.Keeps.later {m m' : Method} {a a' : Instance} {i : InstanceId} (h : m.Keeps a i)
    (hm : m.Extends m') (ha : a'.purpose = a.purpose) : m'.Keeps a' i := by
  obtain ⟨-, howner, hargs⟩ : a'.method = a.method ∧ a'.owner = a.owner ∧ a'.args = a.args := by
    simpa [Instance.purpose] using ha
  unfold Method.Keeps at *
  rw [hm.isForeign, hm.definition, howner, hargs]
  split
  · rename_i hforeign
    rw [if_pos hforeign] at h
    exact hm.external i h
  · rename_i hforeign
    rw [if_neg hforeign] at h
    exact h.imp_right (hm.memo _ i)

namespace Program

/-- Numbers refer to what they should, and every instance is accounted for. -/
structure Ordered (p : Program) : Prop where
  filed : ∀ g ∈ p.env.groups, ∀ c ∈ g.candidates, p.Expects c.id g.key.yields
  named : ∀ id, p.Names id → p.Imports id
  kept : ∀ (i : InstanceId) (a : Instance), p.env.instances[i]? = some a →
    ∃ m, p.env.methods[a.method]? = some m ∧ m.Keeps a i
  memo : ∀ (id : MethodId) (m : Method) (owner : TypeId) (args : List TypeId) (i : InstanceId),
    p.env.methods[id]? = some m → assoc? m.memo (owner :: args) = some i →
    ∃ a, p.env.instances[i]? = some a ∧ a.purpose = (id, owner, args)
  external : ∀ (id : MethodId) (m : Method) (i : InstanceId), p.env.methods[id]? = some m →
    m.external = some i → ∃ a, p.env.instances[i]? = some a ∧ a.method = id

theorem Ordered.offers (hp : p.Ordered) {id : MethodId} {yields : Bool} (h : p.Offers id yields) :
    p.Expects id yields := by
  obtain ⟨g, hg, rfl, c, hc, rfl⟩ := h
  exact hp.filed g hg c hc

namespace Act

/-! ### What acts do to it -/

theorem filed (h : Act p p') (hp : p.Ordered) :
    ∀ g ∈ p'.env.groups, ∀ c ∈ g.candidates, p'.Expects c.id g.key.yields := by
  intro g hg c hc
  refine Acts.expects (.single h) ?_
  cases h with
  | change _ hsame =>
    have hgroups : p'.env.groups = p.env.groups := congrArg (·.2.1) hsame
    exact hp.filed g (hgroups ▸ hg) c hc
  | file hgs => exact (hgs g hg c hc).elim hp.offers id
  | _ => exact hp.filed g hg c hc

theorem named (h : Act p p') (hp : p.Ordered) : ∀ id, p'.Names id → p'.Imports id := by
  rintro id ⟨key, hkey⟩
  refine Acts.imports (.single h) ?_
  cases h with
  | change _ hsame =>
    have hfuns : p'.env.funs = p.env.funs := congrArg (·.2.2.1) hsame
    exact hp.named id ⟨key, hfuns ▸ hkey⟩
  | name key' himports =>
    rcases List.mem_cons.mp hkey with heq | hkey
    · cases heq
      exact himports
    · exact hp.named id ⟨key, hkey⟩
  | _ => exact hp.named id ⟨key, hkey⟩

/-- The instances after an act are those before it, and the one that it makes. -/
theorem kept (h : Act p p') (hp : p.Ordered) {i : InstanceId} {a : Instance}
    (ha : p'.env.instances[i]? = some a) : ∃ m, p'.env.methods[a.method]? = some m ∧ m.Keeps a i := by
  have hold : ∀ a₀, p.env.instances[i]? = some a₀ → a.purpose = a₀.purpose →
      ∃ m, p'.env.methods[a.method]? = some m ∧ m.Keeps a i := by
    intro a₀ ha₀ hpurpose
    obtain ⟨m, hm, hkeeps⟩ := hp.kept i a₀ ha₀
    obtain ⟨m', hm', hx⟩ := h.method hm
    have hmethod : a.method = a₀.method := congrArg Prod.fst hpurpose
    exact ⟨m', hmethod ▸ hm', hkeeps.later hx hpurpose⟩
  -- a new instance has the number behind all others
  have hpush : ∀ b, (p.env.instances.push b)[i]? = some a →
      p.env.instances[i]? = some a ∨ i = p.env.instances.size ∧ b = a := by
    intro b hb
    rw [Array.getElem?_push] at hb
    split at hb
    · rename_i hi
      exact .inr ⟨hi, Option.some.inj hb⟩
    · exact .inl hb
  cases h with
  | change _ hsame =>
    have hinstances : p'.env.instances = p.env.instances := congrArg (·.2.2.2) hsame
    exact hold a (hinstances ▸ ha) rfl
  | declare _ _ _ | file _ | name _ _ => exact hold a ha rfl
  | edit j hkeep =>
    simp only [Array.getElem?_modify] at ha
    split at ha
    · rename_i hj
      obtain ⟨a₀, ha₀, rfl⟩ := Option.map_eq_some_iff.mp ha
      exact hold a₀ ha₀ (hkeep a₀ (hj ▸ ha₀)).purpose
    · exact hold a ha rfl
  | yielding b hoffers =>
    rcases hpush b ha with ha | ⟨rfl, rfl⟩
    · exact hold a ha rfl
    · obtain ⟨m, hm, hforeign, hyields⟩ := hp.offers hoffers
      refine ⟨m, hm, ?_⟩
      rw [Method.Keeps, if_neg (by simp [hforeign])]
      exact .inl hyields
  | memoised b hoffers hnew =>
    rcases hpush b ha with ha | ⟨rfl, rfl⟩
    · exact hold a ha rfl
    · obtain ⟨m, hm, hforeign, -⟩ := hp.offers hoffers
      refine ⟨_, (Array.getElem?_modify ..).trans (by rw [if_pos rfl, hm]; rfl), ?_⟩
      rw [Method.Keeps, if_neg (by simpa [Method.isForeign] using hforeign)]
      exact .inr (by rw [assoc?_cons, if_pos rfl])
  | foreign b hnames hnew =>
    rcases hpush b ha with ha | ⟨rfl, rfl⟩
    · exact hold a ha rfl
    · obtain ⟨m, hm, hforeign⟩ := hp.named _ hnames
      refine ⟨_, (Array.getElem?_modify ..).trans (by rw [if_pos rfl, hm]; rfl), ?_⟩
      rw [Method.Keeps, if_pos (by simpa [Method.isForeign] using hforeign)]

/-- What a method remembers was remembered by an earlier state of it, or is one of its instances. -/
structure Recalls (p : Program) (id : MethodId) (m m' : Method) : Prop where
  memo : ∀ key i, assoc? m'.memo key = some i → assoc? m.memo key = some i ∨
    ∃ a, p.env.instances[i]? = some a ∧ a.method = id ∧ a.owner :: a.args = key
  external : ∀ i, m'.external = some i → m.external = some i ∨
    ∃ a, p.env.instances[i]? = some a ∧ a.method = id

/-- A method after an act was declared by it, or was there before; what it remembers beyond that is the
instance that the act makes. -/
theorem method_origin (h : Act p p') {id : MethodId} {m' : Method} (hm' : p'.env.methods[id]? = some m') :
    m'.memo = [] ∧ m'.external = none ∨
      ∃ m, p.env.methods[id]? = some m ∧ Recalls p' id m m' := by
  have hsame : p.env.methods[id]? = some m' →
      ∃ m, p.env.methods[id]? = some m ∧ Recalls p' id m m' :=
    fun hm => ⟨m', hm, fun _ _ hi => .inl hi, fun _ hi => .inl hi⟩
  have hlast : ∀ b, (p.env.instances.push b)[p.env.instances.size]? = some b :=
    fun _ => Array.getElem?_push_size
  cases h with
  | change _ hcat =>
    have hmethods : p'.env.methods = p.env.methods := congrArg Prod.fst hcat
    exact .inr (hsame (hmethods ▸ hm'))
  | file _ | name _ _ | edit _ _ | yielding _ _ => exact .inr (hsame hm')
  | declare m₀ hmemo hext =>
    simp only [Array.getElem?_push] at hm'
    split at hm'
    · obtain rfl := Option.some.inj hm'
      exact .inl ⟨hmemo, hext⟩
    · exact .inr (hsame hm')
  | memoised b _ _ =>
    simp only [Array.getElem?_modify] at hm'
    split at hm'
    · rename_i hid
      obtain ⟨m, hm, rfl⟩ := Option.map_eq_some_iff.mp hm'
      refine .inr ⟨m, hm, fun key i hi => ?_, fun _ hi => .inl hi⟩
      simp only [assoc?_cons] at hi
      split at hi
      · rename_i hkey
        obtain rfl := Option.some.inj hi
        exact .inr ⟨b, hlast b, hid, hkey⟩
      · exact .inl hi
    · exact .inr (hsame hm')
  | foreign b _ _ =>
    simp only [Array.getElem?_modify] at hm'
    split at hm'
    · rename_i hid
      obtain ⟨m, hm, rfl⟩ := Option.map_eq_some_iff.mp hm'
      refine .inr ⟨m, hm, fun _ _ hi => .inl hi, fun i hi => ?_⟩
      obtain rfl := Option.some.inj hi
      exact .inr ⟨b, hlast b, hid⟩
    · exact .inr (hsame hm')

/-- **Acts keep a program in order.** -/
theorem ordered (h : Act p p') (hp : p.Ordered) : p'.Ordered where
  filed := h.filed hp
  named := h.named hp
  kept _ _ ha := h.kept hp ha
  memo id m' owner args i hm' hi := by
    rcases h.method_origin hm' with ⟨hmemo, -⟩ | ⟨m, hm, hrecalls⟩
    · rw [hmemo] at hi
      cases hi
    · rcases hrecalls.memo _ i hi with hold | ⟨a, ha, hmethod, hkey⟩
      · obtain ⟨a, ha, hpurpose⟩ := hp.memo id m owner args i hm hold
        obtain ⟨a', ha', hsame⟩ := h.inst ha
        exact ⟨a', ha', hsame.purpose.trans hpurpose⟩
      · obtain ⟨howner, hargs⟩ := List.cons.inj hkey
        exact ⟨a, ha, by rw [Instance.purpose, hmethod, howner, hargs]⟩
  external id m' i hm' hi := by
    rcases h.method_origin hm' with ⟨-, hext⟩ | ⟨m, hm, hrecalls⟩
    · rw [hext] at hi
      cases hi
    · rcases hrecalls.external i hi with hold | hnew
      · obtain ⟨a, ha, hmethod⟩ := hp.external id m i hm hold
        obtain ⟨a', ha', hsame⟩ := h.inst ha
        exact ⟨a', ha', (congrArg Prod.fst hsame.purpose).trans hmethod⟩
      · exact hnew

end Act

end Program

theorem Acts.ordered (h : Acts p p') (hp : p.Ordered) : p'.Ordered := by
  induction h with
  | refl => exact hp
  | tail _ ha ih => exact ha.ordered ih

namespace Program.Ordered

/-! ### Instances are unique -/

variable {i j : InstanceId} {a b : Instance}

/-- An instance of a method that expects no block is remembered under its types. -/
theorem remembered (hp : p.Ordered) (ha : p.env.instances[i]? = some a)
    (hmethod : p.Expects a.method false) :
    ∃ m, p.env.methods[a.method]? = some m ∧ assoc? m.memo (a.owner :: a.args) = some i := by
  obtain ⟨m, hm, hforeign, hyields⟩ := hmethod
  obtain ⟨m', hm', hkeeps⟩ := hp.kept i a ha
  obtain rfl := Option.some.inj (hm.symm.trans hm')
  rw [Method.Keeps, if_neg (by simp [hforeign]), hyields] at hkeeps
  exact ⟨m, hm, hkeeps.resolve_left Bool.false_ne_true⟩

/-- A method that expects no block has one instance for a receiver type and argument types. -/
theorem unique (hp : p.Ordered) (ha : p.env.instances[i]? = some a) (hb : p.env.instances[j]? = some b)
    (hmethod : p.Expects a.method false) (hpurpose : a.purpose = b.purpose) : i = j := by
  simp only [Instance.purpose, Prod.mk.injEq] at hpurpose
  obtain ⟨hsame, howner, hargs⟩ := hpurpose
  obtain ⟨m, hm, hi⟩ := hp.remembered ha hmethod
  obtain ⟨m', hm', hj⟩ := hp.remembered hb (hsame ▸ hmethod)
  rw [hsame] at hm
  obtain rfl := Option.some.inj (hm.symm.trans hm')
  rw [howner, hargs, hj] at hi
  exact (Option.some.inj hi).symm

/-- A foreign function has one instance. -/
theorem unique_foreign (hp : p.Ordered) (ha : p.env.instances[i]? = some a)
    (hb : p.env.instances[j]? = some b) (hmethod : p.Imports a.method) (hsame : a.method = b.method) :
    i = j := by
  obtain ⟨m, hm, hforeign⟩ := hmethod
  have known : ∀ {k : InstanceId} {c : Instance}, p.env.instances[k]? = some c → p.env.methods[c.method]? = some m →
      m.external = some k := by
    intro k c hc hm
    obtain ⟨m', hm', hkeeps⟩ := hp.kept k c hc
    obtain rfl := Option.some.inj (hm.symm.trans hm')
    rwa [Method.Keeps, if_pos hforeign] at hkeeps
  have hi := known ha hm
  have hj := known hb (hsame ▸ hm)
  exact Option.some.inj (hi.symm.trans hj)

end Program.Ordered

/-! ### What calls resolve to -/

/-- A method suits calls with a block, or calls without: it is a foreign function, or expects as much. -/
def Program.Suits (p : Program) (id : MethodId) (yields : Bool) : Prop :=
  p.Imports id ∨ p.Expects id yields

theorem Acts.suits (h : Acts p p') {id : MethodId} {yields : Bool} (hid : p.Suits id yields) :
    p'.Suits id yields :=
  hid.imp h.imports h.expects

variable {id : MethodId} {i : InstanceId}

namespace Infer

theorem methods_of_newExternal {m : Method} (h : (newExternal id m).run.run p = (.ok i, p')) :
    p'.env.methods = p.env.methods.modify id fun m => { m with external := some i } := by
  rw [newExternal_eq] at h
  obtain ⟨types, p₁, htypes, h⟩ := Flow.exists_of_run_bind h
  obtain ⟨params, g, hrun, -⟩ := run_installExternal id m types.1 types.2 p₁
  rw [hrun] at h
  cases h
  rw [(detached_declaredTypes m).of_run htypes]

/-- Asking for the instance of a foreign function records it. -/
theorem external_of_externalId (hp : p.Ordered) (hid : p.Names id)
    (h : (externalId id).run.run p = (.ok i, p')) :
    ∃ m, p'.env.methods[id]? = some m ∧ m.external = some i := by
  obtain ⟨m, hm, -⟩ := hp.named id hid
  obtain ⟨a, p₁, hexternal, h⟩ := Flow.exists_of_run_bind h
  have hrecorded : ∃ m i, p₁.env.methods[id]? = some m ∧ m.external = some i := by
    obtain ⟨m', p₂, hmethod, hrest⟩ := Flow.exists_of_run_bind hexternal
    rw [run_method hm] at hmethod
    cases hmethod
    split at hrest
    · rename_i j hj
      obtain rfl : p = p₁ := congrArg Prod.snd hrest
      exact ⟨m, j, hm, hj⟩
    · obtain ⟨j, p₃, hnew, hrest⟩ := Flow.exists_of_run_bind hrest
      obtain rfl : p₃ = p₁ := congrArg Prod.snd hrest
      refine ⟨{ m with external := some j }, j, ?_, rfl⟩
      rw [methods_of_newExternal hnew, Array.getElem?_modify, if_pos rfl, hm]
      rfl
  obtain ⟨m₁, j, hm₁, hj⟩ := hrecorded
  obtain ⟨m', p₂, hmethod, h⟩ := Flow.exists_of_run_bind h
  rw [run_method hm₁] at hmethod
  cases hmethod
  cases h
  exact ⟨m₁, hm₁, by rw [hj]; rfl⟩

end Infer

namespace Engine

open Infer

variable {e : Engine} {site : Site} {lib recv owner : TypeId} {args : List TypeId} {nodes : List NodeId}

/-- A call of a foreign function has its instance as the target. -/
theorem imports_of_callFun (he : e.Tame) (hp : p.Ordered) (hid : p.Names id) {targets : List Target}
    (h : (e.callFun site lib args id).run.run p = (.ok (nodes, targets), p')) :
    ∃ i a, targets = [.inst i] ∧ p'.env.instances[i]? = some a ∧ p'.Imports a.method := by
  obtain ⟨m, p₁, hmethod, h⟩ := Flow.exists_of_run_bind h
  obtain rfl : p = p₁ := congrArg Prod.snd hmethod
  simp only at h
  split at h
  · cases h
  obtain ⟨i, p₂, hi, h⟩ := Flow.exists_of_run_bind h
  have hacts := (evolving_externalId id).acts hid hi
  obtain ⟨m', hm', hexternal⟩ := external_of_externalId hp hid hi
  obtain ⟨a, ha, hmethod⟩ := (hacts.ordered hp).external id m' i hm' hexternal
  -- checking and converting the arguments comes after that
  have hlater : targets = [.inst i] ∧ Acts p₂ p' := by
    obtain ⟨inst, p₃, hinst, h⟩ := Flow.exists_of_run_bind h
    obtain rfl : p₂ = p₃ := congrArg Prod.snd hinst
    obtain ⟨_, p₄, hcheck, h⟩ := Flow.exists_of_run_bind h
    have hchecked := (he.checkArgs _ _ _ _ _).acts hcheck
    split at h
    · obtain ⟨_, p₅, hconvert, h⟩ := Flow.exists_of_run_bind h
      cases h
      exact ⟨rfl, hchecked.trans ((he.convertRest _ _ _).acts hconvert)⟩
    · cases h
      exact ⟨rfl, hchecked⟩
  obtain ⟨a', ha', hpurpose⟩ := hlater.2.inst ha
  refine ⟨i, a', hlater.1, ha', ?_⟩
  have hsame : a'.method = id := (congrArg Prod.fst hpurpose.purpose).trans hmethod
  exact hsame ▸ Acts.imports (hacts.trans hlater.2) (hp.named id hid)

/-- An instance that is asked for is remembered, or may not be made, and then nothing changes. Otherwise it is the
next one, and is there before anything else is typed. -/
theorem exists_of_instantiate {m : Match MethodId} {method : Method}
    (hmethod : p.env.methods[m.candidate.id]? = some method) {r : Except Failure InstanceId}
    (h : (e.instantiate site owner m).run.run p = (r, p')) :
    (p' = p ∧ ∀ i, r = .ok i → assoc? method.memo (owner :: m.argTypes) = some i) ∨
    ∃ q method', q.env.instances = p.env.instances.push (created m.candidate.id owner m.argTypes m.free p) ∧
      q.env.methods[m.candidate.id]? = some method' ∧ method'.definition = method.definition ∧
      method'.kind = method.kind ∧ (e.typeInstance site p.env.instances.size method.kind >>= fun _ =>
        (pure p.env.instances.size : Infer InstanceId)).run.run q = (r, p') := by
  rw [instantiate, Flow.run_bind_of_ok (run_method hmethod)] at h
  simp only at h
  split at h
  · rename_i inst hknown
    cases h
    refine .inl ⟨rfl, fun i hi => ?_⟩
    cases hi
    split at hknown
    · exact hknown
    · cases hknown
  rw [run_env_bind] at h
  split at h
  · cases h
    exact .inl ⟨rfl, fun i hi => nomatch hi⟩
  rw [Flow.run_bind_of_ok (run_newInstance _ _ _ _ p)] at h
  let a := created m.candidate.id owner m.argTypes m.free p
  let made : Program := { p with
    graph := (p.graph.add a.signature).2, env := { p.env with instances := p.env.instances.push a } }
  refine .inr ?_
  split at h
  · let remembering : Method := { method with memo := (owner :: m.argTypes, p.env.instances.size) :: method.memo }
    refine ⟨_, remembering, rfl, ?_, rfl, rfl, h⟩
    refine (Array.getElem?_modify ..).trans ?_
    rw [if_pos rfl, hmethod]
    rfl
  · exact ⟨made, method, rfl, hmethod, rfl, rfl, h⟩

/-- An instance that is asked for is remembered, and then nothing changes, or it is the next one. It is there
then also if typing its body fails. -/
theorem run_instantiate (he : e.Tame) (hp : p.Ordered) {m : Match MethodId}
    (hoffers : p.Offers m.candidate.id site.call.block.isSome) {r : Except Failure InstanceId}
    (h : (e.instantiate site owner m).run.run p = (r, p')) :
    (p' = p ∧ ∀ i, r = .ok i →
      ∃ a, p.env.instances[i]? = some a ∧ a.purpose = (m.candidate.id, owner, m.argTypes)) ∨
    (∀ i, r = .ok i → i = p.env.instances.size) ∧
      ∃ a, p'.env.instances[p.env.instances.size]? = some a ∧
        a.purpose = (m.candidate.id, owner, m.argTypes) := by
  obtain ⟨method, hmethod, -⟩ := hp.offers hoffers
  rcases exists_of_instantiate hmethod h with ⟨rfl, hknown⟩ | ⟨q, -, hq, -, -, -, hrest⟩
  · exact .inl ⟨rfl, fun i hi => hp.memo _ _ _ _ _ hmethod (hknown i hi)⟩
  have htyped : EvolvingFrom (Unwritten p.env.instances.size) (e.typeInstance site p.env.instances.size method.kind >>=
      fun _ => (pure p.env.instances.size : Infer InstanceId)) :=
    (he.typeInstance _ _ _).andThen (Q := fun _ _ => True) (fun _ _ _ _ _ => trivial) fun _ => (Evolving.pure _).from _
  have hacts := htyped.acts (unwritten_of_push hq rfl) hrest
  obtain ⟨a, ha, hx⟩ := hacts.inst (hq ▸ Array.getElem?_push_size)
  refine .inr ⟨fun i hi => ?_, a, ha, hx.purpose⟩
  subst hi
  obtain ⟨_, p₂, -, hlast⟩ := Flow.exists_of_run_bind hrest
  cases hlast
  rfl

/-- **An instance is what it was asked for**, be it made or remembered. -/
theorem purpose_of_instantiate (he : e.Tame) (hp : p.Ordered) {m : Match MethodId}
    (hoffers : p.Offers m.candidate.id site.call.block.isSome)
    (h : (e.instantiate site owner m).run.run p = (.ok i, p')) :
    ∃ a, p'.env.instances[i]? = some a ∧ a.purpose = (m.candidate.id, owner, m.argTypes) := by
  rcases run_instantiate he hp hoffers h with ⟨rfl, hknown⟩ | ⟨hnext, hmade⟩
  · exact hknown i rfl
  · obtain rfl := hnext i rfl
    exact hmade

/-- **What a call resolves to suits it.** -/
theorem suits_of_resolveCall (he : e.Tame) (hp : p.Ordered)
    (h : (e.resolveCall site recv args).run.run p = (.ok (nodes, [.inst i]), p')) :
    ∃ a, p'.env.instances[i]? = some a ∧ p'.Suits a.method site.call.block.isSome := by
  have hdispatch : ∀ {q : Program} {recvs : List TypeId},
      (e.dispatch site recvs args).run.run q ≠ (.ok (nodes, [.inst i]), p') := by
    intro q recvs h
    obtain ⟨shapes, q₁, -, h⟩ := Flow.exists_of_run_bind h
    obtain ⟨d, q₂, -, h⟩ := Flow.exists_of_run_bind h
    obtain ⟨_, q₃, -, h⟩ := Flow.exists_of_run_bind h
    obtain ⟨node, q₄, -, h⟩ := Flow.exists_of_run_bind h
    cases h
  obtain ⟨t, p₁, htypes, h⟩ := Flow.exists_of_run_bind h
  cases htypes
  split at h
  · obtain ⟨found, p₂, hfun, h⟩ := Flow.exists_of_run_bind h
    obtain rfl : p = p₂ := congrArg Prod.snd hfun
    split at h
    · obtain ⟨t, p₃, -, h⟩ := Flow.exists_of_run_bind h
      cases h
    · obtain ⟨j, a, htargets, ha, himports⟩ := imports_of_callFun he hp (names_of_fun? hfun) h
      cases htargets
      exact ⟨a, ha, .inl himports⟩
  split at h
  · obtain ⟨⟨owner, ms⟩, p₂, hmatch, h⟩ := Flow.exists_of_run_bind h
    have hacts := (evolving_matchCall _ _ _).acts hmatch
    simp only at h
    split at h
    · exact absurd h hdispatch
    split at h
    · cases h
    · rename_i m rest hms
      obtain ⟨j, p₃, hinst, h⟩ := Flow.exists_of_run_bind h
      cases h
      have hp₂ := hacts.ordered hp
      have hoffers := offers_of_matchCall hmatch (m := m) (hms ▸ List.mem_cons_self)
      obtain ⟨a, ha, hpurpose⟩ := purpose_of_instantiate he hp₂ hoffers hinst
      have hmethod : a.method = m.candidate.id := congrArg Prod.fst hpurpose
      have hlater := (he.instantiate _ _ _).acts hoffers hinst
      exact ⟨a, ha, .inr (hmethod ▸ hlater.expects (hp₂.offers hoffers))⟩
  · exact absurd h hdispatch

end Engine

/-! ### Sessions -/

theorem Program.ordered_initial (x : Expander) : (initial x).Ordered := by
  refine Acts.ordered (evolving_setUp _).acts ⟨fun g hg => ?_, fun id h => ?_, fun i a ha => ?_,
    fun id m owner args i hm => ?_, fun id m i hm => ?_⟩
  · exact absurd hg (Array.not_mem_empty g)
  · obtain ⟨key, hkey⟩ := h
    cases hkey
  · cases i <;> cases ha
  · cases id <;> cases hm
  · cases id <;> cases hm

/-- Before `p`, possibly in the middle of typing, an instance was made for a call with a block, or one
without. Its number was the next one then. -/
def Program.Made (x : Expander) (p : Program) (blocks : Bool) (i : InstanceId) : Prop :=
  ∃ fuel site owner m r w w', Acts (.initial x) w ∧ site.call.block.isSome = blocks ∧
    w.Offers m.candidate.id blocks ∧ ((engine fuel).instantiate site owner m).run.run w = (r, w') ∧
    w.env.instances.size = i ∧ i < w'.env.instances.size ∧ Acts w' p

/-- Before `p`, possibly in the middle of typing, a call with a block, or one without, was resolved to an
instance. -/
def Program.Resolved (x : Expander) (p : Program) (blocks : Bool) (i : InstanceId) : Prop :=
  ∃ fuel site recv args nodes w w', Acts (.initial x) w ∧ site.call.block.isSome = blocks ∧
    ((engine fuel).resolveCall site recv args).run.run w = (.ok (nodes, [.inst i]), w') ∧ Acts w' p

theorem Program.Made.expects {x : Expander} {blocks : Bool} (h : p.Made x blocks i) :
    ∃ a, p.env.instances[i]? = some a ∧ p.Expects a.method blocks := by
  obtain ⟨fuel, site, owner, m, r, w, w', hw, rfl, hoffers, hrun, rfl, hlt, hlater⟩ := h
  have hordered := hw.ordered (ordered_initial x)
  have hacts := ((engine_tame fuel).instantiate site owner m).acts hoffers hrun
  rcases Engine.run_instantiate (engine_tame fuel) hordered hoffers hrun with
    ⟨rfl, -⟩ | ⟨-, a, ha, hpurpose⟩
  · exact absurd hlt (Nat.lt_irrefl _)
  · obtain ⟨a', ha', hsame⟩ := hlater.inst ha
    have hmethod : a'.method = m.candidate.id := congrArg Prod.fst (hsame.purpose.trans hpurpose)
    exact ⟨a', ha', hmethod ▸ Acts.expects (hacts.trans hlater) (hordered.offers hoffers)⟩

theorem Program.Resolved.suits {x : Expander} {blocks : Bool} (h : p.Resolved x blocks i) :
    ∃ a, p.env.instances[i]? = some a ∧ p.Suits a.method blocks := by
  obtain ⟨fuel, site, recv, args, nodes, w, w', hw, rfl, hrun, hlater⟩ := h
  have hordered := hw.ordered (ordered_initial x)
  obtain ⟨a, ha, hsuits⟩ := Engine.suits_of_resolveCall (engine_tame fuel) hordered hrun
  obtain ⟨a', ha', hpurpose⟩ := hlater.inst ha
  have hmethod : a'.method = a.method := congrArg Prod.fst hpurpose.purpose
  exact ⟨a', ha', hmethod ▸ hlater.suits hsuits⟩

/-- What is remembered under lists of types may as well be remembered under their texts. -/
theorem assoc?_rendered {β : Type} (l : List (List TypeId × β)) (types : List TypeId) :
    assoc? (l.map fun x => (Table.key x.1, x.2)) (Table.key types) = assoc? l types := by
  induction l with
  | nil => rfl
  | cons x l ih =>
    rw [List.map_cons, assoc?_cons, ← Prod.mk.eta (p := x), assoc?_cons, ih]
    simp only [Table.key_injective.eq_iff]

/-- What a program guarantees of its instances. -/
structure Program.Memoised (x : Expander) (p : Program) : Prop where
  /-- No two instances were made for calls without block of one method with the same receiver and argument
  types. -/
  made : ∀ (i j : InstanceId) (a b : Instance), p.Made x false i → p.Made x false j →
    p.env.instances[i]? = some a → p.env.instances[j]? = some b → a.purpose = b.purpose → i = j
  /-- A method that expects no block has one instance for a receiver type and argument types. -/
  single : ∀ (i j : InstanceId) (a b : Instance), p.env.instances[i]? = some a →
    p.env.instances[j]? = some b → p.Expects a.method false → a.purpose = b.purpose → i = j
  /-- A foreign function has one instance. -/
  foreign : ∀ (i j : InstanceId) (a b : Instance), p.env.instances[i]? = some a →
    p.env.instances[j]? = some b → p.Imports a.method → a.method = b.method → i = j
  /-- An instance that a method remembers is its instance for the types that it is remembered under, also if
  these are rendered as text. -/
  rendered : ∀ (id : MethodId) (m : Method) (owner : TypeId) (args : List TypeId) (i : InstanceId),
    p.env.methods[id]? = some m →
    assoc? (m.memo.map fun x => (Table.key x.1, x.2)) (Table.key (owner :: args)) = some i →
    ∃ a, p.env.instances[i]? = some a ∧ a.purpose = (id, owner, args)
  /-- Calls without block that were resolved to the same method for the same types share the instance. -/
  shared : ∀ (i j : InstanceId) (a b : Instance), p.Resolved x false i → p.Resolved x false j →
    p.env.instances[i]? = some a → p.env.instances[j]? = some b → a.purpose = b.purpose → i = j

/-- **Instances are made once in every session**: whatever trees are typed, and whichever of them fail, calls
without block of one method with the same receiver and argument types share one instance, and so do all calls
of a foreign function. -/
theorem Session.memoised {x : Expander} (h : Session x p) : p.Memoised x := by
  have hp := h.acts.ordered (Program.ordered_initial x)
  refine ⟨fun i j a b hi _ ha hb => ?_, fun i j a b => hp.unique, fun i j a b => hp.unique_foreign,
    fun id m owner args i hm hi => ?_, fun i j a b hi _ ha hb hpurpose => ?_⟩
  · obtain ⟨a', ha', hexpects⟩ := hi.expects
    obtain rfl := Option.some.inj (ha.symm.trans ha')
    exact hp.unique ha hb hexpects
  · rw [assoc?_rendered] at hi
    exact hp.memo id m owner args i hm hi
  · obtain ⟨a', ha', hsuits⟩ := hi.suits
    obtain rfl := Option.some.inj (ha.symm.trans ha')
    rcases hsuits with himports | hexpects
    · exact hp.unique_foreign ha hb himports (congrArg Prod.fst hpurpose)
    · exact hp.unique ha hb hexpects hpurpose

/-- A method that calls another one. -/
def forwards (name other : String) : Source :=
  .node none (.methodDef "" name none none (some (.node none (.call none other none none false))) false)

/-- Two methods that call each other, and a call of each. -/
def rally : Source :=
  .node none (.expressions (some [forwards "ping" "pong", forwards "pong" "ping",
    .node none (.call none "ping" none none false), .node none (.call none "pong" none none false)]))

/-- The program after these are typed. -/
def rallied : Program :=
  ((Program.initial .none).run (Program.infer rally)).2

/-- Each method has one instance. The calls in the bodies, which are resolved while these are being typed, and
those at top level have the same two targets. -/
theorem Session.memoised_rallied : Session .none rallied ∧ rallied.Memoised .none ∧
    rallied.env.instances.toList.map Instance.purpose = [(1, Builtin.program, []), (2, Builtin.program, [])] ∧
    (rallied.env.notes.toList.map Note.targets).filter (!·.isEmpty) =
      [[.inst 0], [.inst 1], [.inst 1], [.inst 0]] :=
  ⟨.tree .initial rally, Session.memoised (.tree .initial rally), by decide +kernel, by decide +kernel⟩

end TypeFlow
