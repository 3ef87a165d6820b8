import TypeFlow.Proofs.Inference.Steps
import TypeFlow.Proofs.Inference.Strata

/-!
# Steps that open calls, bodies and blocks

The steps of typing that do have to do with trees and calls, but reach neither the engine nor propagation. Each of
them leads from a stratified stage to a later one, by the rules for what it is made of. What is placed on the
way is numbered from `N` on, if there were `N` occurrences before.
-/

namespace TypeFlow

open Stage (Lasting lasting_true)
open Stage.Step (same sameAt)

variable {N : Nat} {P : Stage → Prop}

namespace Infer

/-! ### Notes and nodes -/

@[grind ←]
theorem aside_note (occ : Nat) : Aside (note occ) :=
  fun p => .refl p.env

/-- A note changes. -/
theorem rising_changeNote {occ : Nat} {f : Note → Note}
    (hf : ∀ S n, N ≤ S.size → P S → S.Leads occ n → S.Leads occ (f n)) (hP : Lasting P) :
    Rising N P (fun _ => P) (changeNote occ f) := by
  refine .step fun p origin hN _ hp => ?_
  have hstep : Stage.Step ⟨p.env, origin⟩ ⟨((changeNote occ f).run.run p).2.env, origin⟩ :=
    .note fun _ hn => hf _ _ hN hp hn
  exact ⟨origin, hstep, fun _ _ => hP _ _ hstep.rises hp⟩

@[grind ←]
theorem climbs_setNode (occ : Nat) (id : NodeId) : Climbs N (setNode occ id) :=
  rising_changeNote (fun _ _ _ _ hn => ⟨hn.expansion, hn.added, hn.conversions, hn.targets⟩) lasting_true

@[grind ←]
theorem climbs_setAssigned (occ : Nat) (id : NodeId) : Climbs N (setAssigned occ id) :=
  rising_changeNote (fun _ _ _ _ hn => ⟨hn.expansion, hn.added, hn.conversions, hn.targets⟩) lasting_true

@[grind ←]
theorem climbs_setDeclared (occ : Nat) (id : NodeId) : Climbs N (setDeclared occ id) :=
  rising_changeNote (fun _ _ _ _ hn => ⟨hn.expansion, hn.added, hn.conversions, hn.targets⟩) lasting_true

@[grind ←]
theorem climbs_nodeOf (t : Placed) : Climbs N (nodeOf t) := by
  grind [nodeOf]

@[grind ←]
theorem climbs_nodesOf (ts : List Placed) : Climbs N (nodesOf ts) := by
  induction ts <;> grind [nodesOf]

@[grind ←]
theorem climbs_nodeOrNil (t : Option Placed) : Climbs N (nodeOrNil t) := by
  cases t <;> grind [nodeOrNil]

@[grind ←]
theorem climbs_receiverNode (obj : Option Placed) : Climbs N (receiverNode obj) := by
  cases obj <;> grind [receiverNode]

/-! ### Sites -/

/-- A site changes, but neither its call nor its dispatch. -/
theorem climbs_changeSite (x : NodeId) {f : Site → Site}
    (hf : ∀ s, (f s).call = s.call ∧ (f s).node = s.node ∧ (f s).dispatch = s.dispatch) :
    Climbs N (changeSite x f) :=
  .step fun _ origin _ _ _ => ⟨origin, .site hf, fun _ _ => trivial⟩

/-- A new site has no dispatch. -/
theorem climbs_newSite {call : CallParts} (s : ScopeId) (super : Option (TypeId × String))
    (hmark : call.mark.occ < N) (hblock : ∀ b ∈ call.block, (Tree.ofBlock b).Numbered N 0) :
    Climbs N (newSite call s super) := by
  refine (climbs_nodeOf _).bind fun node => (climbs_receiverNode _).bind fun obj => ?_
  refine (climbs_nodesOf _).bind fun args => .bind ?_ fun _ => .bind (.aside (.changeGraph _)) fun _ => .pure _
  refine .step fun p origin hN _ _ => ⟨origin, ?_, fun _ _ => trivial⟩
  refine { rises := ⟨Nat.le_refl _, Nat.le_refl _, Nat.le_refl _, fun _ _ => rfl⟩, roots := same, bodies := same,
           notes := sameAt, sites := fun y z hz => ?_, blocks := same, dispatches := sameAt, remembered := same }
  change (p.env.sites.set node _).get? y = some z at hz
  rw [Slots.get?_set] at hz
  split at hz
  · rename_i hy
    obtain rfl := Option.some.inj hz
    exact .inr fun _ => ⟨hy, Nat.lt_of_lt_of_le hmark hN, fun b hb => (hblock b hb).mono hN (Nat.le_refl _), nofun⟩
  · exact .inl hz

/-- What follows when the environment was read may count on its being stratified. -/
theorem climbs_env {α : Type} {k : Env → Infer α} (hk : ∀ e origin, N ≤ e.notes.size → Stage.Stratified ⟨e, origin⟩ →
    Rising e.notes.size (fun S => S.env = e) (fun _ _ => True) (k e)) : Climbs N (env >>= k) :=
  fun p origin hN hS _ => hk p.env origin hN hS p origin (Nat.le_refl _) hS rfl

/-- A site that is read is one of a call that was placed. -/
theorem climbs_site? {α : Type} {x : NodeId} {k : Option Site → Infer α} (hnone : Climbs N (k none))
    (hsome : ∀ s N', N ≤ N' → s.node = x → s.call.mark.occ < N' →
      (∀ b ∈ s.call.block, (Tree.ofBlock b).Numbered N' 0) →
      Rising N' (fun S => S.env.sites.get? x = some s) (fun _ _ => True) (k (some s))) :
    Climbs N (site? x >>= k) := by
  have heq : site? x >>= k = env >>= fun e => k (e.sites.get? x) := by
    rw [site?, bind_assoc]
    simp only [pure_bind]
  rw [heq]
  refine climbs_env fun e origin hN hS => ?_
  cases hs : e.sites.get? x with
  | none => exact (Rising.mono hnone hN).imp (fun _ _ => trivial) fun _ _ => id
  | some s =>
    have hserves := hS.sites x s hs
    refine (hsome s _ hN hserves.node hserves.mark hserves.block).imp (fun S h => ?_) fun _ _ => id
    rw [h]
    exact hs

/-! ### Dispatches -/

end Infer

/-- There is a site at a node, of the call at an occurrence. -/
def Stage.Calls (x : NodeId) (o : Nat) (S : Stage) : Prop :=
  ∃ s, S.env.sites.get? x = some s ∧ s.call.mark.occ = o

/-- There is a dispatch for a call before some occurrence. -/
def Stage.Opened (d : Nat) (M : Nat) (S : Stage) : Prop :=
  d < S.env.dispatches.size ∧ S.origin d < M

theorem Stage.lasting_opened (d M : Nat) : Lasting (Stage.Opened d M) :=
  fun _ _ h ⟨hd, horigin⟩ => ⟨Nat.lt_of_lt_of_le hd h.dispatches, (h.origin d hd).symm ▸ horigin⟩

theorem Stage.calls_of_outline {x : NodeId} {o : Nat} {e e' : Env} {origin : Nat → Nat} (h : e'.outline = e.outline)
    (hc : Stage.Calls x o ⟨e, origin⟩) : Stage.Calls x o ⟨e', origin⟩ := by
  obtain ⟨s, hs, ho⟩ := hc
  have hsites : e'.sites = e.sites := congrArg (·.2.2.1) h
  exact ⟨s, hsites ▸ hs, ho⟩

namespace Infer

/-- The dispatch of a call has that call as its origin. -/
theorem rising_openDispatch (x : NodeId) (o : Nat) (name : String) :
    Rising N (Stage.Calls x o) (fun d S => S.Allows o (.dispatch d)) (openDispatch x name) := by
  refine .step fun p origin _ hS ⟨s, hs, ho⟩ => ?_
  have hserves := hS.sites x s hs
  cases hd : s.dispatch with
  | some d =>
    have hrun : (openDispatch x name).run.run p = (.ok d, p) := by
      refine (Flow.run_bind_of_ok (show (site? x).run.run p = (.ok (p.env.sites.get? x), p) from rfl) _).trans ?_
      rw [hs, Option.bind_some, hd]
      rfl
    rw [hrun]
    exact ⟨origin, .beside (.refl _), fun d' h => Except.ok.inj h ▸ ho ▸ hserves.dispatch d hd⟩
  | none =>
    let size := p.env.dispatches.size
    let origin' := fun d => if d = size then o else origin d
    have hrun : ∃ node, ((openDispatch x name).run.run p).1 = .ok size ∧
        ((openDispatch x name).run.run p).2.env = { p.env with
          dispatches := p.env.dispatches.push { name, node }
          sites := p.env.sites.modify x fun s => { s with dispatch := some size } } := by
      rw [show (openDispatch x name).run.run p = _ from
        Flow.run_bind_of_ok (show (site? x).run.run p = (.ok (p.env.sites.get? x), p) from rfl) _]
      rw [hs, Option.bind_some, hd]
      exact ⟨_, rfl, rfl⟩
    obtain ⟨node, hres, henv⟩ := hrun
    rw [henv, hres]
    have hsize : origin' size = o := if_pos rfl
    have hrises : Stage.Rises ⟨p.env, origin⟩ ⟨{ p.env with
        dispatches := p.env.dispatches.push { name, node }
        sites := p.env.sites.modify x fun s => { s with dispatch := some size } }, origin'⟩ :=
      ⟨Nat.le_refl _, Nat.le_refl _, (Array.size_push _).symm ▸ Nat.le_succ _,
        fun d hd => if_neg (Nat.ne_of_lt hd)⟩
    have hnew : size < (p.env.dispatches.push { name, node }).size := (Array.size_push _).symm ▸ Nat.lt_succ_self _
    refine ⟨origin', { rises := hrises, roots := same, bodies := same, notes := sameAt,
                       sites := fun y z hz => ?_, blocks := same, dispatches := fun d c hc => ?_,
                       remembered := same },
      fun d h => Except.ok.inj h ▸ ⟨hnew, hsize⟩⟩
    · simp only [Slots.get?_modify] at hz
      split at hz
      · rename_i hy
        obtain ⟨s₀, hs₀, rfl⟩ := Option.map_eq_some_iff.mp hz
        obtain rfl := Option.some.inj (hs.symm.trans (hy ▸ hs₀))
        refine .inr fun _ => ⟨hy ▸ hserves.node, hserves.mark, hserves.block, fun d h => ?_⟩
        exact Option.some.inj h ▸ ⟨hnew, hsize.trans ho.symm⟩
      · exact .inl hz
    · simp only [Array.getElem?_push] at hc
      split at hc
      · rename_i hd
        obtain rfl := Option.some.inj hc
        refine .inr fun _ => ⟨?_, nofun⟩
        change origin' d < p.env.notes.size
        rw [hd, hsize, ← ho]
        exact hserves.mark
      · exact .inl hc

/-- A dispatch changes. What it gets follows the call that it was opened for. -/
theorem rising_changeDispatch {d M : Nat} {f : Dispatch → Dispatch}
    (hf : ∀ c, ∀ t ∈ (f c).subcalls, t ∈ c.subcalls ∨ t.Numbered N M) :
    Rising N (Stage.Opened d M) (fun _ => Stage.Opened d M) (changeDispatch d f) := by
  refine .step fun p origin hN _ hd => ?_
  have hrises : Stage.Rises ⟨p.env, origin⟩ ⟨((changeDispatch d f).run.run p).2.env, origin⟩ :=
    ⟨Nat.le_refl _, Nat.le_refl _, (Array.size_modify ..).ge, fun _ _ => rfl⟩
  refine ⟨origin, { rises := hrises, roots := same, bodies := same, notes := sameAt, sites := sameAt,
                    blocks := same, dispatches := fun d' c' hc' => ?_, remembered := same }, fun _ _ =>
    Stage.lasting_opened d M _ _ hrises hd⟩
  change (p.env.dispatches.modify d f)[d']? = some c' at hc'
  rw [Array.getElem?_modify] at hc'
  split at hc'
  · rename_i hdd
    obtain ⟨c, hc, rfl⟩ := Option.map_eq_some_iff.mp hc'
    refine .inr fun hS => ?_
    have hold := hS.dispatches d' c hc
    refine ⟨hold.origin, fun t ht => (hf c t ht).elim (hold.subcalls t) fun h => ?_⟩
    exact h.mono hN (Nat.succ_le_of_lt (hdd ▸ hd.2))
  · exact .inl hc'

theorem rising_addShape (d M : Nat) (shape : List TypeId) :
    Rising N (Stage.Opened d M) (fun _ => Stage.Opened d M) (addShape d shape) := by
  have hshape : Rising N (Stage.Opened d M) (fun _ => Stage.Opened d M)
      (changeDispatch d fun d => { d with shapes := shape :: d.shapes }) :=
    rising_changeDispatch fun _ _ => .inl
  refine (Rising.keep (.aside aside_env) (Stage.lasting_opened d M)).andThen fun e => ?_
  split
  · exact .pure fun _ => id
  · split
    · exact .pure fun _ => id
    · exact hshape.andThen fun _ => .pure fun _ => id

/-! ### Instances -/

theorem lasting_instance (i : InstanceId) : Lasting fun S => i < S.env.instances.size :=
  fun _ _ h hi => Nat.lt_of_lt_of_le hi h.instances

theorem rising_newInstance (m : MethodId) (owner : TypeId) (args : List TypeId) (free : Bindings) :
    Rising N (fun _ => True) (fun i S => i < S.env.instances.size) (newInstance m owner args free) := by
  refine .step fun p origin _ _ _ => ?_
  rw [run_newInstance]
  have hsize : p.env.instances.size < (p.env.instances.push (created m owner args free p)).size :=
    (Array.size_push _).symm ▸ Nat.lt_succ_self _
  refine ⟨origin, { rises := ⟨Nat.le_refl _, Nat.le_of_lt hsize, Nat.le_refl _, fun _ _ => rfl⟩, roots := same,
                    bodies := fun a ha => ?_, notes := sameAt, sites := sameAt, blocks := same,
                    dispatches := sameAt, remembered := same }, fun i h => Except.ok.inj h ▸ hsize⟩
  -- it is not typed yet
  rcases Array.mem_push.mp ha with hold | rfl
  · exact .inl hold
  · exact .inr nofun

/-- An instance changes. The body that it gets was placed. -/
theorem climbs_changeInstance (i : InstanceId) {f : Instance → Instance}
    (hf : ∀ a, (f a).body = a.body ∨ ∀ b ∈ (f a).body, b.Numbered N 0) : Climbs N (changeInstance i f) := by
  refine .step fun p origin hN hS _ => ⟨origin, ?_, fun _ _ => trivial⟩
  refine { rises := ⟨Nat.le_refl _, (Array.size_modify ..).ge, Nat.le_refl _, fun _ _ => rfl⟩, roots := same,
           bodies := fun a' ha' => .inr fun b hb => ?_, notes := sameAt, sites := sameAt, blocks := same,
           dispatches := sameAt, remembered := same }
  obtain ⟨j, hj⟩ := Array.mem_iff_getElem?.mp ha'
  change (p.env.instances.modify i f)[j]? = some a' at hj
  rw [Array.getElem?_modify] at hj
  split at hj
  · obtain ⟨a, ha, rfl⟩ := Option.map_eq_some_iff.mp hj
    rcases hf a with hsame | hbody
    · exact hS.bodies a (Array.mem_of_getElem? ha) b (hsame ▸ hb)
    · exact (hbody b hb).mono hN (Nat.le_refl _)
  · exact hS.bodies a' (Array.mem_of_getElem? hj) b hb

/-- What follows the writing of a body may count on its numbers. -/
theorem climbs_write_bind {α : Type} (id : InstanceId) (source : Source) {k : Placed → Infer α}
    (hk : ∀ b N', b.Numbered N' 0 → Climbs N' (k b)) : Climbs N (write id source >>= k) := by
  have hsteps : write id source >>= k = place source >>= fun b =>
      changeInstance id (fun a => { a with body := some b }) >>= fun _ => k b := by
    simp only [write, bind_assoc, pure_bind]
  rw [hsteps]
  refine Rising.place lasting_true fun b N' _ hb => ?_
  have hplaced := hb.mono (Nat.le_refl _) (Nat.zero_le _)
  refine Climbs.bind (climbs_changeInstance id fun a => .inr fun b' hb' => ?_) fun _ => hk b N' hplaced
  exact Option.some.inj hb' ▸ hplaced

theorem climbs_writeBody_bind {α : Type} (id : InstanceId) (d : Definition) (given : Nat) {k : Placed → Infer α}
    (hk : ∀ b N', b.Numbered N' 0 → Climbs N' (k b)) : Climbs N (writeBody id d given >>= k) := by
  unfold writeBody
  split
  · exact Rising.throw _
  · exact climbs_write_bind id _ hk

/-- A method comes to remember an instance. -/
theorem rising_changeMethod {id : MethodId} {i : InstanceId} {f : Method → Method}
    (hf : ∀ m j, (f m).Remembers j → m.Remembers j ∨ j = i) :
    Rising N (fun S => i < S.env.instances.size) (fun _ S => i < S.env.instances.size) (changeMethod id f) := by
  refine .step fun p origin _ _ hi => ⟨origin, ?_, fun _ _ => hi⟩
  refine { rises := ⟨Nat.le_refl _, Nat.le_refl _, Nat.le_refl _, fun _ _ => rfl⟩, roots := same, bodies := same,
           notes := sameAt, sites := sameAt, blocks := same, dispatches := sameAt,
           remembered := fun j ⟨m', hm', hj⟩ => ?_ }
  obtain ⟨k, hk⟩ := Array.mem_iff_getElem?.mp hm'
  change (p.env.methods.modify id f)[k]? = some m' at hk
  rw [Array.getElem?_modify] at hk
  split at hk
  · obtain ⟨m, hm, rfl⟩ := Option.map_eq_some_iff.mp hk
    rcases hf m j hj with hold | rfl
    · exact .inl ⟨m, Array.mem_of_getElem? hm, hold⟩
    · exact .inr hi
  · exact .inl ⟨m', Array.mem_of_getElem? hk, hj⟩

/-- The instances that a method remembers are there. -/
theorem rising_method (id : MethodId) : Rising N (fun _ => True)
    (fun m S => ∀ i, m.Remembers i → i < S.env.instances.size) (method id) := by
  refine .step fun p origin _ hS _ => ⟨origin, .beside (aside_method id p), fun m h i hi => ?_⟩
  obtain rfl := Except.ok.inj (show Except.ok _ = Except.ok m from h)
  cases hm : p.env.methods[id]? with
  | none =>
    rw [hm] at hi
    exact absurd hi (by simp [Method.Remembers])
  | some m =>
    rw [hm] at hi
    exact hS.remembered i ⟨m, Array.mem_of_getElem? hm, hi⟩

/-! ### Foreign functions -/

theorem aside_declaredTypes (m : Method) : Aside (declaredTypes m) := by
  grind [declaredTypes, Aside.bind]

theorem rising_newExternal (id : MethodId) (m : Method) :
    Rising N (fun _ => True) (fun i S => i < S.env.instances.size) (newExternal id m) := by
  rw [newExternal_eq]
  refine Rising.andThen (Q := fun _ _ => True) (Climbs.aside (aside_declaredTypes m)) fun types => ?_
  refine (rising_newInstance _ _ _ _).andThen fun i => ?_
  have hlast := lasting_instance i
  refine .after (.aside (aside_paramNodes _)) hlast fun params => ?_
  refine .after (climbs_changeInstance i fun _ => .inl rfl) hlast fun _ => ?_
  refine .after (.aside (aside_instanceOf i)) hlast fun inst => .after (.aside (Flow.aside_freeze _ _)) hlast fun _ => ?_
  refine (rising_changeMethod fun m j hj => ?_).andThen fun _ => .pure fun _ h => h
  exact hj.imp Or.inl fun h => (Option.some.inj h).symm

theorem rising_external (id : MethodId) :
    Rising N (fun _ => True) (fun _ S => 0 < S.env.instances.size) (external id) := by
  have hread : ∀ i, Rising N (fun S => 0 < S.env.instances.size) (fun _ S => 0 < S.env.instances.size) (instanceOf i) :=
    fun i => Rising.keep (.aside (aside_instanceOf i)) (lasting_instance 0)
  refine (rising_method id).andThen fun m => ?_
  split
  · rename_i i hi
    exact (hread i).imp (fun _ hm => Nat.zero_lt_of_lt (hm i (.inr hi))) fun _ _ h => h
  · refine (rising_newExternal id m).always.andThen fun i => ?_
    exact (hread i).imp (fun _ h => Nat.zero_lt_of_lt h) fun _ _ h => h

theorem rising_externalId (id : MethodId) :
    Rising N (fun _ => True) (fun i S => i < S.env.instances.size) (externalId id) := by
  refine (rising_external id).andThen fun _ => ?_
  refine Rising.imp (P := fun S => True ∧ 0 < S.env.instances.size) ?_ (fun _ h => ⟨trivial, h⟩) fun _ _ h => h
  refine ((rising_method id).keeping (lasting_instance 0)).andThen fun m => .pure fun S ⟨hm, hpos⟩ => ?_
  cases hi : m.external with
  | none => exact hpos
  | some i => exact hm i (.inr hi)

/-! ### Blocks -/

@[grind ←]
theorem climbs_blockParams (vs : List (Variable Mark)) : Climbs N (Engine.blockParams vs) := by
  induction vs <;> grind [Engine.blockParams]

end Infer

namespace Engine

open Infer

/-- A block gets a scope and parameters, but stays the block it is. -/
theorem climbs_openBlockScope (b : Nat) (bc : BlockContext) : Climbs N (openBlockScope b bc) := by
  refine (climbs_blockParams _).bind fun params => .bind (.aside (aside_scope _)) fun caller => ?_
  refine .bind (.aside (aside_newScope _)) fun s => .bind ?_ fun _ => .pure _
  refine .step fun p origin hN hS _ => ⟨origin, ?_, fun _ _ => trivial⟩
  refine { rises := ⟨Nat.le_refl _, Nat.le_refl _, Nat.le_refl _, fun _ _ => rfl⟩, roots := same, bodies := same,
           notes := sameAt, sites := sameAt, blocks := fun c' hc' => .inr fun hS => ?_, dispatches := sameAt,
           remembered := same }
  obtain ⟨j, hj⟩ := Array.mem_iff_getElem?.mp hc'
  change (p.env.blocks.modify b _)[j]? = some c' at hj
  rw [Array.getElem?_modify] at hj
  split at hj
  · obtain ⟨c, hc, rfl⟩ := Option.map_eq_some_iff.mp hj
    exact hS.blocks c (Array.mem_of_getElem? hc)
  · exact hS.blocks c' (Array.mem_of_getElem? hj)

/-- The block that a call gives to an instance was placed. -/
theorem climbs_openBlock (x : NodeId) : Climbs N (openBlock x) := by
  refine climbs_env fun e origin _ hS => Rising.always ?_
  split
  · exact Climbs.pure _
  · rename_i site hs
    have hopen : ∀ N' block, (Tree.ofBlock block).Numbered N' 0 → Climbs N' (do
        let id := (← Infer.env).blocks.size
        Infer.changeEnv fun env =>
          { env with
            sites := env.sites.modify x fun s => { s with blocks := s.blocks + 1 }
            blocks := env.blocks.push { block, caller := site.scope, call := x } }
        return some id) := by
      refine fun N' block hblock => .bind (.aside aside_env) fun e => .bind ?_ fun _ => .pure _
      -- the site is told, and the block is kept
      change Climbs N' (changeSite x (fun s => { s with blocks := s.blocks + 1 }) >>= fun _ =>
        Infer.changeEnv fun env => { env with blocks := env.blocks.push { block, caller := site.scope, call := x } })
      refine .bind (climbs_changeSite x fun _ => ⟨rfl, rfl, rfl⟩) fun _ => ?_
      refine .step fun p origin hN _ _ => ⟨origin, ?_, fun _ _ => trivial⟩
      refine { rises := ⟨Nat.le_refl _, Nat.le_refl _, Nat.le_refl _, fun _ _ => rfl⟩, roots := same,
               bodies := same, notes := sameAt, sites := sameAt, blocks := fun c hc => ?_, dispatches := sameAt,
               remembered := same }
      rcases Array.mem_push.mp hc with hold | rfl
      · exact .inl hold
      · exact .inr fun _ => hblock.mono hN (Nat.le_refl _)
    split
    · exact Climbs.pure _
    · rename_i block hb
      split
      · exact Rising.copyBlock lasting_true fun b N' _ hb => hopen N' b (hb.mono (Nat.le_refl _) (Nat.zero_le _))
      · rw [pure_bind]
        exact hopen _ _ ((hS.sites x site hs).block block hb)

@[grind ←]
theorem climbs_openBody (x : NodeId) (id : InstanceId) (inst : Instance) (name : String) :
    Climbs N (openBody x id inst name) := by
  grind [openBody, climbs_openBlock]

theorem rising_blockCopy {α : Type} {Q : α → Stage → Prop} {site : Site} {k : Option (Block Mark Placed) → Infer α}
    (hP : Lasting P) (hk : ∀ b N', N ≤ N' → (∀ c ∈ b, (Tree.ofBlock c).Numbered N' N) → Rising N' P Q (k b)) :
    Rising N P Q (blockCopy site >>= k) := by
  unfold blockCopy
  split
  · rw [pure_bind]
    exact hk none N (Nat.le_refl _) nofun
  · rw [bind_assoc]
    refine .copyBlock hP fun b N' hN hb => ?_
    rw [pure_bind]
    exact hk (some b) N' hN fun c hc => Option.some.inj hc ▸ hb

/-! ### Calls of `super` -/

/-- A variable that is made while typing. -/
theorem numbered_localVar {m : Mark} {n k : Nat} (name : String) (out : Bool) (hlow : k ≤ m.occ) (hhigh : m.occ < n) :
    Tree.Numbered n k (.node m (.localVar name out)) :=
  .leaf hlow hhigh (by simp [Tree.children, Tree.form, Form.fields])

theorem climbs_passOn {α : Type} {loc : Option Location} {ps : List (Param Source)} {k : List Placed → Infer α}
    (hk : ∀ args N', N ≤ N' → (∀ a ∈ args, a.Numbered N' N) → Climbs N' (k args)) :
    Climbs N (passOn loc ps >>= k) := by
  induction ps generalizing N k with
  | nil => exact hk [] N (Nat.le_refl _) nofun
  | cons p ps ih =>
    rw [passOn, bind_assoc]
    refine Rising.freshMark lasting_true fun m N₁ hN₁ ⟨hlow, hhigh⟩ => ?_
    simp only [bind_assoc, pure_bind]
    refine ih fun args N₂ hN₂ hargs => hk _ N₂ (hN₁.trans hN₂) fun a ha => ?_
    rcases List.mem_cons.mp ha with rfl | ha
    · exact numbered_localVar _ _ hlow (Nat.lt_of_lt_of_le hhigh hN₂)
    · exact (hargs a ha).mono (Nat.le_refl _) hN₁

/-- The arguments of a call of `super` are its own, or come later than it. -/
theorem climbs_superArgs {α : Type} {call : CallParts} {m : Method} {k : List Placed → Infer α}
    (hmark : call.mark.occ < N) (hargs : ∀ a ∈ call.args, a.Numbered N 0)
    (hk : ∀ args N', N ≤ N' → (∀ a ∈ args, a.Numbered N' 0) → Climbs N' (k args)) :
    Climbs N (superArgs call m >>= k) := by
  unfold superArgs
  split
  · rw [bind_assoc]
    refine climbs_passOn fun added N' hN hadded => ?_
    rw [bind_assoc]
    refine Climbs.bind (rising_changeNote (fun S n hS _ hn => ?_) lasting_true) fun _ => ?_
    · exact ⟨hn.expansion, fun t ht => (hadded t ht).mono hS (Nat.succ_le_of_lt hmark), hn.conversions, hn.targets⟩
    · rw [pure_bind]
      exact hk added N' hN fun a ha => (hadded a ha).mono (Nat.le_refl _) (Nat.zero_le _)
  · rw [pure_bind]
    exact hk call.args N (Nat.le_refl _) hargs

end Engine

end TypeFlow
