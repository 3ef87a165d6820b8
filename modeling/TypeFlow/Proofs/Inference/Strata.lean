import TypeFlow.Proofs.Inference.Aside
import TypeFlow.Proofs.Inference.Evolution
import TypeFlow.Proofs.Inference.Numbering

/-!
# What calls lead to comes later

Trees nest in a program without end in sight: a call leads to its expansion, to the subcalls of its dispatch
and to the arguments that it was given later, and all of these contain calls. Each of them was placed after the call,
though, so that its occurrences have higher numbers (`Stage.Stratified`).

For a dispatch this cannot be read off the program alone, since the call that it was opened for may have been
typed again by the time it gets another subcall. So the occurrence of that call, the *origin* of the dispatch,
is followed beside the program: a `Stage` has both. `Rising` says of a typing step that it leads from a
stratified stage to a stratified one, in which nothing is gone (`Stage.Rises`).
-/

namespace TypeFlow

/-- An environment with the origins of its dispatches. -/
structure Stage where
  env : Env
  /-- The occurrence of the call that a dispatch was opened for. -/
  origin : Nat → Nat

namespace Stage

/-- How many occurrences there are. -/
abbrev size (S : Stage) : Nat :=
  S.env.notes.size

/-- A later stage has everything that was there, and dispatches keep their origins. -/
structure Rises (S S' : Stage) : Prop where
  notes : S.size ≤ S'.size
  instances : S.env.instances.size ≤ S'.env.instances.size
  dispatches : S.env.dispatches.size ≤ S'.env.dispatches.size
  origin : ∀ d < S.env.dispatches.size, S'.origin d = S.origin d

namespace Rises

variable {S S' S'' : Stage}

theorem refl (S : Stage) : S.Rises S :=
  ⟨Nat.le_refl _, Nat.le_refl _, Nat.le_refl _, fun _ _ => rfl⟩

theorem trans (h : S.Rises S') (h' : S'.Rises S'') : S.Rises S'' where
  notes := Nat.le_trans h.notes h'.notes
  instances := Nat.le_trans h.instances h'.instances
  dispatches := Nat.le_trans h.dispatches h'.dispatches
  origin d hd := (h'.origin d (Nat.lt_of_lt_of_le hd h.dispatches)).trans (h.origin d hd)

end Rises

/-- What a call at an occurrence may resolve to: an instance, or its own dispatch. -/
def Allows (S : Stage) (o : Nat) : Target → Prop
  | .inst i => i < S.env.instances.size
  | .dispatch d => d < S.env.dispatches.size ∧ S.origin d = o

theorem Allows.mono {S S' : Stage} (h : S.Rises S') {o : Nat} {t : Target} (ht : S.Allows o t) : S'.Allows o t := by
  cases t with
  | inst i => exact Nat.lt_of_lt_of_le ht h.instances
  | dispatch d => exact ⟨Nat.lt_of_lt_of_le ht.1 h.dispatches, (h.origin d ht.1).trans ht.2⟩

/-- What is noted about an occurrence leads to later ones only. -/
structure Leads (S : Stage) (o : Nat) (n : Note) : Prop where
  expansion : ∀ t ∈ n.expansion, t.Numbered S.size (o + 1)
  added : ∀ t ∈ n.added, t.Numbered S.size (o + 1)
  conversions : ∀ c ∈ n.conversions, o < c.2.occ ∧ c.2.occ < S.size
  targets : ∀ t ∈ n.targets, S.Allows o t

theorem Leads.mono {S S' : Stage} (h : S.Rises S') {o : Nat} {n : Note} (hn : S.Leads o n) : S'.Leads o n where
  expansion t ht := (hn.expansion t ht).mono h.notes (Nat.le_refl _)
  added t ht := (hn.added t ht).mono h.notes (Nat.le_refl _)
  conversions c hc := ⟨(hn.conversions c hc).1, Nat.lt_of_lt_of_le (hn.conversions c hc).2 h.notes⟩
  targets t ht := (hn.targets t ht).mono h

/-- There is nothing that an occurrence leads to at first. -/
theorem Leads.empty (S : Stage) (o : Nat) : S.Leads o {} :=
  ⟨nofun, nofun, nofun, nofun⟩

/-- A site is one of a call that was placed, with the dispatch of that call. -/
structure Serves (S : Stage) (x : NodeId) (s : Site) : Prop where
  node : s.node = x
  mark : s.call.mark.occ < S.size
  block : ∀ b ∈ s.call.block, (Tree.ofBlock b).Numbered S.size 0
  dispatch : ∀ d ∈ s.dispatch, S.Allows s.call.mark.occ (.dispatch d)

theorem Serves.mono {S S' : Stage} (h : S.Rises S') {x : NodeId} {s : Site} (hs : S.Serves x s) :
    S'.Serves x s where
  node := hs.node
  mark := Nat.lt_of_lt_of_le hs.mark h.notes
  block b hb := (hs.block b hb).mono h.notes (Nat.le_refl _)
  dispatch d hd := (hs.dispatch d hd).mono h

/-- The subcalls of a dispatch come after the call that it was opened for. -/
structure Follows (S : Stage) (d : Nat) (c : Dispatch) : Prop where
  origin : S.origin d < S.size
  subcalls : ∀ t ∈ c.subcalls, t.Numbered S.size (S.origin d + 1)

/-- **Whatever a call leads to comes later**, in a program all of whose trees were placed. -/
structure Stratified (S : Stage) : Prop where
  roots : ∀ t ∈ S.env.roots, t.Numbered S.size 0
  bodies : ∀ a ∈ S.env.instances, ∀ b ∈ a.body, b.Numbered S.size 0
  notes : ∀ o n, S.env.notes[o]? = some n → S.Leads o n
  sites : ∀ x s, S.env.sites.get? x = some s → S.Serves x s
  blocks : ∀ c ∈ S.env.blocks, (Tree.ofBlock c.block).Numbered S.size 0
  dispatches : ∀ d c, S.env.dispatches[d]? = some c → S.Follows d c
  remembered : ∀ i, S.env.Remembers i → i < S.env.instances.size

/-- What one step may do. -/
structure Step (S S' : Stage) : Prop where
  rises : S.Rises S'
  roots : ∀ t ∈ S'.env.roots, t ∈ S.env.roots ∨ t.Numbered S'.size 0
  bodies : ∀ a ∈ S'.env.instances, a ∈ S.env.instances ∨ ∀ b ∈ a.body, b.Numbered S'.size 0
  notes : ∀ o n, S'.env.notes[o]? = some n → S.env.notes[o]? = some n ∨ (S.Stratified → S'.Leads o n)
  sites : ∀ x s, S'.env.sites.get? x = some s →
    S.env.sites.get? x = some s ∨ (S.Stratified → S'.Serves x s)
  blocks : ∀ c ∈ S'.env.blocks, c ∈ S.env.blocks ∨ (S.Stratified → (Tree.ofBlock c.block).Numbered S'.size 0)
  dispatches : ∀ d c, S'.env.dispatches[d]? = some c →
    S.env.dispatches[d]? = some c ∨ (S.Stratified → S'.Follows d c)
  remembered : ∀ i, S'.env.Remembers i → S.env.Remembers i ∨ i < S'.env.instances.size

variable {S S' S'' : Stage}

/-- What a step leaves alone is as it was. -/
theorem Step.same {α : Type} {P Q : α → Prop} (x : α) (h : P x) : P x ∨ Q x :=
  .inl h

/-- What a step leaves alone is as it was at its place. -/
theorem Step.sameAt {α β : Type} {P Q : α → β → Prop} (x : α) (y : β) (h : P x y) : P x y ∨ Q x y :=
  .inl h

open Step (same sameAt)

/-- A step keeps a stage stratified. -/
theorem Step.stratified (h : S.Step S') (hS : S.Stratified) : S'.Stratified where
  roots t ht := (h.roots t ht).elim (fun h' => (hS.roots t h').mono h.rises.notes (Nat.le_refl _)) id
  bodies a ha b hb := (h.bodies a ha).elim
    (fun h' => (hS.bodies a h' b hb).mono h.rises.notes (Nat.le_refl _)) fun h' => h' b hb
  notes o n hn := (h.notes o n hn).elim (fun h' => (hS.notes o n h').mono h.rises) fun h' => h' hS
  sites x s hs := (h.sites x s hs).elim (fun h' => (hS.sites x s h').mono h.rises) fun h' => h' hS
  blocks c hc := (h.blocks c hc).elim (fun h' => (hS.blocks c h').mono h.rises.notes (Nat.le_refl _)) fun h' => h' hS
  dispatches d c hc := by
    refine (h.dispatches d c hc).elim (fun h' => ?_) fun h' => h' hS
    have horigin := h.rises.origin d (Array.getElem?_eq_some_iff.mp h').1
    have hold := hS.dispatches d c h'
    refine ⟨horigin ▸ Nat.lt_of_lt_of_le hold.origin h.rises.notes, fun t ht => ?_⟩
    exact horigin ▸ (hold.subcalls t ht).mono h.rises.notes (Nat.le_refl _)
  remembered i hi := (h.remembered i hi).elim
    (fun h' => Nat.lt_of_lt_of_le (hS.remembered i h') h.rises.instances) id

/-- A step beside trees and calls. -/
theorem Step.beside {e : Env} (h : S.env.Beside e) : S.Step ⟨e, S.origin⟩ := by
  have hroots : e.roots = S.env.roots := congrArg Prod.fst h.outline
  have hnotes : e.notes = S.env.notes := congrArg (·.2.1) h.outline
  have hsites : e.sites = S.env.sites := congrArg (·.2.2.1) h.outline
  have hdispatches : e.dispatches = S.env.dispatches := congrArg (·.2.2.2.1) h.outline
  have hblocks : e.blocks = S.env.blocks := congrArg (·.2.2.2.2.1) h.outline
  have hinstances : e.instances = S.env.instances := congrArg (·.2.2.2.2.2) h.outline
  exact {
    rises := ⟨(congrArg Array.size hnotes).ge, (congrArg Array.size hinstances).ge,
      (congrArg Array.size hdispatches).ge, fun _ _ => rfl⟩
    roots := fun t ht => .inl (hroots ▸ ht)
    bodies := fun a ha => .inl (hinstances ▸ ha)
    notes := fun o n hn => .inl (hnotes ▸ hn)
    sites := fun x s hs => .inl (hsites ▸ hs)
    blocks := fun c hc => .inl (hblocks ▸ hc)
    dispatches := fun d c hc => .inl (hdispatches ▸ hc)
    remembered := fun i hi => .inl (h.remembers i hi) }

/-- A note changes. -/
theorem Step.note {o : Nat} {f : Note → Note}
    (hf : S.Stratified → S.Leads o (S.env.note o) → S.Leads o (f (S.env.note o))) :
    S.Step ⟨S.env.changeNote o f, S.origin⟩ := by
  have hrises : S.Rises ⟨S.env.changeNote o f, S.origin⟩ :=
    ⟨S.env.size_changeNote o f, Nat.le_refl _, Nat.le_refl _, fun _ _ => rfl⟩
  refine { rises := hrises, roots := same, bodies := same, notes := fun o' n' hn' => .inr fun hS => ?_,
           sites := sameAt, blocks := same, dispatches := sameAt, remembered := same }
  have hleads : ∀ o, S.Leads o (S.env.note o) := fun o =>
    (S.env.note_cases o).elim (fun h => h ▸ .empty S o) (hS.notes o _)
  rw [← Env.note_of_getElem? hn', Env.note_changeNote]
  split
  · rename_i ho
    exact ho ▸ (hf hS (hleads o)).mono hrises
  · exact (hleads o').mono hrises

/-- A site changes, but neither its call nor its dispatch. -/
theorem Step.site {x : NodeId} {f : Site → Site}
    (hf : ∀ s, (f s).call = s.call ∧ (f s).node = s.node ∧ (f s).dispatch = s.dispatch) :
    S.Step ⟨{ S.env with sites := S.env.sites.modify x f }, S.origin⟩ := by
  refine { rises := ⟨Nat.le_refl _, Nat.le_refl _, Nat.le_refl _, fun _ _ => rfl⟩, roots := same, bodies := same,
           notes := sameAt, sites := fun y s hs => ?_, blocks := same, dispatches := sameAt, remembered := same }
  rw [Slots.get?_modify] at hs
  split at hs
  · obtain ⟨s₀, hs₀, rfl⟩ := Option.map_eq_some_iff.mp hs
    obtain ⟨hcall, hnode, hdispatch⟩ := hf s₀
    refine .inr fun hS => ?_
    have hold := hS.sites y s₀ hs₀
    exact ⟨hnode ▸ hold.node, hcall ▸ hold.mark, hcall ▸ hold.block, by
      rw [hcall, hdispatch]
      exact hold.dispatch⟩
  · exact .inl hs

/-- Occurrences are added, about which nothing is noted yet. -/
theorem Step.opened (p : Program) (count : Nat) (origin : Nat → Nat) :
    Step ⟨p.env, origin⟩ ⟨(p.opened count).env, origin⟩ := by
  refine { rises := ⟨?_, Nat.le_refl _, Nat.le_refl _, fun _ _ => rfl⟩, roots := same, bodies := same,
           notes := fun o n hn => ?_, sites := sameAt, blocks := same, dispatches := sameAt, remembered := same }
  · exact (Nat.le_add_right _ count).trans (p.size_opened count).ge
  · rw [Program.opened, Array.getElem?_append] at hn
    split at hn
    · exact .inl hn
    · rw [Array.getElem?_replicate] at hn
      split at hn
      · exact .inr fun _ => Option.some.inj hn ▸ .empty _ _
      · cases hn

/-- What stays true when a stage rises. -/
def Lasting (P : Stage → Prop) : Prop :=
  ∀ S S', S.Rises S' → P S → P S'

theorem lasting_true : Lasting fun _ => True :=
  fun _ _ _ _ => trivial

theorem lasting_allows (o : Nat) (t : Target) : Lasting fun S => S.Allows o t :=
  fun _ _ h ht => ht.mono h

end Stage

open Stage (Lasting)

/-! ### Rules -/

section

variable {α β γ : Type} {N : Nat} {P P' : Stage → Prop}

/-- From a stratified stage with at least `N` occurrences where `P` holds, a typing step leads to a later
stratified stage; if it does not fail, `Q` holds of its result there. -/
def Rising (N : Nat) (P : Stage → Prop) (Q : α → Stage → Prop) (m : Infer α) : Prop :=
  ∀ (p : Program) (origin : Nat → Nat), N ≤ p.env.notes.size → Stage.Stratified ⟨p.env, origin⟩ →
    P ⟨p.env, origin⟩ → ∃ origin', Stage.Rises ⟨p.env, origin⟩ ⟨(m.run.run p).2.env, origin'⟩ ∧
      Stage.Stratified ⟨(m.run.run p).2.env, origin'⟩ ∧
      ∀ a, (m.run.run p).1 = .ok a → Q a ⟨(m.run.run p).2.env, origin'⟩

/-- A typing step leads from every stratified stage with at least `N` occurrences to a later one. -/
def Climbs (N : Nat) (m : Infer α) : Prop :=
  Rising N (fun _ => True) (fun _ _ => True) m

namespace Rising

variable {Q Q' : α → Stage → Prop} {R : β → Stage → Prop}

theorem pure {a : α} (h : ∀ S, P S → Q a S) : Rising N P Q (pure a : Infer α) :=
  fun _ origin _ hS hP => ⟨origin, .refl _, hS, fun _ hb => Except.ok.inj hb ▸ h _ hP⟩

theorem throw (f : Failure) : Rising N P Q (throw f : Infer α) :=
  fun _ origin _ hS _ => ⟨origin, .refl _, hS, nofun⟩

theorem imp {m : Infer α} (hm : Rising N P Q m) (hP : ∀ S, P' S → P S) (hQ : ∀ a S, Q a S → Q' a S) :
    Rising N P' Q' m := by
  intro p origin hN hS hp
  obtain ⟨origin', hrises, hS', hpost⟩ := hm p origin hN hS (hP _ hp)
  exact ⟨origin', hrises, hS', fun a ha => hQ a _ (hpost a ha)⟩

/-- What follows starts where the first step ends. -/
theorem andThen {m : Infer α} {k : α → Infer β} (hm : Rising N P Q m) (hk : ∀ a, Rising N (Q a) R (k a)) :
    Rising N P R (m >>= k) := by
  intro p origin hN hS hp
  obtain ⟨origin₁, hrises, hS₁, hpost⟩ := hm p origin hN hS hp
  have hrun : (m >>= k).run.run p = (ExceptT.bindCont k (m.run.run p).1).run (m.run.run p).2 := rfl
  rw [hrun]
  -- a step that fails leaves what it did, and nothing follows
  cases hres : (m.run.run p).1 with
  | ok a =>
    obtain ⟨origin₂, hrises', hS₂, hpost'⟩ :=
      hk a _ origin₁ (Nat.le_trans hN hrises.notes) hS₁ (hpost a hres)
    exact ⟨origin₂, hrises.trans hrises', hS₂, hpost'⟩
  | error f => exact ⟨origin₁, hrises, hS₁, nofun⟩

/-- What lasts is kept by every step. -/
theorem keeping {F : Stage → Prop} {m : Infer α} (hm : Rising N P Q m) (hF : Lasting F) :
    Rising N (fun S => P S ∧ F S) (fun a S => Q a S ∧ F S) m := by
  intro p origin hN hS ⟨hp, hkept⟩
  obtain ⟨origin', hrises, hS', hpost⟩ := hm p origin hN hS hp
  exact ⟨origin', hrises, hS', fun a ha => ⟨hpost a ha, hF _ _ hrises hkept⟩⟩

theorem keep {m : Infer α} (hm : Climbs N m) (hP : Lasting P) : Rising N P (fun _ => P) m :=
  (keeping hm hP).imp (fun _ h => ⟨trivial, h⟩) fun _ _ => And.right

/-- What lasts is kept for what follows. -/
theorem after {m : Infer α} {k : α → Infer β} (hm : Climbs N m) (hP : Lasting P) (hk : ∀ a, Rising N P R (k a)) :
    Rising N P R (m >>= k) :=
  (keep hm hP).andThen hk

/-- A step that needs nothing to be true. -/
theorem always {m : Infer α} (hm : Rising N (fun _ => True) Q m) : Rising N P Q m :=
  hm.imp (fun _ _ => trivial) fun _ _ => id

theorem climbs {m : Infer α} (hm : Rising N (fun _ => True) Q m) : Climbs N m :=
  hm.imp (fun _ => id) fun _ _ _ => trivial

theorem mono {N' : Nat} {m : Infer α} (hm : Rising N P Q m) (hN : N ≤ N') : Rising N' P Q m :=
  fun p origin hN' => hm p origin (Nat.le_trans hN hN')

theorem locating {m : Infer α} (hm : Rising N P Q m) (loc : Option Location) :
    Rising N P Q (Flow.locating loc m) := by
  intro p origin hN hS hp
  obtain ⟨origin', hrises, hS', hpost⟩ := hm p origin hN hS hp
  refine Flow.Ends.locating (R := fun r p' => ∃ origin', Stage.Rises ⟨p.env, origin⟩ ⟨p'.env, origin'⟩ ∧
    Stage.Stratified ⟨p'.env, origin'⟩ ∧ ∀ a, r = .ok a → Q a ⟨p'.env, origin'⟩) (fun a p' hrun => ?_) fun f p' hrun => ?_
  · rw [hrun] at hrises hS' hpost
    exact ⟨origin', hrises, hS', hpost⟩
  · rw [hrun] at hrises hS'
    exact ⟨origin', hrises, hS', nofun⟩

/-- A step that does what one step may do. -/
theorem step {m : Infer α} (h : ∀ (p : Program) (origin : Nat → Nat), N ≤ p.env.notes.size →
      Stage.Stratified ⟨p.env, origin⟩ → P ⟨p.env, origin⟩ →
      ∃ origin', Stage.Step ⟨p.env, origin⟩ ⟨(m.run.run p).2.env, origin'⟩ ∧
        ∀ a, (m.run.run p).1 = .ok a → Q a ⟨(m.run.run p).2.env, origin'⟩) : Rising N P Q m := by
  intro p origin hN hS hp
  obtain ⟨origin', hstep, hpost⟩ := h p origin hN hS hp
  exact ⟨origin', hstep.rises, hstep.stratified hS, hpost⟩

/-- A step beside trees and calls keeps whatever is said about these. -/
theorem aside {m : Infer α} (hm : Aside m)
    (hP : ∀ e e' origin, e'.outline = e.outline → P ⟨e, origin⟩ → P ⟨e', origin⟩) : Rising N P (fun _ => P) m :=
  step fun p origin _ _ hp => ⟨origin, .beside (hm p), fun _ _ => hP _ _ _ (hm p).outline hp⟩

end Rising

namespace Climbs

@[grind ←]
theorem pure (a : α) : Climbs N (pure a : Infer α) :=
  Rising.pure fun _ _ => trivial

@[grind ←]
theorem throw (f : Failure) : Climbs N (throw f : Infer α) :=
  Rising.throw f

@[grind ←]
theorem bind {m : Infer α} {k : α → Infer β} (hm : Climbs N m) (hk : ∀ a, Climbs N (k a)) : Climbs N (m >>= k) :=
  Rising.andThen hm hk

@[grind ←]
theorem locating {m : Infer α} (hm : Climbs N m) (loc : Option Location) : Climbs N (Flow.locating loc m) :=
  Rising.locating hm loc

@[grind ←]
theorem attempt {m : Infer α} (hm : Climbs N m) : Climbs N (Flow.attempt m) := by
  intro p origin hN hS hp
  obtain ⟨origin', hrises, hS', -⟩ := hm p origin hN hS hp
  exact ⟨origin', hrises, hS', fun _ _ => trivial⟩

@[grind ←]
theorem aside {m : Infer α} (hm : Aside m) : Climbs N m :=
  Rising.aside hm fun _ _ _ _ => id

end Climbs

/-- What is placed has numbers of its own, and what follows may count on them. -/
theorem Rising.later {Q : β → Stage → Prop} {place : Infer α} {T : α → Nat → Nat → Prop} {k : α → Infer β}
    (hplace : ∀ p : Program, ∃ a count, place.run.run p = (.ok a, p.opened count) ∧
      T a (p.env.notes.size + count) p.env.notes.size)
    (hT : ∀ {a n k k'}, T a n k → k' ≤ k → T a n k') (hP : Lasting P)
    (hk : ∀ a N', N ≤ N' → T a N' N → Rising N' P Q (k a)) : Rising N P Q (place >>= k) := by
  intro p origin hN hS hp
  obtain ⟨a, count, hrun, ha⟩ := hplace p
  have hstep := Stage.Step.opened p count origin
  have hle : N ≤ p.env.notes.size + count := Nat.le_trans hN (Nat.le_add_right _ _)
  obtain ⟨origin', hrises, hS', hpost⟩ := hk a _ hle (hT ha hN) (p.opened count) origin
    (p.size_opened count).ge (hstep.stratified hS) (hP _ _ hstep.rises hp)
  rw [Flow.run_bind_of_ok hrun]
  exact ⟨origin', hstep.rises.trans hrises, hS', hpost⟩

theorem Rising.place {Q : α → Stage → Prop} {t : Source} {k : Placed → Infer α} (hP : Lasting P)
    (hk : ∀ t N', N ≤ N' → t.Numbered N' N → Rising N' P Q (k t)) : Rising N P Q (Infer.place t >>= k) :=
  .later (T := fun t n k => t.Numbered n k) (Infer.run_place t) (fun h hle => h.mono (Nat.le_refl _) hle) hP hk

theorem Rising.copyBlock {Q : α → Stage → Prop} {b : Block Mark Placed} {k : Block Mark Placed → Infer α}
    (hP : Lasting P) (hk : ∀ b N', N ≤ N' → (Tree.ofBlock b).Numbered N' N → Rising N' P Q (k b)) :
    Rising N P Q (Infer.copyBlock b >>= k) :=
  .later (T := fun b n k => (Tree.ofBlock b).Numbered n k) (Infer.run_copyBlock b)
    (fun h hle => h.mono (Nat.le_refl _) hle) hP hk

theorem Rising.freshMark {Q : α → Stage → Prop} {loc : Option Location} {k : Mark → Infer α} (hP : Lasting P)
    (hk : ∀ m N', N ≤ N' → N ≤ m.occ ∧ m.occ < N' → Rising N' P Q (k m)) :
    Rising N P Q (Infer.freshMark loc >>= k) :=
  .later (T := fun m n k => k ≤ m.occ ∧ m.occ < n)
    (fun p => ⟨⟨loc, p.env.notes.size⟩, 1, Infer.run_freshMark loc p, Nat.le_refl _, Nat.lt_succ_self _⟩)
    (fun h hle => ⟨hle.trans h.1, h.2⟩) hP hk

end

end TypeFlow
