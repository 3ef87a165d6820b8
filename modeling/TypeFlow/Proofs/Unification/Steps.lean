import TypeFlow.Proofs.Unification.Replacement
import TypeFlow.Proofs.Unification.Visiting

/-!
# What every step of a unification keeps

Here nothing is demanded of the table: objects may be made of each other in circles, so that a type is met again
while it is visited, stands for itself there, and gets another representative later. What is known of a type is then
no representative, and may itself be replaced by something else.

`Sound` is what holds nevertheless: what is known of a type is something the type `Becomes`, and it was seen or
is visited. Between the moment at which a type is left and the one at which its representative is noted, it is
neither; such types are listed separately (`pending`).

`Proceeds` is what becomes of a table and a unifier: nothing is taken back, and the types that were resolved are
counted against the entries that were added.

The only thing that keeps a unification from ending is a name without end that a fingerprint shows
(`Table.Endless`). Such names come about, for instance where a constant is declared in an instance of a generic
class whose type arguments unification ties into a circle.
-/

namespace TypeFlow

/-- Types keep their sorts, and derived types their entries, when components of objects are replaced. -/
theorem Table.Rewrites.retains {t t' : Table} (h : Rewrites t t') : Retains t t' := by
  refine ⟨fun {id e} he => ?_⟩
  by_cases hobj : ∃ o, e = .object o
  · obtain ⟨o, rfl⟩ := hobj
    obtain ⟨o', ho', -⟩ := h.object he
    exact ⟨_, ho', rfl, False.elim⟩
  · exact ⟨e, h.entry he (not_exists.mp hobj), rfl, fun _ => rfl⟩

namespace Unifier

open Table (Retains Rewrites Becomes Grounded Arises Enlarges Endless)

variable {t t₀ t₁ t' t'' : Table} {u u₁ u' u'' : Unifier} {id x v c rep : TypeId} {L P : List TypeId}
  {α β : Type}

/-! ### Computations that end -/

/-- Run with `u` on `t`, the computation does the same whatever number of additional steps is granted, so it does not
run out of steps. It ends in `Q`, or there is no end to what some type shows. -/
def Ends (t : Table) (u : Unifier) (x : Nat → Bounded α) (Q : Table → Unifier → α → Prop) : Prop :=
  ∃ o u' t', (∀ k, ((x k).run.run u).run t = ((o, u'), t')) ∧ Rewrites t t' ∧ (∀ a, o = some a → Q t' u' a) ∧
    (o = none → Endless t')

namespace Ends

variable {x : Nat → Bounded α} {Q : Table → Unifier → α → Prop} {R : Table → Unifier → β → Prop} {a : α}

theorem pure (h : Q t u a) : Ends t u (fun _ => pure a) Q :=
  ⟨some a, u, t, fun _ => rfl, .refl t, by rintro _ ⟨⟩; exact h, nofun⟩

theorem bind {f : Nat → α → Bounded β} (hx : Ends t u x Q)
    (hf : ∀ a t' u', Rewrites t t' → Q t' u' a → Ends t' u' (fun k => f k a) R) :
    Ends t u (fun k => x k >>= f k) R := by
  obtain ⟨o, u₁, t₁, hrun, hr, hq, hnone⟩ := hx
  cases o with
  | none =>
    refine ⟨none, u₁, t₁, fun k => ?_, hr, nofun, fun _ => hnone rfl⟩
    rw [OptionT.run_bind]
    exact run_bind (hrun k)
  | some a =>
    obtain ⟨o', u₂, t₂, hrun', hr', hq', hnone'⟩ := hf a t₁ u₁ hr (hq a rfl)
    refine ⟨o', u₂, t₂, fun k => ?_, hr.trans hr', hq', hnone'⟩
    rw [OptionT.run_bind]
    exact (run_bind (hrun k)).trans (hrun' k)

theorem imp {Q' : Table → Unifier → α → Prop} (hx : Ends t u x Q) (h : ∀ t' u' a, Q t' u' a → Q' t' u' a) :
    Ends t u x Q' := by
  obtain ⟨o, u', t', hrun, hr, hq, hnone⟩ := hx
  exact ⟨o, u', t', hrun, hr, fun a ha => h t' u' a (hq a ha), hnone⟩

/-- A computation on the table. -/
theorem onTable {x : TableM α} (hx : x.run t = (a, t')) (hr : Rewrites t t') (h : Q t' u a) :
    Ends t u (fun _ => liftM x) Q := by
  have hlift : ((liftM x : Bounded α).run.run u).run t = ((some (x.run t).1, u), (x.run t).2) := rfl
  rw [hx] at hlift
  exact ⟨some a, u, t', fun _ => hlift, hr, by rintro _ ⟨⟩; exact h, nofun⟩

/-- A computation on the unifier. -/
theorem of_runs (hx : ∀ k, Runs t u (x k).run (some a) u') (h : Q t u' a) : Ends t u x Q :=
  ⟨some a, u', t, hx, .refl t, by rintro _ ⟨⟩; exact h, nofun⟩

theorem runs_bind {f : Nat → α → Bounded β} (hx : ∀ k, Runs t u (x k).run (some a) u')
    (hf : Ends t u' (fun k => f k a) R) : Ends t u (fun k => x k >>= f k) R := by
  refine bind (Q := fun t'' u'' b => t'' = t ∧ u'' = u' ∧ b = a) (of_runs hx ⟨rfl, rfl, rfl⟩) ?_
  rintro _ _ _ - ⟨rfl, rfl, rfl⟩
  exact hf

/-- A search ends, unless there is no end to what the type shows. -/
theorem search_bind {f : Nat → Option TypeId → Bounded β} (hf : Ends t u (fun k => f k (u.find? t id)) R) :
    Ends t u (fun k => search id >>= f k) R := by
  cases hshown : t.fingerprint? id with
  | some fp =>
    obtain rfl := Table.eq_of_fingerprint? hshown
    exact runs_bind (fun _ => runs_search u hshown) hf
  | none =>
    have hrun : ((search id).run.run u).run t = ((none, u), t) := by
      unfold search
      rw [OptionT.run_bind]
      refine (run_bind (runs_types t u).lift).trans ?_
      rw [Option.elim_some, hshown]
      rfl
    refine ⟨none, u, t, fun k => ?_, .refl t, nofun, fun _ => ⟨id, hshown⟩⟩
    rw [OptionT.run_bind]
    exact run_bind hrun

end Ends

/-! ### What is gained -/

/-- From a table and a unifier to later ones: every type keeps its sort, representatives stay, and no type is
resolved twice. At most `debt` more types were added than resolved. -/
structure Proceeds (debt : Nat) (t : Table) (u : Unifier) (t' : Table) (u' : Unifier) : Prop where
  retains : Retains t t'
  size_le : t.size ≤ t'.size
  reps : u.reps ⊆ u'.reps
  resolved : ∃ new, u'.known = new ++ u.known ∧ (new.map Prod.fst).Nodup ∧ (∀ p ∈ new, u.known? p.1 = none) ∧
    t'.size ≤ t.size + new.length + debt

theorem known?_append {new : List (TypeId × TypeId)} (hk : u'.known = new ++ u.known) (id : TypeId) :
    u'.known? id = ((new.find? fun p => p.1 = id).map Prod.snd).or (u.known? id) := by
  unfold known?
  rw [hk, List.find?_append, Option.map_or]

namespace Proceeds

variable {d d' : Nat}

theorem refl (t : Table) (u : Unifier) : Proceeds 0 t u t u :=
  ⟨.refl t, Nat.le_refl _, List.Subset.refl _, [], rfl, List.nodup_nil, by simp, by simp⟩

/-- What is known of a type stays known. -/
theorem known? (h : Proceeds d t u t' u') (hx : u.known? x = some v) : u'.known? x = some v := by
  obtain ⟨new, hk, -, hnew, -⟩ := h.resolved
  rw [known?_append hk]
  have hnone : new.find? (fun p => p.1 = x) = none := by
    refine List.find?_eq_none.mpr fun p hp hpx => ?_
    have hp := hnew p hp
    rw [show p.1 = x by simpa using hpx, hx] at hp
    exact absurd hp nofun
  rw [hnone, Option.map_none, Option.none_or, hx]

theorem unknown (h : Proceeds d t u t' u') (hx : u'.known? x = none) : u.known? x = none := by
  cases hu : u.known? x with
  | none => rfl
  | some v => exact absurd ((h.known? hu).symm.trans hx) nofun

theorem trans (h : Proceeds d t u t' u') (h' : Proceeds d' t' u' t'' u'') : Proceeds (d + d') t u t'' u'' where
  retains := h.retains.trans h'.retains
  size_le := h.size_le.trans h'.size_le
  reps := List.Subset.trans h.reps h'.reps
  resolved := by
    obtain ⟨new, hk, hnodup, hnew, hsize⟩ := h.resolved
    obtain ⟨new', hk', hnodup', hnew', hsize'⟩ := h'.resolved
    refine ⟨new' ++ new, by rw [hk', hk, List.append_assoc], ?_, ?_, ?_⟩
    · rw [List.map_append]
      refine List.nodup_append.mpr ⟨hnodup', hnodup, fun a ha b hb hab => ?_⟩
      -- what was resolved first is known later
      obtain ⟨p, hp, rfl⟩ := List.mem_map.mp ha
      obtain ⟨q, hq, rfl⟩ := List.mem_map.mp hb
      have hnone := hnew' p hp
      rw [known?_append hk, Option.or_eq_none_iff, Option.map_eq_none_iff] at hnone
      exact List.find?_eq_none.mp hnone.1 q hq (by simpa using hab.symm)
    · exact List.forall_mem_append.mpr ⟨fun p hp => h.unknown (hnew' p hp), hnew⟩
    · rw [List.length_append]
      omega

/-- The types under visit may change. -/
theorem of_eq (h : Proceeds d t u t' u') (hc : u''.chosen = u'.chosen) (hk : u''.known = u'.known) :
    Proceeds d t u t' u'' :=
  ⟨h.retains, h.size_le, fun r hr => by simpa [Unifier.reps, hc] using h.reps hr, by simpa only [hk] using h.resolved⟩

/-- A type is resolved. -/
theorem noted (h : Proceeds (d + 1) t u t' u') (hid : u'.known? id = none) (hreps : u'.reps ⊆ u''.reps)
    (hk : u''.known = (id, rep) :: u'.known) : Proceeds d t u t' u'' where
  retains := h.retains
  size_le := h.size_le
  reps := List.Subset.trans h.reps hreps
  resolved := by
    obtain ⟨new, hk', hnodup, hnew, hsize⟩ := h.resolved
    refine ⟨(id, rep) :: new, by rw [hk, hk', List.cons_append], ?_, ?_, ?_⟩
    · refine List.nodup_cons.mpr ⟨fun hmem => ?_, hnodup⟩
      obtain ⟨q, hq, heq⟩ := List.mem_map.mp hmem
      rw [known?_append hk', Option.or_eq_none_iff, Option.map_eq_none_iff] at hid
      exact List.find?_eq_none.mp hid.1 q hq (by simpa using heq)
    · exact List.forall_mem_cons.mpr ⟨h.unknown hid, hnew⟩
    · rw [List.length_cons]
      omega

theorem mono (h : Proceeds d t u t' u') (hd : d ≤ d') : Proceeds d' t u t' u' := by
  obtain ⟨new, hk, hnodup, hnew, hsize⟩ := h.resolved
  exact ⟨h.retains, h.size_le, h.reps, new, hk, hnodup, hnew, by omega⟩

/-- A change of the table that adds at most one type. -/
theorem of_table (hr : Retains t t') (hle : t.size ≤ t'.size) (hsize : t'.size ≤ t.size + d) (u : Unifier) :
    Proceeds d t u t' u :=
  ⟨hr, hle, List.Subset.refl _, [], rfl, List.nodup_nil, by simp, by simpa using hsize⟩

end Proceeds

/-! ### Answers -/

/-- A call for the type is answered at once. -/
def Answered (u : Unifier) (c : TypeId) : Prop :=
  c = 0 ∨ u.known? c ≠ none ∨ c ∈ u.visiting

/-- What the call is answered by. -/
def answer (u : Unifier) (c : TypeId) : TypeId :=
  (u.known? c).getD c

theorem answer_of_known (h : u.known? c = some v) : u.answer c = v := by
  rw [answer, h, Option.getD_some]

theorem answer_of_unknown (h : u.known? c = none) : u.answer c = c := by
  rw [answer, h, Option.getD_none]

/-- The type was given up for another one, or is about to be. -/
def Gone (u : Unifier) (L : List TypeId) (x : TypeId) : Prop :=
  (∃ v, u.known? x = some v ∧ v ≠ x) ∨ x ∈ L

/-! ### The invariant -/

/-- **What every step keeps.** The first call was for a type of the table `t₀`, or a table like it; the types `L`
were left and have no representative yet. -/
structure Sound (t₀ : Table) (L : List TypeId) (t : Table) (u : Unifier) : Prop where
  arises : Arises t
  /-- A representative stands for itself, -/
  rep : ∀ r ∈ u.reps, u.known? r = some r
  /-- and what stands for itself is one. -/
  self : ∀ {x : TypeId}, u.known? x = some x → x ∈ u.reps
  becomes : ∀ {x v : TypeId}, u.known? x = some v → Becomes t u.reps (u.Gone L) x v
  /-- What stands for a type was seen or is visited, -/
  settled : ∀ {x v : TypeId}, u.known? x = some v → u.known? v ≠ none ∨ v ∈ u.visiting ∨ v ∈ L
  /-- it was there at the begin unless it is a representative, -/
  early : ∀ {x v : TypeId}, u.known? x = some v → v ∈ u.reps ∨ v < t₀.size
  /-- and is a type of the table. -/
  inside : ∀ {x v : TypeId}, u.known? x = some v → v = x ∨ v < t.size
  zero : u.known? 0 = none
  visited : ∀ v ∈ u.visiting, u.known? v = none ∧ v < t₀.size
  pending : ∀ l ∈ L, u.known? l = none ∧ l ∉ u.visiting
  size_le : t₀.size ≤ t.size

/-- Every type that was added was seen, except for the types `P`. -/
def Covered (t₀ : Table) (P : List TypeId) (t : Table) (u : Unifier) : Prop :=
  ∀ x, t₀.size ≤ x → x < t.size → x ∈ P ∨ u.known? x ≠ none

namespace Sound

theorem not_rep_of_gone (h : Sound t₀ L t u) (hx : u.Gone L x) : x ∉ u.reps := by
  intro hr
  have hself := h.rep x hr
  rcases hx with ⟨v, hv, hne⟩ | hL
  · exact hne (Option.some.inj (hv.symm.trans hself))
  · exact absurd ((h.pending x hL).1.symm.trans hself) nofun

/-- What a type became counts less. -/
theorem weight_lt (h : Sound t₀ L t u) (hb : Becomes t u.reps (u.Gone L) x v) :
    x = v ∨ t.weight u.reps v < t.weight u.reps x :=
  hb.weight_lt h.arises.grounded fun _ => h.not_rep_of_gone

/-- What answers for a type is something it became. -/
theorem becomes_answer (h : Sound t₀ L t u) (c : TypeId) : Becomes t u.reps (u.Gone L) c (u.answer c) := by
  cases hc : u.known? c with
  | none =>
    rw [answer_of_unknown hc]
    exact .refl c
  | some v =>
    rw [answer_of_known hc]
    exact h.becomes hc

theorem answer_lt (h : Sound t₀ L t u) (hc : c < t.size) : u.answer c < t.size := by
  cases hk : u.known? c with
  | none => rwa [answer_of_unknown hk]
  | some v =>
    rw [answer_of_known hk]
    rcases h.inside hk with rfl | hlt
    · exact hc
    · exact hlt

/-- What answers for a type is answered for, unless it is about to be given up. -/
theorem answered_answer (h : Sound t₀ L t u) (hc : u.Answered c) (hL : u.answer c ∉ L) :
    u.Answered (u.answer c) := by
  cases hk : u.known? c with
  | none => rwa [answer_of_unknown hk]
  | some v =>
    rw [answer_of_known hk] at hL ⊢
    exact .inr ((h.settled hk).imp_right fun hor => hor.resolve_right hL)

/-- More types of the table may be there at the begin. -/
theorem rebase (h : Sound t₀ L t u) (hle : t₀.size ≤ t₁.size) (hle' : t₁.size ≤ t.size) : Sound t₁ L t u :=
  { h with
    early := fun hx => (h.early hx).imp_right fun hlt => Nat.lt_of_lt_of_le hlt hle
    visited := fun v hv => ⟨(h.visited v hv).1, Nat.lt_of_lt_of_le (h.visited v hv).2 hle⟩
    size_le := hle' }

/-- The table may be worked on. -/
theorem of_table (h : Sound t₀ L t u) (ht' : Arises t') (hr : Retains t t') (hle : t.size ≤ t'.size) :
    Sound t₀ L t' u :=
  { h with
    arises := ht'
    becomes := fun hx => (h.becomes hx).mono hr (List.Subset.refl _) fun _ hz => hz
    inside := fun hx => (h.inside hx).imp_right fun hlt => Nat.lt_of_lt_of_le hlt hle
    size_le := h.size_le.trans hle }

end Sound

/-- The state in which a type is visited. -/
def entered (u : Unifier) (id : TypeId) : Unifier :=
  { u with visiting := id :: u.visiting }

/-- The state in which a type is not visited any more. -/
def left (u : Unifier) (id : TypeId) : Unifier :=
  { u with visiting := u.visiting.filter (· ≠ id) }

theorem left_entered (hid : id ∉ u.visiting) : (u.entered id).left id = u := by
  rw [left, entered, filter_entered hid]

theorem left_of_not_mem (hid : id ∉ u.visiting) : u.left id = u := by
  have hself : u.visiting.filter (· ≠ id) = u.visiting := by
    rw [List.filter_eq_self]
    intro x hx
    simpa using fun heq : x = id => hid (heq ▸ hx)
  rw [left, hself]

theorem answered_left (hc : u.Answered c) (hne : c ≠ id) : (u.left id).Answered c :=
  hc.imp_right <| Or.imp_right fun hmem => List.mem_filter.mpr ⟨hmem, by simpa using hne⟩

namespace Sound

/-- A type of the table is entered. -/
theorem entered (h : Sound t₀ [] t u) (hid : u.known? id = none) (hlt : id < t₀.size) :
    Sound t₀ [] t (u.entered id) :=
  { h with
    settled := fun hx => (h.settled hx).imp_right (Or.imp_left (List.mem_cons_of_mem _))
    visited := List.forall_mem_cons.mpr ⟨⟨hid, hlt⟩, h.visited⟩
    pending := by simp }

/-- A type is left. -/
theorem left (h : Sound t₀ L t u) (hid : u.known? id = none) : Sound t₀ (id :: L) t (u.left id) where
  arises := h.arises
  rep := h.rep
  self := h.self
  becomes hx := (h.becomes hx).mono (Retains.refl t) (List.Subset.refl _)
    fun z hz => hz.imp_right (List.mem_cons_of_mem id)
  settled {x v} hx := by
    rcases h.settled hx with hk | hv | hL
    · exact .inl hk
    · by_cases hvid : v = id
      · exact .inr (.inr (hvid ▸ List.mem_cons_self))
      · exact .inr (.inl (List.mem_filter.mpr ⟨hv, by simpa using hvid⟩))
    · exact .inr (.inr (List.mem_cons_of_mem _ hL))
  early := h.early
  inside := h.inside
  zero := h.zero
  visited v hv := h.visited v (List.mem_of_mem_filter hv)
  pending := by
    refine List.forall_mem_cons.mpr ⟨⟨hid, fun hmem => ?_⟩, fun l hl => ⟨(h.pending l hl).1, fun hmem => ?_⟩⟩
    · simpa using (List.mem_filter.mp hmem).2
    · exact (h.pending l hl).2 (List.mem_of_mem_filter hmem)
  size_le := h.size_le

/-- What stands for a type that was left is noted. -/
theorem folded (h : Sound t₀ (id :: L) t u) (h0 : id ≠ 0) (hL : id ∉ L) (hne : v ≠ id)
    (hb : Becomes t u.reps (u.Gone (id :: L)) id v) (hset : u.known? v ≠ none ∨ v ∈ u.visiting ∨ v ∈ L)
    (hearly : v ∈ u.reps ∨ v < t₀.size) (hlt : v < t.size) : Sound t₀ L t (u.folded id v) := by
  have hnone := (h.pending id List.mem_cons_self).1
  have hgone : ∀ z, u.Gone (id :: L) z → (u.folded id v).Gone L z := by
    rintro z (⟨w, hw, hwz⟩ | hz)
    · refine .inl ⟨w, ?_, hwz⟩
      rw [known?_folded, if_neg (by rintro rfl; exact absurd (hnone.symm.trans hw) nofun), hw]
    · rcases List.mem_cons.mp hz with rfl | hz
      · exact .inl ⟨v, by rw [known?_folded, if_pos rfl], hne⟩
      · exact .inr hz
  have hmono : ∀ {x w : TypeId}, Becomes t u.reps (u.Gone (id :: L)) x w →
      Becomes t (u.folded id v).reps ((u.folded id v).Gone L) x w := fun hx =>
    hx.mono (Retains.refl t) (List.Subset.refl _) hgone
  have hseen : ∀ {w : TypeId}, u.known? w ≠ none → (u.folded id v).known? w ≠ none := by
    intro w hw
    rw [known?_folded]
    split
    · exact nofun
    · exact hw
  have hcases : ∀ {x w : TypeId}, (u.folded id v).known? x = some w → x = id ∧ w = v ∨ u.known? x = some w := by
    intro x w hx
    rw [known?_folded] at hx
    split at hx
    · rename_i heq
      exact .inl ⟨heq.symm, (Option.some.inj hx).symm⟩
    · exact .inr hx
  refine ⟨h.arises, fun r hr => ?_, fun hx => ?_, fun hx => ?_, fun hx => ?_, fun hx => ?_, fun hx => ?_, ?_,
    fun w hw => ⟨?_, (h.visited w hw).2⟩, fun l hl => ⟨?_, ?_⟩, h.size_le⟩
  · have hself := h.rep r hr
    rw [known?_folded, if_neg (by rintro rfl; exact absurd (hnone.symm.trans hself) nofun), hself]
  · rcases hcases hx with ⟨rfl, heq⟩ | hx
    · exact absurd heq.symm hne
    · exact h.self hx
  · rcases hcases hx with ⟨rfl, rfl⟩ | hx
    · exact hmono hb
    · exact hmono (h.becomes hx)
  · rcases hcases hx with ⟨rfl, rfl⟩ | hx
    · exact hset.imp_left hseen
    · rcases h.settled hx with hk | hv | hmem
      · exact .inl (hseen hk)
      · exact .inr (.inl hv)
      · rcases List.mem_cons.mp hmem with rfl | hmem
        · exact .inl (by rw [known?_folded, if_pos rfl]; exact nofun)
        · exact .inr (.inr hmem)
  · rcases hcases hx with ⟨rfl, rfl⟩ | hx
    · exact hearly
    · exact h.early hx
  · rcases hcases hx with ⟨rfl, rfl⟩ | hx
    · exact .inr hlt
    · exact h.inside hx
  · rw [known?_folded, if_neg h0, h.zero]
  · rw [known?_folded, if_neg (by rintro rfl; exact (h.pending _ List.mem_cons_self).2 hw)]
    exact (h.visited w hw).1
  · rw [known?_folded, if_neg (by rintro rfl; exact hL hl)]
    exact (h.pending l (List.mem_cons_of_mem _ hl)).1
  · exact (h.pending l (List.mem_cons_of_mem _ hl)).2

/-- A type that is left becomes its own representative. -/
theorem chosen (h : Sound t₀ L t u) (hid : u.known? id = none) (h0 : id ≠ 0) (hL : id ∉ L) (f : Fingerprint) :
    Sound t₀ L t ((u.left id).withChosen f id) := by
  have hknown : ∀ a, ((u.left id).withChosen f id).known? a = if id = a then some id else u.known? a :=
    fun a => known?_withChosen (u.left id) f id a
  have hreps : ((u.left id).withChosen f id).reps = u.reps ++ [id] := by
    simp [Unifier.reps, Unifier.withChosen, Unifier.left]
  have hgone : ∀ z, u.Gone L z → ((u.left id).withChosen f id).Gone L z := by
    refine fun z hz => hz.imp_left ?_
    rintro ⟨w, hw, hwz⟩
    refine ⟨w, ?_, hwz⟩
    rw [hknown, if_neg (by rintro rfl; exact Option.some_ne_none _ (hw.symm.trans hid)), hw]
  have hcases : ∀ {x w : TypeId}, ((u.left id).withChosen f id).known? x = some w →
      x = id ∧ w = id ∨ u.known? x = some w := by
    intro x w hx
    rw [hknown] at hx
    split at hx
    · rename_i heq
      exact .inl ⟨heq.symm, (Option.some.inj hx).symm⟩
    · exact .inr hx
  refine ⟨h.arises, fun r hr => ?_, fun {x} hx => ?_, fun hx => ?_, fun {x w} hx => ?_, fun hx => ?_,
    fun hx => ?_, ?_, fun w hw => ?_, fun l hl => ⟨?_, fun hmem => ?_⟩, h.size_le⟩
  · rw [hreps] at hr
    rw [hknown]
    split
    · rename_i heq
      rw [heq]
    · rename_i hne
      rcases List.mem_append.mp hr with hr | hr
      · exact h.rep r hr
      · exact absurd (List.mem_singleton.mp hr).symm hne
  · rw [hreps]
    rcases hcases hx with ⟨rfl, -⟩ | hx
    · exact List.mem_append_right _ List.mem_cons_self
    · exact List.mem_append_left _ (h.self hx)
  · rcases hcases hx with ⟨rfl, rfl⟩ | hx
    · exact .refl _
    · exact (h.becomes hx).mono (Retains.refl t) (hreps ▸ List.subset_append_left _ _) hgone
  · by_cases hw : w = id
    · refine .inl ?_
      rw [hw, hknown, if_pos rfl]
      exact Option.some_ne_none _
    · rcases hcases hx with ⟨-, rfl⟩ | hx
      · exact absurd rfl hw
      · rcases h.settled hx with hk | hv | hmem
        · refine .inl ?_
          rw [hknown, if_neg (Ne.symm hw)]
          exact hk
        · exact .inr (.inl (List.mem_filter.mpr ⟨hv, by simpa using hw⟩))
        · exact .inr (.inr hmem)
  · rw [hreps]
    rcases hcases hx with ⟨rfl, rfl⟩ | hx
    · exact .inl (List.mem_append_right _ List.mem_cons_self)
    · exact (h.early hx).imp_left (List.mem_append_left _)
  · rcases hcases hx with ⟨rfl, rfl⟩ | hx
    · exact .inl rfl
    · exact h.inside hx
  · rw [hknown, if_neg h0, h.zero]
  · obtain ⟨hw, hne⟩ := List.mem_filter.mp hw
    rw [hknown, if_neg (by rintro rfl; exact absurd hne (by simp))]
    exact h.visited w hw
  · rw [hknown, if_neg (by rintro rfl; exact hL hl)]
    exact (h.pending l hl).1
  · exact (h.pending l hl).2 (List.mem_of_mem_filter hmem)

end Sound

end Unifier

end TypeFlow
