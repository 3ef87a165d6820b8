import Mathlib.Data.Set.Finite.Basic
import TypeFlow.Proofs.Unification.Steps

/-!
# Types that are made anew

A derived type is made anew from what stands for its components, and the result is unified in turn. When this
begins, the components of the result are answered for at once, so all that happens is that the type is made anew
again and again, each time from what stands for the components (`Sound.ends_chain`). Nothing becomes known in the
meantime, so this ends as soon as every component stands for itself. It does after as many steps as there were
types at the begin, since what stands for a type that is no representative counts less than the type
(`Sound.steady`).

A type is never met again before its representative is noted: its components count less than the type, and so do
all types that stand for them (`Sound.answer_part_not_mem`).
-/

namespace TypeFlow

/-- The entries of types that are made anew from what stands for their components. -/
def Entry.IsMade : Entry → Prop
  | .pointer _ | .union _ | .metaclass _ | .hierarchy _ => True
  | _ => False

theorem Entry.IsMade.isDerived {e : Entry} (h : e.IsMade) : e.IsDerived := by
  cases e <;> trivial

namespace Table

variable {t t' : Table} {id d : TypeId}

theorem Entry.IsMade.cases {e : Entry} (h : e.IsMade) :
    (∃ k c, Unary k ∧ e = k c) ∨ ∃ ms, e = .union ms := by
  cases e with
  | pointer c => exact .inl ⟨_, c, .inl rfl, rfl⟩
  | metaclass c => exact .inl ⟨_, c, .inr (.inl rfl), rfl⟩
  | hierarchy c => exact .inl ⟨_, c, .inr (.inr rfl), rfl⟩
  | union ms => exact .inr ⟨ms, rfl⟩
  | _ => exact h.elim

theorem Unary.isMade {k : TypeId → Entry} (h : Unary k) (c : TypeId) : (k c).IsMade := by
  rcases h with rfl | rfl | rfl <;> trivial

/-- No two members of the entry are equal. -/
def Unequal (t : Table) (e : Entry) : Prop :=
  ∀ ms, e = .union ms → ms.Pairwise fun a b => t.equal a b = false

/-! ### Making a type -/

/-- Interning gives the type with the wanted entry, which is the only one that may be new. -/
theorem Grounded.run_intern (h : Grounded t) {e : Entry} (hd : e.IsDerived)
    (hu : ∀ ms, e = .union ms → IsUnion t ms) (hl : ∀ c ∈ e.compared, c < t.size) :
    ∃ id t', (intern e).run t = (id, t') ∧ Enlarges t t' ∧ t'.get? id = some e ∧
      t'.size ≤ t.size + 1 ∧ ∀ x, t.size ≤ x → x < t'.size → x = id := by
  obtain ⟨id, t', hrun, hlarge, -, -, hid⟩ := h.toTidy.enlarges_intern h.closed hd hu hl
  refine ⟨id, t', hrun, hlarge, hid, ?_⟩
  cases hfind : t.find? e with
  | some found =>
    obtain ⟨-, rfl⟩ := Prod.mk.inj ((run_intern_of_some hfind).symm.trans hrun)
    exact ⟨Nat.le_succ _, fun x hx hx' => absurd hx (Nat.not_le.mpr hx')⟩
  | none =>
    obtain ⟨hsame, htable⟩ := Prod.mk.inj ((run_intern_of_none hfind).symm.trans hrun)
    have hsize : t'.size = t.size + 1 := by
      rw [← htable]
      exact congrArg (· + 1) (Array.size_push e)
    have hid' : id = t.size := hsame.symm
    exact ⟨hsize.le, fun x hx hx' => by lia⟩

theorem Arises.intern (h : Arises t) {k : TypeId → Entry} (hk : Unary k) (hd : d < t.size) :
    Arises ((Table.intern (k d)).run t).2 := by
  have hop : ∀ id ∈ [d], id < t.size := List.forall_mem_singleton.mpr hd
  rcases hk with rfl | rfl | rfl
  · exact h.step (.operation (.pointerOf d) hop)
  · exact h.step (.operation (.metaclassOf d) hop)
  · exact h.step (.operation (.hierarchyOf d) hop)

theorem reverse_sublist_dropEqual (t : Table) (kept ids : List TypeId) :
    kept.reverse.Sublist (t.dropEqual kept ids) := by
  induction ids generalizing kept with
  | nil => exact List.Sublist.refl _
  | cons id rest ih =>
    rw [dropEqual]
    split
    · exact ih kept
    · exact (List.reverse_cons ▸ List.sublist_append_left _ _).trans (ih (id :: kept))

/-- Members do not vanish. -/
theorem flatten_ne_nil {ids : List TypeId} {m : TypeId} (hid : id ∈ ids) (hm : m ∈ t.members id) :
    t.flatten ids ≠ [] := by
  have hall : m ∈ ids.flatMap t.members := List.mem_flatMap.mpr ⟨id, hid, hm⟩
  unfold flatten
  simp only
  split
  · rename_i hnil
    -- nothing but the type of what never yields a value is left out
    have hrest : sortedUnique ((ids.flatMap t.members).filter (· ≠ Builtin.noReturn)) = [] := by
      cases hs : sortedUnique ((ids.flatMap t.members).filter (· ≠ Builtin.noReturn)) with
      | nil => rfl
      | cons x xs =>
        have hsub := t.reverse_sublist_dropEqual [x] xs
        rw [hs, dropEqual, List.reverse_nil, List.any_nil, if_neg Bool.false_ne_true] at hnil
        rw [hnil] at hsub
        exact absurd hsub.length_le (by simp)
    have hm' : m = Builtin.noReturn := by
      by_contra hne
      have hin : m ∈ sortedUnique ((ids.flatMap t.members).filter (· ≠ Builtin.noReturn)) :=
        mem_sortedUnique.mpr (List.mem_filter.mpr ⟨hall, by simpa using hne⟩)
      rw [hrest] at hin
      exact absurd hin (by simp)
    rw [if_pos (hm' ▸ hall)]
    exact List.cons_ne_nil _ _
  · rename_i hne
    exact hne

end Table

namespace Unifier

open Table (Retains Rewrites Becomes Grounded Arises Enlarges Unary Plain Unequal)

variable {t t₀ t₁ t' : Table} {u u₁ u' : Unifier} {id b c : TypeId} {e : Entry} {L : List TypeId}

/-- Makes a type of the sort of an entry from other components. -/
def remake : Entry → List TypeId → TableM TypeId
  | .pointer _, ds => Table.pointerOf (ds.headD 0)
  | .metaclass _, ds => Table.metaclassOf (ds.headD 0)
  | .hierarchy _, ds => Table.hierarchyOf (ds.headD 0)
  | _, ds => Table.unionOf ds

/-- **What is made of a type** from what stands for its components, after the type was left. -/
structure Remade (u : Unifier) (L : List TypeId) (id : TypeId) (e : Entry) (t t' : Table) (built : TypeId) :
    Prop where
  arises : Arises t'
  rewrites : Rewrites t t'
  size : t'.size ≤ t.size + 1
  only : ∀ x, t.size ≤ x → x < t'.size → x = built
  becomes : Becomes t' u.reps (u.Gone (id :: L)) id built
  ne_zero : built ≠ 0
  lt_size : built < t'.size
  /-- It stands for a component, or is made of what stands for them. -/
  next : (∃ c ∈ e.parts, built = u.answer c) ∨ ∃ e', t'.get? built = some e' ∧ e'.IsMade ∧ t'.Unequal e' ∧
    ∀ d ∈ e'.parts, ∃ c ∈ e.parts, d = u.answer c
  /-- The type itself is made if its components stand for themselves. -/
  same : (∀ c ∈ e.parts, u.answer c = c) → t.Unequal e → built = id

theorem remade_unary (hs : Sound t₀ (id :: L) t u) {k : TypeId → Entry} (hk : Unary k)
    (he : t.get? id = some (k c)) :
    ∃ built t', (Table.intern (k (u.answer c))).run t = (built, t') ∧ Remade u L id (k c) t t' built := by
  have hg := hs.arises.grounded
  have hcomp : ∀ d, (k d).compared = [d] := fun d => (hk.isDerived d).compared_eq.trans (hk.parts_eq d)
  have hc : c < t.size := hg.closed id _ he c (by rw [hcomp]; exact List.mem_cons_self)
  obtain ⟨built, t', hrun, hlarge, hbuilt, hsize, honly⟩ := hg.run_intern (hk.isDerived (u.answer c))
    (fun ms hms => absurd (hms ▸ rfl) (hk.kind_ne (u.answer c)))
    (by rw [hcomp]; exact List.forall_mem_singleton.mpr (hs.answer_lt hc))
  have hret : Retains t t' := ⟨fun hx => ⟨_, hlarge.get hx, rfl, fun _ => rfl⟩⟩
  refine ⟨built, t', hrun, ?_, hlarge.rewrites, hsize, honly, ?_,
    Nat.ne_of_gt (Table.pos_of_get? hbuilt), Table.lt_size_of_get? hbuilt, .inr ⟨_, hbuilt, hk.isMade _, ?_, ?_⟩,
    fun hfix _ => ?_⟩
  · have harises := hs.arises.intern hk (hs.answer_lt hc)
    rwa [hrun] at harises
  · refine .unary (.inr List.mem_cons_self) hk (hlarge.get he) hbuilt ?_
    exact (hs.becomes_answer c).mono hret (List.Subset.refl _) fun _ hz => hz
  · exact fun ms hms => absurd (hms ▸ rfl) (hk.kind_ne (u.answer c))
  · rw [hk.parts_eq, hk.parts_eq]
    exact List.forall_mem_singleton.mpr ⟨c, List.mem_cons_self, rfl⟩
  · rw [hk.parts_eq] at hfix
    rw [hfix c List.mem_cons_self] at hrun
    exact (Prod.mk.inj (hrun.symm.trans (hg.toTidy.run_intern he (hk.isDerived c)))).1

theorem remade_union (hs : Sound t₀ (id :: L) t u) {ms : List TypeId} (he : t.get? id = some (.union ms)) :
    ∃ built t', (Table.unionOf (ms.map u.answer)).run t = (built, t') ∧
      Remade u L id (.union ms) t t' built := by
  have hg := hs.arises.grounded
  have hu := hg.union he
  -- what stands for a member is no union either
  have hplain : ∀ m ∈ ms, t.Plain (u.answer m) := by
    intro m hm
    obtain ⟨x, hx⟩ := hu.known m hm
    refine (hs.becomes_answer m).plain ⟨x, hx, fun hk => ?_⟩
    cases x with
    | union ns => exact hu.flat m hm ns hx
    | _ => exact absurd hk nofun
  have hself : ∀ m ∈ ms, t.members (u.answer m) = [u.answer m] := by
    intro m hm
    obtain ⟨x, hx, -⟩ := hplain m hm
    exact Table.members_of_not_union (Nat.ne_of_gt (Table.pos_of_get? hx)) (Table.not_union_of_plain (hplain m hm))
  have hlt : ∀ d ∈ ms.map u.answer, d < t.size := by
    intro d hd
    obtain ⟨m, hm, rfl⟩ := List.mem_map.mp hd
    obtain ⟨x, hx, -⟩ := hplain m hm
    exact Table.lt_size_of_get? hx
  have hmem : ∀ w ∈ t.flatten (ms.map u.answer), ∃ m ∈ ms, w = u.answer m := by
    intro w hw
    obtain ⟨d, hd, hwd⟩ := Table.exists_of_mem_flatten hw
    obtain ⟨m, hm, rfl⟩ := List.mem_map.mp hd
    rw [hself m hm] at hwd
    exact ⟨m, hm, List.mem_singleton.mp hwd⟩
  have hne : t.flatten (ms.map u.answer) ≠ [] := by
    obtain ⟨m, hm⟩ := List.exists_mem_of_length_pos (Nat.lt_of_lt_of_le Nat.two_pos hu.several)
    exact Table.flatten_ne_nil (List.mem_map_of_mem hm) (hself m hm ▸ List.mem_cons_self)
  have harises : Arises ((Table.unionOf (ms.map u.answer)).run t).2 := .step hs.arises (.operation (.unionOf _) hlt)
  have hsame : (∀ m ∈ ms, u.answer m = m) → t.Unequal (.union ms) →
      (Table.unionOf (ms.map u.answer)).run t = (id, t) := by
    intro hfix hapart
    rw [List.map_congr_left hfix, List.map_id']
    exact hg.toTidy.run_unionOf he (hapart ms rfl)
  have hrun : (Table.unionOf (ms.map u.answer)).run t =
    (Table.internUnion (t.flatten (ms.map u.answer))).run t := rfl
  have hjoin := hg.toTidy.joinable_flatten hlt
  have hapart := t.flatten_pairwise (ms.map u.answer)
  rw [hrun] at harises hsame ⊢
  generalize t.flatten (ms.map u.answer) = ns at *
  match ns, hne with
  | [w], _ =>
    -- a single member is left
    obtain ⟨m, hm, rfl⟩ := hmem w List.mem_cons_self
    obtain ⟨x, hx, -⟩ := hplain m hm
    refine ⟨u.answer m, t, rfl, hs.arises, .refl t, Nat.le_succ _,
      fun x hx hx' => absurd hx (Nat.not_le.mpr hx'), .member (.inr List.mem_cons_self) he hm (hs.becomes_answer m),
      Nat.ne_of_gt (Table.pos_of_get? hx), Table.lt_size_of_get? hx, .inl ⟨m, hm, rfl⟩, fun hfix hap => ?_⟩
    exact (Prod.mk.inj (hsame hfix hap)).1
  | n :: n' :: ns, _ =>
    have hunion : Table.IsUnion t (n :: n' :: ns) := by
      refine ⟨by simp, hjoin.increasing, fun x hx => ?_, hjoin.flat, fun hin => ?_⟩
      · exact Table.exists_get?_of_lt (hjoin.known x hx).1 (hjoin.known x hx).2
      · exact absurd (hjoin.absorbed hin) (by simp)
    obtain ⟨built, t', hintern, hlarge, hbuilt, hsize, honly⟩ := hg.run_intern (e := .union (n :: n' :: ns)) trivial
      (by rintro _ ⟨⟩; exact hunion) fun x hx => (hjoin.known x hx).2
    have hrun' : (Table.internUnion (n :: n' :: ns)).run t = (built, t') := hintern
    have hret : Retains t t' := ⟨fun hx => ⟨_, hlarge.get hx, rfl, fun _ => rfl⟩⟩
    rw [hrun'] at harises hsame
    choose! f hf using hmem
    refine ⟨built, t', hrun', harises, hlarge.rewrites, hsize, honly, ?_,
      Nat.ne_of_gt (Table.pos_of_get? hbuilt), Table.lt_size_of_get? hbuilt,
      .inr ⟨_, hbuilt, trivial, ?_, fun d hd => ⟨f d, hf d hd⟩⟩, fun hfix hap => (Prod.mk.inj (hsame hfix hap)).1⟩
    · refine .union f (.inr List.mem_cons_self) (hlarge.get he) hbuilt (fun a ha b hb hab => ?_)
        (fun w hw => (hf w hw).1) fun w hw => ?_
      · rw [(hf a ha).2, (hf b hb).2, hab]
      · have hw' := hs.becomes_answer (f w)
        rw [← (hf w hw).2] at hw'
        exact hw'.mono hret (List.Subset.refl _) fun _ hz => hz
    · rintro _ ⟨⟩
      refine hapart.imp_of_mem fun {a b} ha hb hab => ?_
      rw [hlarge.equal_eq hg.closed (hjoin.known a ha).2 (hjoin.known b hb).2]
      exact hab

theorem Remade.retains {built : TypeId} (h : Remade u L id e t t' built) : Retains t t' :=
  h.rewrites.retains

theorem Remade.size_le {built : TypeId} (h : Remade u L id e t t' built) : t.size ≤ t'.size :=
  h.rewrites.size_le

/-- **A type is made anew** from what stands for its components. -/
theorem exists_remade (hs : Sound t₀ (id :: L) t u) (he : t.get? id = some e) (hm : e.IsMade) :
    ∃ built t', (remake e (e.parts.map u.answer)).run t = (built, t') ∧ Remade u L id e t t' built := by
  rcases Table.Entry.IsMade.cases hm with ⟨k, c, hk, rfl⟩ | ⟨ms, rfl⟩
  · have hremake : remake (k c) ((k c).parts.map u.answer) = Table.intern (k (u.answer c)) := by
      rcases hk with rfl | rfl | rfl <;> rfl
    rw [hremake]
    exact remade_unary hs hk he
  · exact remade_union hs he

/-! ### Answers come to rest -/

/-- After a number of steps, what stands for the type stands for itself. -/
def Steady (u : Unifier) (n : Nat) (c : TypeId) : Prop :=
  u.answer (u.answer^[n] c) = u.answer^[n] c

theorem Steady.of_fixed (h : u.answer c = c) (n : Nat) : u.Steady n c := by
  rw [Steady, Function.iterate_fixed h, h]

theorem steady_succ {n : Nat} : u.Steady (n + 1) c ↔ u.Steady n (u.answer c) := by
  rw [Steady, Steady, Function.iterate_succ_apply]

/-- **Every type comes to rest** after as many steps as there were types at the begin. -/
theorem Sound.steady (h : Sound t₀ L t u) (c : TypeId) : u.Steady (t₀.size + 1) c := by
  -- the types that others stand for and that count less
  let later (c : TypeId) : Finset TypeId := (Finset.range t₀.size).filter fun x =>
    u.answer x ≠ x ∧ t.weight u.reps x < t.weight u.reps c
  have hless : ∀ c, u.answer (u.answer c) ≠ u.answer c →
      t.weight u.reps (u.answer c) < t.weight u.reps c := by
    intro c hne
    refine (h.weight_lt (h.becomes_answer c)).resolve_left fun heq => hne ?_
    rw [← heq, ← heq]
  have hmem : ∀ c, u.answer (u.answer c) ≠ u.answer c → u.answer c ∈ later c := by
    intro c hne
    refine Finset.mem_filter.mpr ⟨Finset.mem_range.mpr ?_, hne, hless c hne⟩
    cases hk : u.known? c with
    | none => exact absurd (by rw [answer_of_unknown hk, answer_of_unknown hk]) hne
    | some v =>
      rw [answer_of_known hk] at hne ⊢
      exact (h.early hk).resolve_left fun hr => hne (answer_of_known (h.rep v hr))
  have hmain : ∀ (n : Nat) (c : TypeId), (later c).card ≤ n → u.Steady (n + 1) c := by
    intro n
    induction n with
    | zero =>
      intro c hcard
      refine steady_succ.mpr (.of_fixed ?_ 0)
      by_contra hne
      exact Nat.not_lt.mpr hcard (Finset.card_pos.mpr ⟨_, hmem c hne⟩)
    | succ n ih =>
      intro c hcard
      refine steady_succ.mpr ?_
      by_cases hfix : u.answer (u.answer c) = u.answer c
      · exact .of_fixed hfix _
      · refine ih _ (Nat.le_of_lt_succ (Nat.lt_of_lt_of_le (Finset.card_lt_card ?_) hcard))
        refine (Finset.ssubset_iff_of_subset fun x hx => ?_).mpr ⟨_, hmem c hfix, fun hself => ?_⟩
        · obtain ⟨hlt, hne, hw⟩ := Finset.mem_filter.mp hx
          exact Finset.mem_filter.mpr ⟨hlt, hne, Nat.lt_trans hw (hless c hfix)⟩
        · exact Nat.lt_irrefl _ (Finset.mem_filter.mp hself).2.2
  exact hmain t₀.size c ((Finset.card_filter_le _ _).trans (Finset.card_range _).le)

/-! ### Single steps -/

/-- From the table `t` and the unifier `u` to later ones, with the types `vs` under visit. -/
structure Going (t₀ : Table) (L vs : List TypeId) (t : Table) (u : Unifier) (t' : Table) (u' : Unifier) :
    Prop where
  sound : Sound t₀ L t' u'
  covered : Covered t₀ L t' u'
  proceeds : Proceeds 0 t u t' u'
  visiting : u'.visiting = vs

/-- The type `c` was resolved, and `v` stands for it. -/
structure Resolved (t₀ : Table) (L vs : List TypeId) (t : Table) (u : Unifier) (c : TypeId) (t' : Table)
    (u' : Unifier) (v : TypeId) : Prop extends Going t₀ L vs t u t' u' where
  answered : u'.Answered c
  answer : v = u'.answer c

theorem runs_canonicalUpTo_of_answered (hc : u.Answered c) (fuel : Nat) :
    Runs t u (canonicalUpTo (fuel + 1) c).run (some (u.answer c)) u := by
  refine (runs_get t u).lift.bounded ?_
  cases hk : u.known? c with
  | some v =>
    rw [answer_of_known hk]
    rfl
  | none =>
    rw [answer_of_unknown hk]
    have hor : c = 0 ∨ c ∈ u.visiting := hc.imp_right fun hor => hor.resolve_left fun hne => hne hk
    simp only [if_pos hor]
    rfl

/-- A type that is seen for the first time is looked for, then resolved. -/
theorem ends_canonicalUpTo_of_new (fuel : Nat → Nat) {Q : Table → Unifier → TypeId → Prop} (hc : ¬ u.Answered c)
    (hfound : ∀ rep, u.find? t c = some rep → Q t (u.folded c rep) rep)
    (hnew : u.find? t c = none → Ends t u (fun k => resolve (canonicalUpTo (fuel k)) c) Q) :
    Ends t u (fun k => canonicalUpTo (fuel k + 1) c) Q := by
  refine .runs_bind (fun _ => (runs_get t u).lift) ?_
  obtain ⟨h0, hor⟩ := not_or.mp hc
  obtain ⟨hk, hv⟩ := not_or.mp hor
  rw [not_ne_iff.mp hk]
  simp only [if_neg (not_or.mpr ⟨h0, hv⟩)]
  refine .search_bind ?_
  cases hfind : u.find? t c with
  | some rep =>
    have hrun : Runs t u (fold c rep) rep (u.folded c rep) := rfl
    exact .of_runs (fun _ => hrun.lift) (hfound rep hfind)
  | none => exact hnew hfind

/-- What is found equals the type. -/
theorem equal_of_find? (h : u.find? t id = some c) : t.equal id c = true := by
  obtain ⟨p, hfind, rfl⟩ := Option.map_eq_some_iff.mp h
  have hboth := List.find?_some hfind
  simp only [Bool.and_eq_true] at hboth
  exact hboth.2

/-- A type for which a representative was found. -/
theorem Sound.found (h : Sound t₀ L t u) (hid : u.known? id = none) (h0 : id ≠ 0) (hL : id ∉ L)
    (hfind : u.find? t id = some c) : Sound t₀ L t ((u.left id).folded id c) := by
  have hrep := mem_reps_of_find? hfind
  have hself := h.rep c hrep
  have hne : c ≠ id := by
    rintro rfl
    exact absurd (hself.symm.trans hid) nofun
  -- equal types that are different are in the table and of one sort
  obtain ⟨x, y, hx, hy, hm⟩ := (t.simulation_similar id c (Table.equal_iff_similar.mp
    (equal_of_find? hfind))).resolve_left (Ne.symm hne)
  refine (h.left hid).folded h0 hL hne (.rep (.inr List.mem_cons_self) hrep ?_) ?_ (.inl hrep)
    (Table.lt_size_of_get? hy)
  · by_cases hunion : ∃ ms, t.get? id = some (.union ms)
    · exact .inl hunion
    · refine .inr ⟨y, hy, fun hk => hunion ?_⟩
      have hkx := hm.kind_eq.trans hk
      cases x with
      | union ms => exact ⟨ms, hx⟩
      | _ => exact absurd hkx nofun
  · refine .inl fun hnone => ?_
    have hknown : u.known? c = none := hnone
    exact absurd (hself.symm.trans hknown) nofun

/-- A type that stands for itself now, or is given up for one that was found. -/
theorem Sound.ends_foldOrChoose (h : Sound t₀ L t u) (hid : u.known? id = none) (h0 : id ≠ 0) (hL : id ∉ L) :
    Ends t (u.left id) (fun _ => foldOrChoose id) fun t' u' v => t' = t ∧ Sound t₀ L t u' ∧
      u'.visiting = (u.left id).visiting ∧ u.reps ⊆ u'.reps ∧ u'.known = (id, v) :: u.known := by
  refine .search_bind ?_
  have hfind' : (u.left id).find? t id = u.find? t id := rfl
  rw [hfind']
  cases hfind : u.find? t id with
  | some rep =>
    have hrun : Runs t (u.left id) (fold id rep) rep ((u.left id).folded id rep) := rfl
    exact .of_runs (fun _ => hrun.lift) ⟨rfl, h.found hid h0 hL hfind, rfl, List.Subset.refl _, rfl⟩
  | none =>
    have hrun : Runs t (u.left id) (choose id) id ((u.left id).withChosen (t.fingerprint id) id) := rfl
    refine .of_runs (fun _ => hrun.lift) ⟨rfl, h.chosen hid h0 hL _, rfl, ?_, rfl⟩
    have hreps : ((u.left id).withChosen (t.fingerprint id) id).reps = u.reps ++ [id] := by
      simp [Unifier.reps, Unifier.withChosen, Unifier.left]
    exact hreps ▸ List.subset_append_left _ _

/-! ### Making a type anew until it stays -/

/-- **No component becomes a type that was left**, and neither does what stands for it. -/
theorem Sound.answer_part_not_mem (h : Sound t₀ (id :: L) t u) (he : t.get? id = some e) (hd : e.IsDerived)
    (hL : ∀ l ∈ L, Becomes t u.reps (u.Gone (id :: L)) l id) (hc : c ∈ e.parts) : u.answer c ∉ id :: L := by
  have hle : ∀ l ∈ id :: L, t.weight u.reps id ≤ t.weight u.reps l := by
    refine List.forall_mem_cons.mpr ⟨Nat.le_refl _, fun l hl => ?_⟩
    rcases h.weight_lt (hL l hl) with rfl | hlt
    · exact Nat.le_refl _
    · exact Nat.le_of_lt hlt
  have hpart := h.arises.grounded.weight_part_lt (h.not_rep_of_gone (.inr List.mem_cons_self)) he hd hc
  have hanswer : t.weight u.reps (u.answer c) ≤ t.weight u.reps c := by
    rcases h.weight_lt (h.becomes_answer c) with heq | hlt
    · rw [← heq]
    · exact Nat.le_of_lt hlt
  intro hmem
  have := hle _ hmem
  omega

theorem known?_noted {v : TypeId} (hk : u'.known = (id, v) :: u.known) (x : TypeId) :
    u'.known? x = if id = x then some v else u.known? x := by
  have hcons := u.known?_cons id v x
  unfold known? at hcons ⊢
  rw [hk]
  exact hcons

/-- Once a type is known, it is not missing. -/
theorem Covered.noted (h : Covered t₀ (id :: L) t u) {v : TypeId} (hk : u'.known = (id, v) :: u.known) :
    Covered t₀ L t u' := by
  intro x hx hx'
  by_cases hxid : id = x
  · exact .inr (by rw [known?_noted hk, if_pos hxid]; exact nofun)
  · rcases h x hx hx' with hmem | hne
    · exact .inl ((List.mem_cons.mp hmem).resolve_left (Ne.symm hxid))
    · exact .inr (by rw [known?_noted hk, if_neg hxid]; exact hne)

/-- What follows when a type was made anew: it stands for itself or for what was found, or what was made is unified
and stands for it. -/
theorem Sound.ends_rest (h : Sound t₀ L t u) (hcov : Covered t₀ (id :: L) t u) (hid : u.known? id = none)
    (h0 : id ≠ 0) (hL : id ∉ L) {built : TypeId} (hr : Remade (u.left id) L id e t t' built)
    (canonical : Nat → TypeId → Bounded TypeId)
    (hrec : built ≠ id → Ends t' (u.left id) (fun k => canonical k built)
      (Resolved t₀ (id :: L) (u.left id).visiting t' (u.left id) built)) :
    Ends t' (u.left id) (fun k => if built = id then foldOrChoose id
      else do
        let rep ← canonical k built
        liftM (fold id rep))
      (Resolved t₀ L (u.left id).visiting t u id) := by
  have hmade : Proceeds 1 t u t' u := .of_table hr.retains hr.size_le hr.size u
  have hcov' : Covered t₀ (built :: id :: L) t' u := by
    intro x hx hx'
    rcases Nat.lt_or_ge x t.size with hlt | hge
    · exact (hcov x hx hlt).imp_left (List.mem_cons_of_mem _)
    · exact .inl (hr.only x hge hx' ▸ List.mem_cons_self)
  have hanswer : ∀ {w u'' : Unifier} {v : TypeId}, w.known = (id, v) :: u''.known → w.known? id = some v := by
    intro w u'' v hw
    rw [known?_noted hw, if_pos rfl]
  split
  · rename_i heq
    subst heq
    refine ((h.of_table hr.arises hr.retains hr.size_le).ends_foldOrChoose hid h0 hL).imp ?_
    rintro _ u'' v ⟨rfl, hs, hv, hreps, hk⟩
    refine ⟨⟨hs, Covered.noted (u := u) (fun x hx hx' => ?_) hk, hmade.noted hid hreps hk, hv⟩, ?_, ?_⟩
    · exact (hcov' x hx hx').imp_left fun hmem => by simpa using hmem
    · exact .inr (.inl (by rw [hanswer hk]; exact nofun))
    · rw [answer_of_known (hanswer hk)]
  · rename_i hne
    refine (hrec hne).bind fun v t'' u'' _ hres => ?_
    have hunknown := (hres.sound.pending id List.mem_cons_self).1
    -- what stands for the result stands for the type
    have hbuilt : Becomes t'' u''.reps (u''.Gone (id :: L)) id built := by
      refine hr.becomes.mono hres.proceeds.retains hres.proceeds.reps fun z hz => hz.imp_left ?_
      rintro ⟨w, hw, hwz⟩
      exact ⟨w, hres.proceeds.known? hw, hwz⟩
    have hbecomes : Becomes t'' u''.reps (u''.Gone (id :: L)) id v :=
      .trans hbuilt (hres.answer ▸ hres.sound.becomes_answer built)
    have hvid : v ≠ id := by
      intro heq
      rcases hres.sound.weight_lt hbuilt with hb | hlt
      · exact hne hb.symm
      · have hback := hres.sound.becomes_answer built
        rw [← hres.answer, heq] at hback
        rcases hres.sound.weight_lt hback with hb | hlt'
        · exact hne hb
        · exact Nat.lt_asymm hlt hlt'
    have hvalue : (u''.known? v ≠ none ∨ v ∈ u''.visiting ∨ v ∈ L) ∧ (v ∈ u''.reps ∨ v < t₀.size) ∧
        v < t''.size := by
      cases hk : u''.known? built with
      | some w =>
        obtain rfl : v = w := hres.answer.trans (answer_of_known hk)
        refine ⟨(hres.sound.settled hk).imp_right (Or.imp_right fun hmem => ?_), hres.sound.early hk, ?_⟩
        · exact (List.mem_cons.mp hmem).resolve_left hvid
        · rcases hres.sound.inside hk with heq | hlt
          · exact heq ▸ Nat.lt_of_lt_of_le hr.lt_size hres.proceeds.size_le
          · exact hlt
      | none =>
        obtain rfl : v = built := hres.answer.trans (answer_of_unknown hk)
        have hv : v ∈ u''.visiting := (hres.answered.resolve_left hr.ne_zero).resolve_left fun hne => hne hk
        obtain ⟨-, hlt⟩ := hres.sound.visited v hv
        exact ⟨.inr (.inl hv), .inr hlt, Nat.lt_of_lt_of_le hlt hres.sound.size_le⟩
    have hrun : Runs t'' u'' (fold id v) v (u''.folded id v) := rfl
    refine .of_runs (fun _ => hrun.lift) ⟨⟨?_, ?_, ?_, hres.visiting⟩, ?_, ?_⟩
    · exact hres.sound.folded h0 hL hvid hbecomes hvalue.1 hvalue.2.1 hvalue.2.2
    · exact hres.covered.noted rfl
    · have hleft : Proceeds 1 t u t' (u.left id) := hmade.of_eq rfl rfl
      exact (hleft.trans hres.proceeds).noted hunknown (List.Subset.refl _) rfl
    · exact .inr (.inl (by rw [known?_folded, if_pos rfl]; exact nofun))
    · rw [answer_of_known (by rw [known?_folded, if_pos rfl])]

/-- A type that is made anew is rebuilt from what stands for its components. -/
theorem ends_rebuild_made {canonical : Nat → TypeId → Bounded TypeId} {Q : Table → Unifier → TypeId → Prop}
    (he : t.get? id = some e) (hm : e.IsMade)
    (h : Ends t u (fun k => do let ds ← e.parts.mapM (canonical k); liftM (remake e ds)) Q) :
    Ends t u (fun k => rebuild (canonical k) id) Q := by
  refine .runs_bind (fun _ => (runs_types t u).lift) ?_
  rw [he]
  cases e with
  | union ms => exact h
  | pointer c | metaclass c | hierarchy c => simpa [Entry.parts, remake] using h
  | _ => exact hm.elim

/-- A type is visited while it is rebuilt. -/
theorem ends_resolve {canonical : Nat → TypeId → Bounded TypeId} {P Q : Table → Unifier → TypeId → Prop}
    (hrebuild : Ends t (u.entered id) (fun k => rebuild (canonical k) id) P)
    (hrest : ∀ t' u' built, P t' u' built → Ends t' (u'.left id) (fun k => if built = id then foldOrChoose id
      else do
        let rep ← canonical k built
        liftM (fold id rep)) Q) : Ends t u (fun k => resolve (canonical k) id) Q := by
  have hbegin : Runs t u (modify fun u => { u with visiting := id :: u.visiting } :
      Bounded PUnit).run (some ⟨⟩) (u.entered id) := rfl
  refine .runs_bind (fun _ => hbegin) (hrebuild.bind fun built t' u' _ hp => ?_)
  have hend : Runs t' u' (modify fun u => { u with visiting := u.visiting.filter (· ≠ id) } :
      Bounded PUnit).run (some ⟨⟩) (u'.left id) := rfl
  exact .runs_bind (fun _ => hend) (hrest t' u' built hp)

/-- Components that are answered for are replaced at once. -/
theorem runs_mapM_of_answered {cs : List TypeId} (hcs : ∀ c ∈ cs, u.Answered c) (fuel : Nat) :
    Runs t u (cs.mapM (canonicalUpTo (fuel + 1))).run (some (cs.map u.answer)) u := by
  induction cs with
  | nil => rfl
  | cons c cs ih =>
    obtain ⟨hc, hcs⟩ := List.forall_mem_cons.mp hcs
    rw [List.mapM_cons]
    exact (runs_canonicalUpTo_of_answered hc fuel).bounded ((ih hcs).bounded rfl)

/-- A type that is to be unified next: the types `L` became it, and its components, if it is not answered for, come
to rest after `n` steps. -/
structure Upcoming (t₀ : Table) (L : List TypeId) (n : Nat) (t : Table) (u : Unifier) (b : TypeId) : Prop where
  sound : Sound t₀ L t u
  covered : Covered t₀ (b :: L) t u
  became : ∀ l ∈ L, Becomes t u.reps (u.Gone L) l b ∧ l ≠ b
  ne_zero : b ≠ 0
  ready : u.Answered b ∨ ∃ e, t.get? b = some e ∧ e.IsMade ∧ t.Unequal e ∧
    ∀ c ∈ e.parts, u.Answered c ∧ u.Steady n c

/-- What was made of a type is next, and its components are closer to rest. -/
theorem Remade.upcoming {n : Nat} {built : TypeId} (hr : Remade u L id e t t' built) (h : Sound t₀ (id :: L) t u)
    (hcov : Covered t₀ (id :: L) t u) (he : t.get? id = some e) (hm : e.IsMade)
    (hL : ∀ l ∈ L, Becomes t u.reps (u.Gone (id :: L)) l id ∧ l ≠ id)
    (hparts : ∀ c ∈ e.parts, u.Answered c ∧ u.Steady (n + 1) c) (hne : built ≠ id) :
    Upcoming t₀ (id :: L) n t' u built := by
  have hs' : Sound t₀ (id :: L) t' u := h.of_table hr.arises hr.retains hr.size_le
  have hnext : ∀ c ∈ e.parts, u.Answered (u.answer c) ∧ u.Steady n (u.answer c) := fun c hc =>
    ⟨h.answered_answer (hparts c hc).1 (h.answer_part_not_mem he hm.isDerived (fun l hl => (hL l hl).1) hc),
      steady_succ.mp (hparts c hc).2⟩
  refine ⟨hs', fun x hx hx' => ?_, List.forall_mem_cons.mpr ⟨⟨hr.becomes, Ne.symm hne⟩, fun l hl => ?_⟩,
    hr.ne_zero, ?_⟩
  · rcases Nat.lt_or_ge x t.size with hlt | hge
    · exact (hcov x hx hlt).imp_left (List.mem_cons_of_mem _)
    · exact .inl (hr.only x hge hx' ▸ List.mem_cons_self)
  · have hl' := (hL l hl).1.mono hr.retains (List.Subset.refl _) fun _ hz => hz
    refine ⟨.trans hl' hr.becomes, ?_⟩
    -- the types became each other in turn, so each counts less than the one before
    rintro rfl
    have hlt := (hs'.weight_lt hl').resolve_left (hL l hl).2
    have hlt' := (hs'.weight_lt hr.becomes).resolve_left (Ne.symm hne)
    exact Nat.lt_asymm hlt hlt'
  · rcases hr.next with ⟨c, hc, rfl⟩ | ⟨e', he', hm', hapart, hparts'⟩
    · exact .inl (hnext c hc).1
    · refine .inr ⟨e', he', hm', hapart, fun d hd => ?_⟩
      obtain ⟨c, hc, rfl⟩ := hparts' d hd
      exact hnext c hc

/-- One step of it: what is made of the type is resolved, unless it is the type. -/
theorem Upcoming.ends_step {n : Nat} (h : Upcoming t₀ L n t u b) (fuel : Nat → Nat)
    (hrec : ∀ t' built, Upcoming t₀ (b :: L) (n - 1) t' u built → 0 < n →
      Ends t' u (fun k => canonicalUpTo (fuel k + 1) built) (Resolved t₀ (b :: L) u.visiting t' u built)) :
    Ends t u (fun k => canonicalUpTo (fuel k + 2) b) (Resolved t₀ L u.visiting t u b) := by
  have hbL : b ∉ L := fun hmem => (h.became b hmem).2 rfl
  by_cases ha : u.Answered b
  · refine .of_runs (fun k => runs_canonicalUpTo_of_answered ha (fuel k + 1))
      ⟨⟨h.sound, fun x hx hx' => ?_, .refl t u, rfl⟩, ha, rfl⟩
    rcases h.covered x hx hx' with hmem | hne
    · rcases List.mem_cons.mp hmem with rfl | hmem
      · refine .inr ((ha.resolve_left h.ne_zero).resolve_right fun hv => ?_)
        exact Nat.not_le.mpr (h.sound.visited x hv).2 hx
      · exact .inl hmem
    · exact .inr hne
  · obtain ⟨e, he, hm, hapart, hparts⟩ := h.ready.resolve_left ha
    obtain ⟨-, hor⟩ := not_or.mp ha
    obtain ⟨hk, hv⟩ := not_or.mp hor
    have hk : u.known? b = none := not_ne_iff.mp hk
    have hleft : u.left b = u := left_of_not_mem hv
    have hs : Sound t₀ (b :: L) t u := by
      have hs := h.sound.left hk
      rwa [hleft] at hs
    refine ends_canonicalUpTo_of_new _ ha (fun rep hfind => ?_) fun _ => ?_
    · have hs' := h.sound.found hk h.ne_zero hbL hfind
      rw [hleft] at hs'
      have hknown : (u.folded b rep).known? b = some rep := by rw [known?_folded, if_pos rfl]
      refine ⟨⟨hs', h.covered.noted rfl, ?_, rfl⟩, .inr (.inl (by rw [hknown]; exact nofun)), ?_⟩
      · exact ((Proceeds.refl t u).mono (Nat.zero_le 1)).noted hk (List.Subset.refl _) rfl
      · rw [answer_of_known hknown]
    · refine ends_resolve (P := fun t' u' built => u' = u.entered b ∧ Remade u L b e t t' built) ?_ ?_
      · refine ends_rebuild_made he hm ?_
        have hcs : ∀ c ∈ e.parts, (u.entered b).Answered c := fun c hc =>
          (hparts c hc).1.imp_right (Or.imp_right (List.mem_cons_of_mem _))
        obtain ⟨built, t', hrun, hr⟩ := exists_remade hs he hm
        exact .runs_bind (fun k => runs_mapM_of_answered hcs (fuel k)) (.onTable hrun hr.rewrites ⟨rfl, hr⟩)
      · rintro t' _ built ⟨rfl, hr⟩
        rw [left_entered hv]
        have hr' : Remade (u.left b) L b e t t' built := hleft.symm ▸ hr
        have hrest := h.sound.ends_rest h.covered hk h.ne_zero hbL hr' (fun k => canonicalUpTo (fuel k + 1)) fun hne => ?_
        · rwa [hleft] at hrest
        · rw [hleft]
          have hL : ∀ l ∈ L, Becomes t u.reps (u.Gone (b :: L)) l b ∧ l ≠ b := fun l hl =>
            ⟨(h.became l hl).1.mono (Retains.refl t) (List.Subset.refl _) fun z hz =>
              hz.imp_right (List.mem_cons_of_mem b), (h.became l hl).2⟩
          have hpos : 0 < n := by
            -- at rest the type itself would have been made
            refine Nat.pos_of_ne_zero fun hn => hne (hr.same (fun c hc => ?_) hapart)
            have hsteady := (hparts c hc).2
            rwa [hn] at hsteady
          refine hrec t' built (hr.upcoming hs h.covered he hm hL (fun c hc => ?_) hne) hpos
          rw [Nat.sub_add_cancel hpos]
          exact hparts c hc

/-- **A type whose components are answered for is resolved**, in as many steps as the components need to come to
rest. -/
theorem Upcoming.ends {n fuel : Nat} (h : Upcoming t₀ L n t u b) (hfuel : n + 2 ≤ fuel) :
    Ends t u (fun k => canonicalUpTo (k + fuel) b) (Resolved t₀ L u.visiting t u b) := by
  induction n generalizing fuel t u b L with
  | zero =>
    obtain ⟨fuel, rfl⟩ := Nat.exists_eq_add_of_le' hfuel
    exact h.ends_step (· + fuel) fun _ _ _ hpos => absurd hpos (Nat.lt_irrefl 0)
  | succ n ih =>
    obtain ⟨fuel, rfl⟩ := Nat.exists_eq_add_of_le' hfuel
    exact h.ends_step (· + (fuel + n + 1)) fun t' built hup _ => ih hup (Nat.le_add_left (n + 2) fuel)

end Unifier

end TypeFlow
