import Mathlib.Data.List.Sort
import TypeFlow.Overload.Resolution
import TypeFlow.Proofs.Overload.Comparison

/-!
# Candidates in the order of their specificity

A candidate is inserted before the first one that it is finer than, which leaves no candidate after one
that is less specific if finer candidates of finer ones are finer (`pairwise_orderedInsert`). Comparing
the restrictions of parameters that stand across from each other does not give this if the new candidate
has fewer parameters than both others, for then its restrictions say nothing about the rest of theirs.
So the candidates of a type stay sorted as long as none has fewer parameters than an earlier one
(`Table.Inferred.sorted_candidates`), and do not in general (`unsorted_candidates`). No candidate gets
lost or comes from elsewhere either way, on whatever table this is done, and the first match of a call is the
one of the first candidate that matches.
-/

namespace TypeFlow

/-! ### Where candidates come from -/

section

variable {α β ι : Type}

/-- Whatever table a computation is run on, its answer satisfies `Q`. -/
def Table.Answers (m : TableM α) (Q : α → Prop) : Prop :=
  ∀ t, Q (m.run t).1

namespace Table.Answers

theorem pure {a : α} {Q : α → Prop} (h : Q a) : Answers (pure a : TableM α) Q :=
  fun _ => h

theorem bind {m : TableM α} {k : α → TableM β} {P : α → Prop} {Q : β → Prop} (hm : Answers m P)
    (hk : ∀ a, P a → Answers (k a) Q) : Answers (m >>= k) Q :=
  fun t => hk _ (hm t) _

theorem after {m : TableM α} {k : α → TableM β} {Q : β → Prop} (hk : ∀ a, Answers (k a) Q) :
    Answers (m >>= k) Q :=
  fun _ => hk _ _

end Table.Answers

namespace Overload

open Table

variable (r : Resolver) {c : Candidate ι} {cs : List (Candidate ι)}

theorem mem_replaceSame {out : List (Candidate ι)} (h : replaceSame c cs = some out)
    {d : Candidate ι} (hd : d ∈ out) : d = c ∨ d ∈ cs := by
  induction cs generalizing out with
  | nil => cases h
  | cons x cs ih =>
    rw [replaceSame] at h
    split at h
    · obtain rfl := Option.some.inj h
      rcases List.mem_cons.mp hd with rfl | hd
      · exact .inl rfl
      · exact .inr (List.mem_cons_of_mem x hd)
    · obtain ⟨rest, hrest, rfl⟩ := Option.map_eq_some_iff.mp h
      rcases List.mem_cons.mp hd with rfl | hd
      · exact .inr List.mem_cons_self
      · exact (ih hrest hd).imp_right (List.mem_cons_of_mem x)

theorem answers_insertBefore :
    Answers (insertBefore r c cs) fun out => ∀ d ∈ out, d = c ∨ d ∈ cs := by
  induction cs with
  | nil => exact .pure fun d hd => .inl (List.mem_singleton.mp hd)
  | cons x cs ih =>
    have hskip : Answers (do return x :: (← insertBefore r c cs)) fun out =>
        ∀ d ∈ out, d = c ∨ d ∈ x :: cs := by
      refine ih.bind fun rest hrest => .pure fun d hd => ?_
      rcases List.mem_cons.mp hd with rfl | hd
      · exact .inr List.mem_cons_self
      · exact (hrest d hd).imp_right (List.mem_cons_of_mem x)
    refine .after fun more => ?_
    split
    · refine .after fun less => ?_
      split
      · exact hskip
      · exact .pure fun d hd => List.mem_cons.mp hd
    · exact hskip

/-- Inserting a candidate adds no other one. -/
theorem answers_insert : Answers (insert r cs c) fun out => ∀ d ∈ out, d = c ∨ d ∈ cs := by
  unfold insert
  split
  · rename_i out hout
    exact .pure fun d => mem_replaceSame hout
  · exact answers_insertBefore r

/-- Arguments that are narrowed stay as many. -/
theorem length_of_restrictArgs {receiver : TypeId} {args : List TypeId} {ps : List (Option TypeExpr)}
    {b : Bindings} {t : Table} {out : List TypeId}
    (h : (((restrictArgs r receiver args ps).run b).run t).1.1 = some out) : out.length = args.length := by
  induction args generalizing ps b t out with
  | nil =>
    cases ps <;> cases h <;> rfl
  | cons a args ih =>
    cases ps with
    | nil => cases h
    | cons p ps =>
      let first := ((restrictParam r receiver a p).run b).run t
      have hrun : ((restrictArgs r receiver (a :: args) (p :: ps)).run b).run t =
          (if first.1.1 = 0 then return none
            else return (← restrictArgs r receiver args ps).map (first.1.1 :: ·) :
              Matching (Option (List TypeId))).run first.1.2 first.2 := rfl
      rw [hrun] at h
      split at h
      · cases h
      · obtain ⟨rest, hrest, rfl⟩ := Option.map_eq_some_iff.mp h
        exact congrArg (· + 1) (ih hrest)

/-- A match is one of the candidate, with a type for each argument. -/
theorem answers_match (receiver : TypeId) (args : List TypeId) :
    Answers («match» r c receiver args) fun m => ∀ x ∈ m, x.candidate = c ∧ x.argTypes.length = args.length := by
  unfold «match»
  split
  · exact .pure fun x hx => nomatch hx
  · intro t x hx
    obtain ⟨args', hargs, rfl⟩ := Option.map_eq_some_iff.mp hx
    exact ⟨rfl, length_of_restrictArgs r hargs⟩

theorem answers_matching (onlyFirst : Bool) (receiver : TypeId) (args : List TypeId) :
    Answers (matching r onlyFirst receiver args cs) fun ms =>
      ∀ m ∈ ms, m.candidate ∈ cs ∧ m.argTypes.length = args.length := by
  induction cs with
  | nil => exact .pure fun m hm => nomatch hm
  | cons c cs ih =>
    refine (answers_match r receiver args).bind fun found hfound => ?_
    have hlater : ∀ {ms : List (Match ι)}, (∀ m ∈ ms, m.candidate ∈ cs ∧ m.argTypes.length = args.length) →
        ∀ m ∈ ms, m.candidate ∈ c :: cs ∧ m.argTypes.length = args.length :=
      fun h m hm => (h m hm).imp_left (List.mem_cons_of_mem c)
    cases found with
    | none => exact fun t => hlater (ih t)
    | some m =>
      obtain ⟨hsame, hlength⟩ := hfound m rfl
      have hm : m.candidate ∈ c :: cs ∧ m.argTypes.length = args.length := ⟨hsame ▸ List.mem_cons_self, hlength⟩
      simp only
      split
      · exact .pure fun x hx => List.mem_singleton.mp hx ▸ hm
      · refine ih.bind fun rest hrest => .pure fun x hx => ?_
        rcases List.mem_cons.mp hx with rfl | hx
        · exact hm
        · exact hlater hrest x hx

/-- Every match of a call is one of a candidate, with a type for each argument. -/
theorem answers_select (receiver : TypeId) (args : List TypeId) :
    Answers (select r cs receiver args) fun ms =>
      ∀ m ∈ ms.list, m.candidate ∈ cs ∧ m.argTypes.length = args.length := by
  refine .after fun t => (answers_matching r _ receiver args).bind fun list hlist => ?_
  split
  · exact .after fun _ => .pure hlist
  · exact .pure hlist

end Overload

end

namespace Overload

open Table

variable {ι : Type} {r : Resolver} {t t₁ T : Table} {owner : TypeId} {c : Candidate ι}
  {cs out : List (Candidate ι)}

/-- Inserts candidates one after the other. -/
def insertAll (r : Resolver) (cs out : List (Candidate ι)) : TableM (List (Candidate ι)) :=
  cs.foldlM (insert r) out

/-! ### No candidate gets lost -/

theorem kept_replaceSame (h : replaceSame c cs = some out) :
    c ∈ out ∧ ∀ d ∈ cs, d ∈ out ∨ sameRestrictions d.signature c.signature = true := by
  induction cs generalizing out with
  | nil => cases h
  | cons x cs ih =>
    rw [replaceSame] at h
    split at h
    · rename_i hsame
      obtain rfl := Option.some.inj h
      refine ⟨List.mem_cons_self, List.forall_mem_cons.mpr ⟨.inr hsame, fun d hd => ?_⟩⟩
      exact .inl (List.mem_cons_of_mem c hd)
    · obtain ⟨rest, hrest, rfl⟩ := Option.map_eq_some_iff.mp h
      obtain ⟨hc, hall⟩ := ih hrest
      refine ⟨List.mem_cons_of_mem x hc, List.forall_mem_cons.mpr ⟨.inl List.mem_cons_self, ?_⟩⟩
      exact fun d hd => (hall d hd).imp_left (List.mem_cons_of_mem x)

/-- A candidate is inserted before the first one that it is finer than. -/
theorem insertBefore_cons (c d : Candidate ι) (rest : List (Candidate ι)) :
    insertBefore r c (d :: rest) = (do
      if ← isFiner r c.signature d.signature then return c :: d :: rest
      else return d :: (← insertBefore r c rest)) := by
  rw [insertBefore, isFiner, bind_assoc]
  refine bind_congr fun more => ?_
  cases more
  · rfl
  · simp only [if_true, bind_assoc, pure_bind]
    refine bind_congr fun less => ?_
    cases less <;> rfl

theorem kept_insertBefore : Answers (insertBefore r c cs) fun out => c ∈ out ∧ ∀ d ∈ cs, d ∈ out := by
  induction cs with
  | nil => exact .pure ⟨List.mem_singleton_self c, nofun⟩
  | cons x cs ih =>
    rw [insertBefore_cons]
    refine .after fun finer => ?_
    split
    · exact .pure ⟨List.mem_cons_self, fun d hd => List.mem_cons_of_mem c hd⟩
    · refine ih.bind fun rest hrest => .pure ⟨List.mem_cons_of_mem x hrest.1, ?_⟩
      exact List.forall_mem_cons.mpr
        ⟨List.mem_cons_self, fun d hd => List.mem_cons_of_mem x (hrest.2 d hd)⟩

theorem kept_insert : Answers (insert r cs c) fun out =>
    c ∈ out ∧ ∀ d ∈ cs, d ∈ out ∨ sameRestrictions d.signature c.signature = true := by
  unfold insert
  split
  · rename_i out hout
    exact .pure (kept_replaceSame hout)
  · exact fun t => (kept_insertBefore t).imp_right fun h d hd => .inl (h d hd)

/-- A candidate is in the list unless a later one with the same restrictions took its place. -/
theorem kept_insertAll : Answers (insertAll r cs out) fun all =>
    (∀ d ∈ out, d ∈ all ∨ ∃ e ∈ cs, sameRestrictions d.signature e.signature = true) ∧
    ∀ before d after, cs = before ++ d :: after →
      d ∈ all ∨ ∃ e ∈ after, sameRestrictions d.signature e.signature = true := by
  induction cs generalizing out with
  | nil => exact .pure ⟨fun d hd => .inl hd, fun before d after h => by simp at h⟩
  | cons c cs ih =>
    rw [insertAll, List.foldlM_cons]
    refine kept_insert.bind fun out' hout t => ?_
    have hrest : Answers (insertAll r cs out') _ := ih
    obtain ⟨hold, hnew⟩ := hrest t
    refine ⟨fun d hd => ?_, fun before d after h => ?_⟩
    · rcases hout.2 d hd with hd | hsame
      · exact (hold d hd).imp_right fun ⟨e, he, hsame⟩ => ⟨e, List.mem_cons_of_mem c he, hsame⟩
      · exact .inr ⟨c, List.mem_cons_self, hsame⟩
    · cases before with
      | nil =>
        obtain ⟨rfl, rfl⟩ := List.cons.inj h
        exact hold c hout.1
      | cons b before =>
        obtain ⟨rfl, rfl⟩ := List.cons.inj h
        exact hnew before d after rfl

/-- Nothing else is in the list. -/
theorem answers_insertAll : Answers (insertAll r cs out) fun all => ∀ d ∈ all, d ∈ out ∨ d ∈ cs := by
  induction cs generalizing out with
  | nil => exact .pure fun d hd => .inl hd
  | cons c cs ih =>
    rw [insertAll, List.foldlM_cons]
    refine (answers_insert r).bind fun out' hout t d hd => ?_
    rcases ih t d hd with hd | hd
    · rcases hout d hd with rfl | hd
      · exact .inr List.mem_cons_self
      · exact .inl hd
    · exact .inr (List.mem_cons_of_mem c hd)

/-! ### Sorted insertion -/

/-- Inserting before the first element that is above leaves the others in order, if chains through the
new element compose. -/
theorem pairwise_orderedInsert {α : Type} {lt : α → α → Prop} [DecidableRel lt] {a : α} {l : List α}
    (h : l.Pairwise fun x y => ¬ lt y x) (hasymm : ∀ x, lt a x → ¬ lt x a)
    (htrans : ∀ x ∈ l, ∀ y ∈ l, lt x a → lt a y → lt x y) :
    (l.orderedInsert lt a).Pairwise fun x y => ¬ lt y x := by
  induction l with
  | nil => exact List.pairwise_singleton _ a
  | cons x l ih =>
    obtain ⟨hx, hl⟩ := List.pairwise_cons.mp h
    rw [List.orderedInsert]
    split
    · rename_i hax
      refine List.pairwise_cons.mpr ⟨List.forall_mem_cons.mpr ⟨hasymm x hax, fun y hy hya => ?_⟩, h⟩
      exact hx y hy (htrans y (List.mem_cons_of_mem x hy) x List.mem_cons_self hya hax)
    · rename_i hax
      have hrest := ih hl fun y hy z hz =>
        htrans y (List.mem_cons_of_mem x hy) z (List.mem_cons_of_mem x hz)
      refine List.pairwise_cons.mpr ⟨fun y hy => ?_, hrest⟩
      rcases (List.mem_orderedInsert lt).mp hy with rfl | hy
      · exact hax
      · exact hx y hy

/-- A candidate of a type that can be compared with others: its restrictions were read from texts and
resolved. -/
structure Comparable (r : Resolver) (owner : TypeId) (T : Table) (c : Candidate ι) : Prop where
  owned : c.signature.owner = owner
  clear : AllClear r owner T c.restrictions

theorem Comparable.resolved (h : Comparable r owner T c) : AllResolved r owner T c.restrictions :=
  fun a ha e he => (h.clear a ha e he).resolved

theorem Comparable.isRead (h : Comparable r owner T c) : c.signature.IsRead :=
  fun p hp e he => (h.clear p.2 (List.mem_map_of_mem hp) e he).read

/-- No candidate is finer than an earlier one. -/
def Sorted (r : Resolver) (owner : TypeId) (T : Table) (cs : List (Candidate ι)) : Prop :=
  (cs.map Candidate.restrictions).Pairwise fun as bs => ¬ finer r owner T bs as = true

theorem map_replaceSame (hc : c.signature.IsRead) (hcs : ∀ d ∈ cs, d.signature.IsRead)
    (h : replaceSame c cs = some out) :
    out.map Candidate.restrictions = cs.map Candidate.restrictions := by
  induction cs generalizing out with
  | nil => cases h
  | cons x cs ih =>
    obtain ⟨hx, hcs⟩ := List.forall_mem_cons.mp hcs
    rw [replaceSame] at h
    split at h
    · rename_i hsame
      obtain rfl := Option.some.inj h
      have hkey : x.restrictions = c.restrictions := (sameRestrictions_iff hx hc).mp hsame
      rw [List.map_cons, List.map_cons, hkey]
    · obtain ⟨rest, hrest, rfl⟩ := Option.map_eq_some_iff.mp h
      rw [List.map_cons, List.map_cons, ih hcs hrest]

theorem repeats_insertBefore (hr : r.Settled t) (howner : owner < t.size)
    (hc : c.signature.owner = owner) (hcs : ∀ d ∈ cs, d.signature.owner = owner) (h₁ : Later t t₁) :
    Repeats t₁ (insertBefore r c cs) fun _ _ => True := by
  induction cs generalizing t₁ with
  | nil => exact .pure fun _ _ => trivial
  | cons x cs ih =>
    obtain ⟨hx, hcs⟩ := List.forall_mem_cons.mp hcs
    rw [insertBefore_cons]
    refine (repeats_isFiner hr howner hc hx h₁).bind fun t₂ _ h₂ _ => ?_
    split
    · exact .pure fun _ _ => trivial
    · exact (ih hcs (h₁.trans h₂)).bind fun _ _ _ _ => .pure fun _ _ => trivial

/-- What is inserted on one table is inserted in the order of another one, on which the restrictions were
resolved afterwards. -/
theorem run_insertBefore (hr : r.Settled t) (howner : owner < t.size) (hc : Comparable r owner T c)
    (hcs : ∀ d ∈ cs, Comparable r owner T d) (h₁ : Later t t₁)
    (hT : Later ((insertBefore r c cs).run t₁).2 T) :
    ((insertBefore r c cs).run t₁).1.map Candidate.restrictions =
      (cs.map Candidate.restrictions).orderedInsert (fun as bs => finer r owner T as bs = true)
        c.restrictions := by
  induction cs generalizing t₁ with
  | nil => rfl
  | cons x cs ih =>
    obtain ⟨hx, hcs⟩ := List.forall_mem_cons.mp hcs
    have hself := Later.refl h₁.wellFormed h₁.linked
    have hfirst := Later.of_adds h₁.linked
      ((repeats_isFiner hr howner hc.owned hx.owned h₁).adds t₁ hself)
    have h₂ := h₁.trans hfirst
    rw [insertBefore_cons, run_bind] at hT ⊢
    rw [List.map_cons, List.orderedInsert]
    have hvalue : ∀ {T'}, Later ((isFiner r c.signature x.signature).run t₁).2 T' → Later T' T →
        ((isFiner r c.signature x.signature).run t₁).1 =
          finer r owner T c.restrictions x.restrictions := fun h h' =>
      run_isFiner hr howner hc.owned hx.owned h₁ (h.trans h') hc.resolved hx.resolved
    cases hfiner : ((isFiner r c.signature x.signature).run t₁).1 with
    | true =>
      simp only [hfiner, if_true] at hT hvalue ⊢
      rw [if_pos (hvalue (.refl h₂.wellFormed h₂.linked) hT).symm]
      rfl
    | false =>
      simp only [hfiner, Bool.false_eq_true, if_false] at hT hvalue ⊢
      have hrest := Later.of_adds h₂.linked ((repeats_insertBefore hr howner hc.owned
        (fun d hd => (hcs d hd).owned) h₂).adds _ (.refl h₂.wellFormed h₂.linked))
      rw [if_neg (by rw [← hvalue hrest hT]; exact Bool.false_ne_true)]
      exact congrArg (x.restrictions :: ·) (ih hcs h₂ hT)

theorem repeats_insert (hr : r.Settled t) (howner : owner < t.size)
    (hc : c.signature.owner = owner) (hcs : ∀ d ∈ cs, d.signature.owner = owner) (h₁ : Later t t₁) :
    Repeats t₁ (insert r cs c) fun _ _ => True := by
  unfold insert
  split
  · exact .pure fun _ _ => trivial
  · exact repeats_insertBefore hr howner hc hcs h₁

/-- **Inserting a candidate that has not fewer parameters than the others keeps the order.** -/
theorem sorted_insert (hr : r.Settled t) (howner : owner < t.size) (hp : T.PlainParents)
    (hc : Comparable r owner T c) (hcs : ∀ d ∈ cs, Comparable r owner T d) (h₁ : Later t t₁)
    (hT : Later ((insert r cs c).run t₁).2 T)
    (hlength : ∀ d ∈ cs, d.restrictions.length ≤ c.restrictions.length)
    (hsorted : Sorted r owner T cs) : Sorted r owner T ((insert r cs c).run t₁).1 := by
  unfold insert at hT ⊢
  split
  · rename_i out hout
    have hsame := map_replaceSame hc.isRead (fun d hd => (hcs d hd).isRead) hout
    rw [Sorted] at hsorted ⊢
    exact hsame ▸ hsorted
  · rename_i hnone
    simp only [hnone] at hT
    rw [Sorted, run_insertBefore hr howner hc hcs h₁ hT]
    refine pairwise_orderedInsert hsorted (fun bs hfiner => ?_) fun as has bs hbs hac hcb => ?_
    · rw [finer_asymm hfiner]
      exact Bool.false_ne_true
    · obtain ⟨d, hd, rfl⟩ := List.mem_map.mp has
      obtain ⟨e, he, rfl⟩ := List.mem_map.mp hbs
      exact finer_trans hT.wellFormed hT.linked hp (hcs d hd).clear hc.clear (hcs e he).clear
        (.inl (hlength d hd)) hac hcb

theorem later_insertAll (hr : r.Settled t) (howner : owner < t.size)
    (hcs : ∀ d ∈ cs, d.signature.owner = owner) (hout : ∀ d ∈ out, d.signature.owner = owner)
    (h₁ : Later t t₁) : Later t₁ ((insertAll r cs out).run t₁).2 := by
  induction cs generalizing out t₁ with
  | nil => exact .refl h₁.wellFormed h₁.linked
  | cons c cs ih =>
    obtain ⟨hc, hcs⟩ := List.forall_mem_cons.mp hcs
    have hfirst := Later.of_adds h₁.linked
      ((repeats_insert hr howner hc hout h₁).adds t₁ (.refl h₁.wellFormed h₁.linked))
    refine hfirst.trans (ih hcs (fun d hd => ?_) (h₁.trans hfirst))
    rcases answers_insert r t₁ d hd with rfl | hd
    · exact hc
    · exact hout d hd

/-- **The candidates stay in order** if none has fewer parameters than an earlier one. -/
theorem sorted_insertAll (hr : r.Settled t) (howner : owner < t.size) (hp : T.PlainParents)
    (hcs : ∀ d ∈ cs, Comparable r owner T d) (hout : ∀ d ∈ out, Comparable r owner T d)
    (h₁ : Later t t₁) (hT : Later ((insertAll r cs out).run t₁).2 T)
    (hlength : cs.Pairwise fun c d => c.restrictions.length ≤ d.restrictions.length)
    (hlonger : ∀ d ∈ out, ∀ c ∈ cs, d.restrictions.length ≤ c.restrictions.length)
    (hsorted : Sorted r owner T out) : Sorted r owner T ((insertAll r cs out).run t₁).1 := by
  induction cs generalizing out t₁ with
  | nil => exact hsorted
  | cons c cs ih =>
    obtain ⟨hc, hcs⟩ := List.forall_mem_cons.mp hcs
    obtain ⟨hshort, hlength⟩ := List.pairwise_cons.mp hlength
    have hmem : ∀ d ∈ ((insert r out c).run t₁).1, d = c ∨ d ∈ out := answers_insert r t₁
    have hfirst := Later.of_adds h₁.linked ((repeats_insert hr howner hc.owned
      (fun d hd => (hout d hd).owned) h₁).adds t₁ (.refl h₁.wellFormed h₁.linked))
    have h₂ := h₁.trans hfirst
    have hout' : ∀ d ∈ ((insert r out c).run t₁).1, Comparable r owner T d := by
      intro d hd
      rcases hmem d hd with rfl | hd
      · exact hc
      · exact hout d hd
    have hrest := later_insertAll hr howner (fun d hd => (hcs d hd).owned)
      (fun d hd => (hout' d hd).owned) h₂
    refine ih hcs hout' h₂ hT hlength (fun d hd e he => ?_) ?_
    · rcases hmem d hd with rfl | hd
      · exact hshort e he
      · exact hlonger d hd e (List.mem_cons_of_mem c he)
    · exact sorted_insert hr howner hp hc hout h₁ (hrest.trans hT)
        (fun d hd => hlonger d hd c List.mem_cons_self) hsorted

/-! ### No primitives are added -/

theorem addsNoPrimitive_insertBefore : AddsNoPrimitive (insertBefore r c cs) := by
  induction cs with
  | nil => exact .pure _
  | cons x cs ih =>
    rw [insertBefore_cons]
    refine (addsNoPrimitive_isFiner _ _).bind fun finer => ?_
    split
    · exact .pure _
    · exact ih.bind fun _ => .pure _

theorem addsNoPrimitive_insert : AddsNoPrimitive (insert r cs c) := by
  unfold insert
  split
  · exact .pure _
  · exact addsNoPrimitive_insertBefore

theorem addsNoPrimitive_insertAll : AddsNoPrimitive (insertAll r cs out) := by
  induction cs generalizing out with
  | nil => exact .pure _
  | cons c cs ih =>
    rw [insertAll, List.foldlM_cons]
    exact addsNoPrimitive_insert.bind fun _ => ih

/-! ### The first match -/

/-- Matches stand in the order of their candidates. -/
theorem sublist_matching {onlyFirst : Bool} {receiver : TypeId} {args : List TypeId} :
    Answers (matching r onlyFirst receiver args cs) fun ms => (ms.map Match.candidate).Sublist cs := by
  induction cs with
  | nil => exact .pure (.refl _)
  | cons c cs ih =>
    refine (answers_match r receiver args).bind fun found hfound => ?_
    cases found with
    | none => exact fun t => (ih t).cons c
    | some m =>
      obtain rfl : m.candidate = c := (hfound m rfl).1
      simp only
      split
      · exact .pure ((List.nil_sublist cs).cons_cons _)
      · exact ih.bind fun rest hrest => .pure (hrest.cons_cons _)

/-- To look for the first match only does not change which one is the first. -/
theorem run_matching_first (receiver : TypeId) (args : List TypeId) (t : Table) :
    ((matching r true receiver args cs).run t).1 =
      ((matching r false receiver args cs).run t).1.head?.toList := by
  induction cs generalizing t with
  | nil => rfl
  | cons c cs ih =>
    rw [matching, matching, run_bind, run_bind]
    cases ((«match» r c receiver args).run t).1 with
    | none => exact ih _
    | some m => rfl

/-- The first match of a call is the first one of all matches. -/
theorem head?_select (receiver : TypeId) (args : List TypeId) (t : Table) :
    ((select r cs receiver args).run t).1.list.head? =
      ((matching r false receiver args cs).run t).1.head? := by
  rw [select, run_get_bind]
  cases hseveral : args.any (isSeveral t) with
  | true => rfl
  | false =>
    change ((matching r true receiver args cs).run t).1.head? = _
    rw [run_matching_first]
    cases ((matching r false receiver args cs).run t).1 <;> rfl

/-! ### The order of all candidates -/

/-- On some later table all candidates of a type can be compared. -/
theorem exists_comparable (hr : r.Settled t) (howner : owner < t.size)
    (howned : ∀ c ∈ cs, c.signature.owner = owner) (hread : ∀ c ∈ cs, c.signature.IsRead)
    (h₁ : Later t t₁) (hp : t₁.PlainParents) :
    ∃ T, Later t₁ T ∧ T.PlainParents ∧ ∀ c ∈ cs, Comparable r owner T c := by
  obtain ⟨T, hT, hplain, hall⟩ := exists_resolved hr howner
    (cs.flatMap fun c => c.signature.params.filterMap Prod.snd) h₁ hp
  refine ⟨T, hT, hplain, fun c hc => ⟨howned c hc, fun a ha e he => ?_⟩⟩
  obtain ⟨p, hp, rfl⟩ := List.mem_map.mp ha
  refine ⟨hread c hc p hp e he, hall e ?_⟩
  exact List.mem_flatMap.mpr ⟨c, hc, List.mem_filterMap.mpr ⟨p, hp, he⟩⟩

/-- Of two candidates in the list, the later one is not found to be finer. -/
theorem not_isFiner_of_sublist (hr : r.Settled t) (howner : owner < t.size) (h₁ : Later t t₁)
    (howned : ∀ c ∈ cs, c.signature.owner = owner) (hread : ∀ c ∈ cs, c.signature.IsRead)
    (hlength : cs.Pairwise fun c d => c.signature.params.length ≤ d.signature.params.length)
    (hT : Later ((insertAll r cs []).run t₁).2 T) (hp : T.PlainParents) {a b : Candidate ι}
    (hab : [a, b].Sublist ((insertAll r cs []).run t₁).1) :
    ((isFiner r b.signature a.signature).run T).1 = false := by
  have hmem : ∀ d ∈ ((insertAll r cs []).run t₁).1, d ∈ cs := fun d hd =>
    (answers_insertAll t₁ d hd).resolve_left List.not_mem_nil
  have ha := howned a (hmem a (hab.subset (by simp)))
  have hb := howned b (hmem b (hab.subset (by simp)))
  have hlater := h₁.trans ((later_insertAll hr howner howned (by simp) h₁).trans hT)
  have hcompared := Later.of_adds hlater.linked ((repeats_isFiner hr howner hb ha hlater).adds T
    (.refl hlater.wellFormed hlater.linked))
  -- the order is the one on a table on which everything was resolved after the comparison
  obtain ⟨T', hT', hplain, hall⟩ := exists_comparable hr howner howned hread
    (hlater.trans hcompared) (hp.run (addsNoPrimitive_isFiner _ _) hcompared.grown)
  have hsorted : Sorted r owner T' ((insertAll r cs []).run t₁).1 := by
    refine sorted_insertAll hr howner hplain hall (by simp) h₁ (hT.trans (hcompared.trans hT')) ?_
      (by simp) List.Pairwise.nil
    exact hlength.imp fun {c d} h => by simpa [Candidate.restrictions] using h
  have hvalue : _ = finer r owner T' b.restrictions a.restrictions :=
    run_isFiner hr howner hb ha hlater hT' (hall b (hmem b (hab.subset (by simp)))).resolved
      (hall a (hmem a (hab.subset (by simp)))).resolved
  rw [hvalue, ← Bool.not_eq_true]
  exact List.pairwise_iff_forall_sublist.mp hsorted (hab.map Candidate.restrictions)

end Overload

open Overload in
/-- **Candidates stay sorted by their specificity**, if they are candidates of one type, none of which has
fewer parameters than an earlier one. On the table that inserting them leaves, and on every later one, no
candidate is finer than one that stands before it; every candidate is in the list unless a later one
with the same restrictions took its place; and of all the candidates that match a call none is finer than
that of the first match. -/
theorem Table.Inferred.sorted_candidates {t t' : Table} (h : Inferred t) (hp : t.PlainParents)
    {r : Resolver} (hr : r.Settled t) {owner : TypeId} (howner : owner < t.size) {ι : Type}
    {cs out : List (Candidate ι)} (howned : ∀ c ∈ cs, c.signature.owner = owner)
    (hread : ∀ c ∈ cs, c.signature.IsRead)
    (hlength : cs.Pairwise fun c d => c.signature.params.length ≤ d.signature.params.length)
    (hout : (insertAll r cs []).run t = (out, t')) :
    (Later t t' ∧ t'.PlainParents) ∧
    (∀ T, Later t' T → T.PlainParents →
      out.Pairwise fun c d => ((isFiner r d.signature c.signature).run T).1 = false) ∧
    (∀ before c after, cs = before ++ c :: after →
      c ∈ out ∨ ∃ d ∈ after, sameRestrictions c.signature d.signature = true) ∧
    ∀ receiver args t₁,
      ((select r out receiver args).run t₁).1.list.head? =
        ((matching r false receiver args out).run t₁).1.head? ∧
      ∀ first ∈ ((matching r false receiver args out).run t₁).1.head?,
        ∀ m ∈ ((matching r false receiver args out).run t₁).1, ∀ T, Later t' T → T.PlainParents →
          ((isFiner r m.candidate.signature first.candidate.signature).run T).1 = false := by
  obtain ⟨hwf, hl, -⟩ := h.invariants
  have hself := Later.refl hwf hl
  have hlater : Later t t' := by
    have hgrow : Later t ((insertAll r cs []).run t).2 :=
      later_insertAll hr howner howned (by simp) hself
    rwa [hout] at hgrow
  have hplain : t'.PlainParents := by
    have hadds : AddsNoPrimitive (insertAll r cs []) := addsNoPrimitive_insertAll
    have hkeep := hp.run hadds (hout ▸ hlater.grown)
    rwa [hout] at hkeep
  have hsublist : ∀ T, Later t' T → T.PlainParents → ∀ {a b : Candidate ι}, [a, b].Sublist out →
      ((isFiner r b.signature a.signature).run T).1 = false := by
    intro T hT hTp a b hab
    exact not_isFiner_of_sublist hr howner hself howned hread hlength (by rwa [hout]) hTp
      (by rwa [hout])
  have hmem : ∀ d ∈ out, d ∈ cs := by
    intro d hd
    have hfrom : ∀ d ∈ ((insertAll r cs []).run t).1, d ∈ [] ∨ d ∈ cs := answers_insertAll t
    exact (hfrom d (by rwa [hout])).resolve_left List.not_mem_nil
  have hkept : Answers (insertAll r cs []) _ := kept_insertAll
  have hkept := (hkept t).2
  rw [hout] at hkept
  refine ⟨⟨hlater, hplain⟩, fun T hT hTp => ?_, hkept, fun receiver args t₁ => ⟨?_, ?_⟩⟩
  · exact List.pairwise_iff_forall_sublist.mpr (hsublist T hT hTp)
  · exact head?_select receiver args t₁
  · intro first hfirst m hm T hT hTp
    have horder : (((matching r false receiver args out).run t₁).1.map Match.candidate).Sublist out :=
      sublist_matching t₁
    obtain ⟨rest, hms⟩ := List.head?_eq_some_iff.mp hfirst
    rw [hms] at hm horder
    rcases List.mem_cons.mp hm with rfl | hm
    · have hm' := hmem _ (horder.subset List.mem_cons_self)
      exact run_isFiner_self hr howner (howned _ hm') (hlater.trans hT)
    · refine hsublist T hT hTp (List.Sublist.trans ?_ horder)
      rw [List.map_cons]
      exact (List.singleton_sublist.mpr (List.mem_map_of_mem hm)).cons_cons _

namespace Overload

/-- A candidate whose parameters are restricted to types of these names. -/
def taking (label : String) (types : List String) : Candidate String where
  id := label
  signature := { owner := Builtin.object, params := types.map fun n => ("x", some (TypeExpr.ofName n)) }

theorem isRead_taking {label : String} {types : List String}
    (h : ∀ n ∈ types, n ∈ ["Object", "Value", "Bool", "Char"]) :
    (taking label types).signature.IsRead := by
  have hobject : TypeTerm.parse (Text.bytes "Object") = .ok (.named
      [[0x4F, 0x62, 0x6A, 0x65, 0x63, 0x74]] []) := by rw [Text.bytes_eq]; rfl
  have hvalue : TypeTerm.parse (Text.bytes "Value") = .ok (.named
      [[0x56, 0x61, 0x6C, 0x75, 0x65]] []) := by rw [Text.bytes_eq]; rfl
  have hbool : TypeTerm.parse (Text.bytes "Bool") = .ok (.named
      [[0x42, 0x6F, 0x6F, 0x6C]] []) := by rw [Text.bytes_eq]; rfl
  have hchar : TypeTerm.parse (Text.bytes "Char") = .ok (.named
      [[0x43, 0x68, 0x61, 0x72]] []) := by rw [Text.bytes_eq]; rfl
  have hread : ∀ n ∈ ["Object", "Value", "Bool", "Char"],
      TypeExpr.parse n = .ok (TypeExpr.ofName n) := by
    simp only [List.forall_mem_cons, TypeExpr.parse, hobject, hvalue, hbool, hchar]
    exact ⟨rfl, rfl, rfl, rfl, List.forall_mem_nil _⟩
  intro p hp e he
  obtain ⟨n, hn, rfl⟩ := List.mem_map.mp hp
  obtain rfl := Option.some.inj he
  exact ⟨n, hread n (h n hn)⟩

/-- Candidates for a value, for a truth value, and for any object and a character. -/
def rising : List (Candidate String) :=
  [taking "value" ["Value"], taking "bool" ["Bool"], taking "pair" ["Object", "Char"]]

theorem sorted_candidates_rising :
    Table.Inferred Table.initial ∧ Table.initial.PlainParents ∧
    Resolver.Settled Table.resolveType? Table.initial ∧
    ∃ out t', (insertAll Table.resolveType? rising []).run Table.initial = (out, t') ∧
      out.map Candidate.id = ["bool", "value", "pair"] ∧
      out.Pairwise (fun c d => ((isFiner Table.resolveType? d.signature c.signature).run t').1 = false) ∧
      ((matching Table.resolveType? false Builtin.object [Builtin.bool] out).run t').1.map
        (Candidate.id ∘ Match.candidate) = ["bool", "value", "pair"] ∧
      (((select Table.resolveType? out Builtin.object [Builtin.bool]).run t').1.list.head?).map
        (Candidate.id ∘ Match.candidate) = some "bool" := by
  have hplain : Table.initial.PlainParents := by decide +kernel
  have hsettled : Resolver.Settled Table.resolveType? Table.initial :=
    Table.wellFormed_initial.settled_resolveType? (by decide +kernel)
  have hread : ∀ c ∈ rising, c.signature.IsRead := by
    simp only [rising, List.forall_mem_cons]
    exact ⟨isRead_taking (by decide), isRead_taking (by decide), isRead_taking (by decide), nofun⟩
  obtain ⟨⟨hlater, hplain'⟩, hsorted, -, hfirst⟩ := Table.Inferred.initial.sorted_candidates hplain
    hsettled (show Builtin.object < Table.initial.size by decide) (by decide) hread (by decide) rfl
  refine ⟨.initial, hplain, hsettled, _, _, rfl, by decide +kernel,
    hsorted _ (.refl hlater.wellFormed hlater.linked) hplain', by decide +kernel, ?_⟩
  rw [(hfirst _ _ _).1]
  decide +kernel

/-- Candidates for any object and a truth value, for a truth value and a character, and for a value. -/
def falling : List (Candidate String) :=
  [taking "wide" ["Object", "Bool"], taking "narrow" ["Bool", "Char"], taking "short" ["Value"]]

/-- **The candidates do not stay sorted in general.** A candidate with one parameter is inserted before one
with two that it is finer than, past the candidate in between which is finer than it, and is then the
first match where that one matches. -/
theorem unsorted_candidates :
    ∃ out t', (insertAll Table.resolveType? falling []).run Table.initial = (out, t') ∧
      out.map Candidate.id = ["short", "wide", "narrow"] ∧
      ((isFiner Table.resolveType? (taking "narrow" ["Bool", "Char"]).signature
        (taking "short" ["Value"]).signature).run t').1 = true ∧
      ((matching Table.resolveType? false Builtin.object [Builtin.bool] out).run t').1.map
        (Candidate.id ∘ Match.candidate) = ["short", "wide", "narrow"] ∧
      (((select Table.resolveType? out Builtin.object [Builtin.bool]).run t').1.list.head?).map
        (Candidate.id ∘ Match.candidate) = some "short" :=
  ⟨_, _, rfl, by decide +kernel⟩

end Overload

end TypeFlow
