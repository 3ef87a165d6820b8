import TypeFlow.Proofs.Overload.Exact
import TypeFlow.Proofs.Overload.Specificity

/-!
# Candidates that are filed anew

A call on candidates with closed restrictions is accepted exactly if each combination of classes is taken by
one of them (`Table.Inferred.found_select_iff`), which leaves neither the order of the candidates nor the types
that were added in between a say. So the candidates of one type can be filed anew on another one from which the
same names are seen (`SameView`), in whatever order they come to stand there: as long as their restrictions are
those of the old ones, as far as there are arguments (`Refiles`), the same calls are accepted
(`Table.Inferred.found_refiled`).
-/

namespace TypeFlow

namespace Overload

open Table

variable {ι κ : Type} {r : Resolver} {t t₁ : Table} {a b owner : TypeId}

/-! ### Views -/

/-- From two types the same is seen: the same type as `self`, and the same types behind all names. -/
structure SameView (r : Resolver) (t : Table) (a b : TypeId) : Prop where
  self : t.selfType a = t.selfType b
  names : ∀ names, r t a names = r t b names

/-- A metaclass sees what its class sees. -/
theorem sameView_metaclass {M C : TypeId} (hM : t.get? M = some (.metaclass C)) {o : ObjectEntry}
    (hC : t.get? C = some (.object o)) : SameView resolveType? t M C := by
  have hself : t.selfType M = t.selfType C := by
    rw [selfType, selfType, hM, hC]
  have hname : ∀ names, t.resolveName? M names = t.resolveName? C names := by
    intro names
    simp only [resolveName?, hself]
  refine ⟨hself, fun names => ?_⟩
  rw [resolveType?, resolveType?, hname]

namespace SameView

theorem symm (h : SameView r t a b) : SameView r t b a :=
  ⟨h.self.symm, fun names => (h.names names).symm⟩

theorem closed (h : SameView r t a b) {e : TypeExpr} (he : Closed r t a e) : Closed r t b e := by
  induction he with
  | self => exact .self
  | name hknown => exact .name (h.names _ ▸ hknown)
  | union _ ih => exact .union ih

theorem accepts_iff (h : SameView r t a b) {e : TypeExpr} (he : Closed r t a e) {c : TypeId} :
    Accepts r t a e c ↔ Accepts r t b e c := by
  induction he with
  | self => rw [Accepts, Accepts, h.self]
  | name _ => rw [Accepts, Accepts, h.names]
  | union _ ih =>
    rw [Accepts, Accepts, acceptsAny_iff, acceptsAny_iff]
    exact exists_congr fun e => and_congr_right fun he => ih e he

theorem takes_iff (h : SameView r t a b) {params : List (Option TypeExpr)}
    (hp : ∀ e, some e ∈ params → Closed r t a e) {xs : List TypeId} :
    Takes r t a params xs ↔ Takes r t b params xs := by
  induction params generalizing xs with
  | nil => cases xs <;> rfl
  | cons e params ih =>
    cases xs with
    | nil => rfl
    | cons x xs =>
      refine and_congr ?_ (ih fun d hd => hp d (List.mem_cons_of_mem _ hd))
      cases e with
      | none => rfl
      | some e => exact h.accepts_iff (hp e List.mem_cons_self)

end SameView

/-! ### What is taken -/

/-- Parameters beyond the arguments do not count. -/
theorem takes_take_iff {params : List (Option TypeExpr)} {xs : List TypeId} :
    Takes r t owner (params.take xs.length) xs ↔ Takes r t owner params xs := by
  induction xs generalizing params with
  | nil => simp [Takes]
  | cons x xs ih =>
    cases params with
    | nil => rfl
    | cons e params => exact and_congr_right fun _ => ih

/-- Parameters without restrictions take as many arguments as there are. -/
theorem takes_free {n : Nat} {xs : List TypeId} (h : xs.length ≤ n) :
    Takes r t owner (List.replicate n none) xs := by
  induction xs generalizing n with
  | nil => simp [Takes]
  | cons x xs ih =>
    cases n with
    | zero => exact absurd h (by simp)
    | succ n => exact ⟨trivial, ih (Nat.le_of_succ_le_succ h)⟩

/-- A type of which nothing is several classes at once is its only class. -/
theorem single_of_not_isSeveral {id : TypeId} (hne : id ≠ 0) (hid : id < t.size)
    (h : ¬ isSeveral t id = true) : Single t id := by
  rw [isSeveral_iff, not_or] at h
  exact ⟨hne, hid, not_exists.mp h.1, not_exists.mp h.2⟩

/-- Arguments that are single classes have one combination: themselves. -/
theorem product_single {args : List TypeId} (h : ∀ x ∈ args, Single t x) :
    product (args.map t.concrete) = [args] := by
  induction args with
  | nil => rfl
  | cons x args ih =>
    rw [List.map_cons, product, (h x List.mem_cons_self).concrete_eq,
      ih fun d hd => h d (List.mem_cons_of_mem _ hd)]
    rfl

/-! ### Filing anew -/

/-- Candidates have the restrictions of others for the first `n` parameters, and no others. -/
def Refiles (n : Nat) (out : List (Candidate ι)) (cs : List (Candidate κ)) : Prop :=
  ∀ ps, (∃ d ∈ out, d.restrictions = ps) ↔ ∃ c ∈ cs, c.restrictions.take n = ps

theorem Refiles.exists_takes_iff {n : Nat} {out : List (Candidate ι)} {cs : List (Candidate κ)}
    (h : Refiles n out cs) {xs : List TypeId} (hxs : xs.length = n) :
    (∃ d ∈ out, Takes r t owner d.restrictions xs) ↔ ∃ c ∈ cs, Takes r t owner c.restrictions xs := by
  subst hxs
  constructor
  · rintro ⟨d, hd, htakes⟩
    obtain ⟨c, hc, hsame⟩ := (h _).mp ⟨d, hd, rfl⟩
    exact ⟨c, hc, takes_take_iff.mp (hsame ▸ htakes)⟩
  · rintro ⟨c, hc, htakes⟩
    obtain ⟨d, hd, hsame⟩ := (h _).mpr ⟨c, hc, rfl⟩
    exact ⟨d, hd, hsame ▸ takes_take_iff.mpr htakes⟩

/-- What holds of the restrictions of the old candidates holds of those of the new ones. -/
theorem Refiles.forall_restrictions {n : Nat} {out : List (Candidate ι)} {cs : List (Candidate κ)}
    (h : Refiles n out cs) {P : Option TypeExpr → Prop} (hcs : ∀ c ∈ cs, ∀ e ∈ c.restrictions, P e) :
    ∀ d ∈ out, ∀ e ∈ d.restrictions, P e := by
  intro d hd e he
  obtain ⟨c, hc, hsame⟩ := (h _).mp ⟨d, hd, rfl⟩
  rw [← hsame] at he
  exact hcs c hc e (List.mem_of_mem_take he)

/-- The restrictions after a candidate was inserted. -/
theorem restrictions_insert {c : Candidate ι} {cs : List (Candidate ι)} (hc : c.signature.IsRead)
    (hcs : ∀ d ∈ cs, d.signature.IsRead) : Answers (insert r cs c) fun out =>
      ∀ ps, (∃ d ∈ out, d.restrictions = ps) ↔ c.restrictions = ps ∨ ∃ d ∈ cs, d.restrictions = ps := by
  intro t ps
  have hinsert : Answers (insert r cs c) _ := kept_insert
  obtain ⟨hmem, hkept⟩ := hinsert t
  constructor
  · rintro ⟨d, hd, rfl⟩
    rcases answers_insert r t d hd with rfl | hd
    · exact .inl rfl
    · exact .inr ⟨d, hd, rfl⟩
  · rintro (rfl | ⟨d, hd, rfl⟩)
    · exact ⟨c, hmem, rfl⟩
    · rcases hkept d hd with hin | hsame
      · exact ⟨d, hin, rfl⟩
      · exact ⟨c, hmem, ((sameRestrictions_iff (hcs d hd) hc).mp hsame).symm⟩

/-- Another candidate is filed anew. -/
theorem Refiles.insert {n : Nat} {out done : List (Candidate ι)} {d c : Candidate ι}
    (h : Refiles n out done) (hsame : d.restrictions = c.restrictions.take n) (hd : d.signature.IsRead)
    (hout : ∀ e ∈ out, e.signature.IsRead) :
    Answers (Overload.insert r out d) fun out => Refiles n out (done ++ [c]) := by
  intro t ps
  rw [restrictions_insert hd hout t ps, h ps, hsame]
  simp only [List.mem_append, List.mem_singleton, or_and_right, exists_or, exists_eq_left]
  exact or_comm

end Overload

open Table Overload

/-- **A call on closed candidates is accepted exactly if every combination of classes is taken** by one of them. -/
theorem Table.Inferred.found_select_iff {ι : Type} {r : Resolver} {t t₁ : Table} (h : Inferred t)
    (hr : r.Settled t) {cs : List (Candidate ι)} {receiver : TypeId} (hreceiver : receiver < t.size)
    (hcs : ∀ c ∈ cs, ∀ e, some e ∈ c.restrictions → Closed r t receiver e) {args : List TypeId}
    (hargs : ∀ a ∈ args, a ≠ 0 ∧ a < t.size) (h₁ : Later t t₁) :
    ((select r cs receiver args).run t₁).1.found = true ↔
      ∀ xs ∈ product (args.map t.concrete), ∃ c ∈ cs, Takes r t receiver c.restrictions xs := by
  obtain ⟨hwf, hl, hs⟩ := h.invariants
  by_cases hseveral : ∃ a ∈ args, isSeveral t a = true
  · obtain ⟨cover, P, hcover, hdims, hrecords, hP, hlist⟩ := (adds_select_several hs hwf hl hr hreceiver hcs
      (fun a ha => (hargs a ha).2) hseveral h₁).2.2
    have hall : cover.all = true ↔ ∀ xs ∈ product (args.map t.concrete), P xs = true := by
      rw [hrecords.all_eq, hdims, List.all_eq_true]
    have htakes : (∀ xs ∈ product (args.map t.concrete), P xs = true) ↔
        ∀ xs ∈ product (args.map t.concrete), ∃ c ∈ cs, Takes r t receiver c.restrictions xs :=
      forall_congr' fun xs => forall_congr' fun hxs => hP xs hxs
    have hproduct : product (args.map t.concrete) ≠ [] := by
      refine product_ne_nil fun dim hdim => ?_
      obtain ⟨a, ha, rfl⟩ := List.mem_map.mp hdim
      exact mt (hwf.concrete_eq_nil_iff hl).mp (hargs a ha).1
    obtain ⟨ys, hys⟩ := List.exists_mem_of_ne_nil _ hproduct
    rw [Matches.found_of_cover hcover, hall, ← htakes]
    exact and_iff_right_of_imp fun hcovered => hlist ys hys (hcovered ys hys)
  · have hsingle : ∀ a ∈ args, Single t a := fun a ha =>
      single_of_not_isSeveral (hargs a ha).1 (hargs a ha).2 fun hsev => hseveral ⟨a, ha, hsev⟩
    obtain ⟨hcover, hlist⟩ := (adds_select_single hs hwf hl hr hreceiver hcs hsingle h₁).2.2
    rw [Matches.found_of_no_cover hcover, hlist, product_single hsingle]
    simp

/-- **Candidates that are filed anew accept what the old ones accept.** -/
theorem Table.Inferred.found_refiled {ι κ : Type} {r : Resolver} {t t₁ t₂ : Table} (h : Inferred t)
    (hr : r.Settled t) {a b : TypeId} (ha : a < t.size) (hb : b < t.size) (hview : SameView r t a b)
    {out : List (Candidate ι)} {cs : List (Candidate κ)} {args : List TypeId}
    (hfiled : Refiles args.length out cs)
    (hcs : ∀ c ∈ cs, ∀ e, some e ∈ c.restrictions → Closed r t b e)
    (hargs : ∀ x ∈ args, x ≠ 0 ∧ x < t.size) (h₁ : Later t t₁) (h₂ : Later t t₂) :
    ((select r out a args).run t₁).1.found = ((select r cs b args).run t₂).1.found := by
  have hout : ∀ d ∈ out, ∀ e, some e ∈ d.restrictions → Closed r t a e := by
    intro d hd e he
    have hclosed : ∀ d ∈ out, ∀ x ∈ d.restrictions, ∀ e, x = some e → Closed r t a e :=
      hfiled.forall_restrictions (P := fun x => ∀ e, x = some e → Closed r t a e)
        fun c hc x hx e hxe => hview.symm.closed (hcs c hc e (hxe ▸ hx))
    exact hclosed d hd _ he e rfl
  rw [Bool.eq_iff_iff, h.found_select_iff hr ha hout hargs h₁, h.found_select_iff hr hb hcs hargs h₂]
  refine forall_congr' fun xs => forall_congr' fun hxs => ?_
  have hlength : xs.length = args.length := by simpa using (mem_product.mp hxs).length_eq
  rw [hfiled.exists_takes_iff hlength]
  exact exists_congr fun c => and_congr_right fun hc =>
    hview.takes_iff fun e he => hview.symm.closed (hcs c hc e he)

end TypeFlow
