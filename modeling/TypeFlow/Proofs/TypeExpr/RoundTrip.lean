import TypeFlow.Proofs.Text.Utf8
import TypeFlow.Proofs.TypeExpr.Grammar

/-!
# Written types read back

What was read is read again from its written form, on bytes (`TypeTerm.parse_spelled`) and on texts
(`TypeExpr.parse_render`).

Going up the derivation of what was read, every part is shown to have a derivation of its written form
(`Derivable`): there, blanks stand only around `|` and after commas, and no `*` is left. On texts it is
needed as well that the names cut out of a text are texts (`Textual`), so that they keep their bytes.
-/

namespace TypeFlow

namespace TypeTerm

open Text (bytes ofBytes IsText AsciiFirst)

variable {ν μ : Type}

/-! ### The written form, part by part -/

/-- The bytes of a part. -/
def Piece.bytes (f : ν → List UInt8) : Piece ν → List UInt8
  | .name n => f n
  | .mark s => Text.bytes s

/-- The written form with the names spelled by `f`. -/
def spelled (f : ν → List UInt8) (t : TypeTerm ν) : List UInt8 :=
  t.pieces.flatMap (Piece.bytes f)

/-- What stands after the first of several types. -/
def spelledAfter (f : ν → List UInt8) (sep : List UInt8) (ts : List (TypeTerm ν)) : List UInt8 :=
  ts.flatMap fun t => sep ++ spelled f t

/-- Type arguments in their parentheses. -/
def spelledArgs (f : ν → List UInt8) : List (TypeTerm ν) → List UInt8
  | [] => []
  | t :: ts => 0x28 :: (spelled f t ++ spelledAfter f [0x2C, 0x20] ts ++ [0x29])

theorem bytes_join (ss : List String) : bytes (String.join ss) = ss.flatMap bytes := by
  have h : ∀ s : String, bytes (ss.foldl (· ++ ·) s) = bytes s ++ ss.flatMap bytes := by
    induction ss with
    | nil => simp
    | cons r ss ih =>
      intro s
      rw [List.foldl_cons, ih, Text.bytes_append, List.flatMap_cons, List.append_assoc]
  rw [String.join, h, Text.bytes_empty, List.nil_append]

theorem bytes_render (t : TypeExpr) : bytes t.render = spelled bytes t := by
  rw [TypeExpr.render, bytes_join, List.flatMap_map, spelled]
  congr 1
  funext p
  cases p <;> rfl

section Spelled

variable (f : ν → List UInt8)

theorem spelled_self : spelled f .self = selfBytes := by
  rw [spelled, pieces, List.flatMap_singleton, Piece.bytes, Text.bytes_eq]
  rfl

theorem flatMap_piecesSep (sep : String) (t : TypeTerm ν) (ts : List (TypeTerm ν)) :
    (piecesSep sep (t :: ts)).flatMap (Piece.bytes f) =
      spelled f t ++ spelledAfter f (bytes sep) ts := by
  induction ts generalizing t with
  | nil => simp [piecesSep, spelled, spelledAfter]
  | cons u ts ih =>
    rw [piecesSep, List.flatMap_append, List.flatMap_cons, ih, spelledAfter, spelledAfter,
      List.flatMap_cons, List.append_assoc]
    rfl

theorem spelled_union (t : TypeTerm ν) (ts : List (TypeTerm ν)) :
    spelled f (.union (t :: ts)) = spelled f t ++ spelledAfter f [0x20, 0x7C, 0x20] ts := by
  have hsep : bytes " | " = [0x20, 0x7C, 0x20] := by
    rw [Text.bytes_eq]
    rfl
  rw [spelled, pieces, flatMap_piecesSep, hsep]

theorem flatMap_intersperse (head : ν) (more : List ν) :
    ((((head :: more).map fun n => [Piece.name n]).intersperse [.mark "::"]).flatten).flatMap
      (Piece.bytes f) = f head ++ more.flatMap fun n => [0x3A, 0x3A] ++ f n := by
  have hsep : bytes "::" = [0x3A, 0x3A] := by
    rw [Text.bytes_eq]
    rfl
  induction more generalizing head with
  | nil => simp [Piece.bytes]
  | cons n more ih =>
    rw [List.map_cons, List.map_cons, List.intersperse_cons_cons, List.flatten_cons, List.flatten_cons,
      List.flatMap_append, List.flatMap_append, ← List.map_cons (f := fun n => [Piece.name n]), ih]
    simp [Piece.bytes, hsep]

theorem spelled_named (head : ν) (more : List ν) (args : List (TypeTerm ν)) :
    spelled f (.named (head :: more) args) =
      f head ++ ((more.flatMap fun n => [0x3A, 0x3A] ++ f n) ++ spelledArgs f args) := by
  have hopen : bytes "(" = [0x28] := by
    rw [Text.bytes_eq]
    rfl
  have hclose : bytes ")" = [0x29] := by
    rw [Text.bytes_eq]
    rfl
  have hsep : bytes ", " = [0x2C, 0x20] := by
    rw [Text.bytes_eq]
    rfl
  rw [spelled, pieces.eq_def]
  cases args with
  | nil => simp only [flatMap_intersperse, spelledArgs, List.append_nil]
  | cons a args =>
    simp only [List.flatMap_append, List.flatMap_cons, flatMap_intersperse, flatMap_piecesSep,
      Piece.bytes, hopen, hclose, hsep, spelledArgs, List.flatMap_nil, List.append_nil,
      List.append_assoc, List.cons_append, List.nil_append]

end Spelled

/-! ### The written form has a derivation -/

/-- Whether a type consists of alternatives. -/
def isUnion : TypeTerm ν → Bool
  | .union _ => true
  | _ => false

/-- The written form has a derivation, after any number of blanks. -/
structure Derivable (t : TypeTerm (List UInt8)) : Prop where
  term : t.isUnion = false → ∀ k, ∃ d : Term, d.tree = t ∧
    ∀ rest, d.text rest = blanks k (spelled id t ++ rest)
  union : ∀ k, ∃ u : Union, u.tree = t ∧ ∀ rest, u.text rest = blanks k (spelled id t ++ rest)

theorem exists_segments (more : List Segment) :
    ∃ gs : List Segment, gs.map (·.name.bytes) = more.map (·.name.bytes) ∧ ∀ rest,
      segmentsText gs rest = ((more.map (·.name.bytes)).flatMap fun n => [0x3A, 0x3A] ++ n) ++ rest := by
  induction more with
  | nil => exact ⟨[], rfl, fun rest => rfl⟩
  | cons g more ih =>
    obtain ⟨gs, hnames, htext⟩ := ih
    refine ⟨⟨0, 0, g.name⟩ :: gs, by rw [List.map_cons, List.map_cons, hnames], fun rest => ?_⟩
    change 0x3A :: 0x3A :: (g.name.bytes ++ segmentsText gs rest) = _
    rw [htext, List.map_cons, List.flatMap_cons]
    simp

theorem exists_alternatives {ts : List (TypeTerm (List UInt8))} (hts : ∀ t ∈ ts, Derivable t)
    (hflat : ∀ t ∈ ts, t.isUnion = false) :
    ∃ ds : Alternatives, ds.trees = ts ∧
      ∀ rest, ds.text rest = spelledAfter id [0x20, 0x7C, 0x20] ts ++ rest := by
  induction ts with
  | nil => exact ⟨.none, rfl, fun rest => rfl⟩
  | cons t ts ih =>
    obtain ⟨ht, hothers⟩ := List.forall_mem_cons.mp hts
    obtain ⟨htflat, hothersFlat⟩ := List.forall_mem_cons.mp hflat
    obtain ⟨ds, rfl, hmore⟩ := ih hothers hothersFlat
    obtain ⟨d, rfl, hterm⟩ := ht.term htflat 1
    refine ⟨.cons 1 d ds, rfl, fun rest => ?_⟩
    rw [Alternatives.text, hterm, hmore]
    simp [spelledAfter, blanks]

theorem exists_argumentList {t : TypeTerm (List UInt8)} {ts : List (TypeTerm (List UInt8))}
    (hts : ∀ u ∈ t :: ts, Derivable u) (k : Nat) :
    ∃ ds : ArgumentList, ds.trees = t :: ts ∧ ∀ rest, ds.text rest =
      blanks k (spelled id t ++ spelledAfter id [0x2C, 0x20] ts ++ 0x29 :: rest) := by
  induction ts generalizing t k with
  | nil =>
    obtain ⟨u, rfl, harg⟩ := (hts t List.mem_cons_self).union k
    refine ⟨.last u 0, rfl, fun rest => ?_⟩
    rw [ArgumentList.text, harg]
    simp [spelledAfter, blanks]
  | cons v ts ih =>
    obtain ⟨ht, hothers⟩ := List.forall_mem_cons.mp hts
    obtain ⟨ds, htrees, hmore⟩ := ih hothers 1
    obtain ⟨u, rfl, harg⟩ := ht.union k
    refine ⟨.cons u 0 ds, by rw [ArgumentList.trees, htrees], fun rest => ?_⟩
    rw [ArgumentList.text, harg, hmore]
    simp [spelledAfter, blanks]

/-- A type that is no union is derivable as soon as it is as a term. -/
theorem Derivable.of_term {t : TypeTerm (List UInt8)}
    (h : ∀ k, ∃ d : Term, d.tree = t ∧ ∀ rest, d.text rest = blanks k (spelled id t ++ rest)) :
    Derivable t := by
  refine ⟨fun _ => h, fun k => ?_⟩
  obtain ⟨d, rfl, htext⟩ := h k
  exact ⟨.of d .none, rfl, htext⟩

namespace Derivable

theorem self : Derivable .self := by
  refine .of_term fun k => ⟨.self k, rfl, fun rest => ?_⟩
  rw [Term.text, spelled_self]

theorem named {head : Ident} (hself : head.bytes ≠ selfBytes) (more : List Segment)
    {args : List (TypeTerm (List UInt8))} (hargs : ∀ t ∈ args, Derivable t) :
    Derivable (.named (head.bytes :: more.map (·.name.bytes)) args) := by
  refine .of_term fun k => ?_
  obtain ⟨gs, hnames, hsegments⟩ := exists_segments more
  rw [← hnames]
  let n : Qualified := ⟨k, head, hself, gs⟩
  cases args with
  | nil =>
    refine ⟨.named n .none [], rfl, fun rest => ?_⟩
    rw [spelled_named]
    change blanks k (head.bytes ++ segmentsText gs rest) = _
    rw [hsegments, hnames]
    simp [spelledArgs]
  | cons a args =>
    obtain ⟨ds, htrees, hlist⟩ := exists_argumentList hargs 0
    refine ⟨.named n (.list 0 ds) [], ?_, fun rest => ?_⟩
    · rw [Term.tree, Arguments.trees, htrees]
      rfl
    · rw [spelled_named]
      change blanks k (head.bytes ++ segmentsText gs (blanks 0 (0x28 :: ds.text rest))) = _
      rw [hsegments, hlist, hnames]
      simp [spelledArgs, blanks]

theorem alternatives {t u : TypeTerm (List UInt8)} {ts : List (TypeTerm (List UInt8))}
    (hts : ∀ v ∈ t :: u :: ts, Derivable v) (hflat : ∀ v ∈ t :: u :: ts, v.isUnion = false) :
    Derivable (.union (t :: u :: ts)) := by
  obtain ⟨ht, hothers⟩ := List.forall_mem_cons.mp hts
  obtain ⟨htflat, hothersFlat⟩ := List.forall_mem_cons.mp hflat
  refine ⟨nofun, fun k => ?_⟩
  obtain ⟨d, rfl, hterm⟩ := ht.term htflat k
  obtain ⟨ds, htrees, hmore⟩ := exists_alternatives hothers hothersFlat
  refine ⟨.of d ds, by rw [Union.tree, htrees], fun rest => ?_⟩
  rw [Union.text, hterm, hmore, spelled_union, List.append_assoc]

/-- Pointers are written as what they stand for. -/
theorem pointers {t : TypeTerm (List UInt8)} (ht : Derivable t) (hflat : t.isUnion = false)
    (ks : List Nat) :
    Derivable (TypeTerm.pointers t ks) ∧ (TypeTerm.pointers t ks).isUnion = false := by
  induction ks generalizing t with
  | nil => exact ⟨ht, hflat⟩
  | cons k ks ih =>
    let head : Ident := ⟨pointerBytes, List.cons_ne_nil _ _, List.all_eq_true.mp (by decide)⟩
    have hself : head.bytes ≠ selfBytes := by decide
    exact ih (named hself [] (List.forall_mem_singleton.mpr ht)) rfl

end Derivable

mutual

/-- **The written form of what was read has a derivation.** -/
theorem Union.derivable (u : Union) : Derivable u.tree := by
  match u with
  | .of first more =>
    obtain ⟨hfirst, hflat⟩ := first.derivable
    have hmore := more.derivable
    rw [Union.tree]
    split
    · exact hfirst
    · rename_i hne
      obtain ⟨t, ts, hts⟩ := List.exists_cons_of_ne_nil hne
      rw [hts] at hmore ⊢
      exact .alternatives (List.forall_mem_cons.mpr ⟨hfirst, fun v hv => (hmore v hv).1⟩)
        (List.forall_mem_cons.mpr ⟨hflat, fun v hv => (hmore v hv).2⟩)

theorem Alternatives.derivable (ts : Alternatives) :
    ∀ t ∈ ts.trees, Derivable t ∧ t.isUnion = false := by
  match ts with
  | .none => exact nofun
  | .cons _ t more => exact List.forall_mem_cons.mpr ⟨t.derivable, more.derivable⟩

theorem Term.derivable (t : Term) : Derivable t.tree ∧ t.tree.isUnion = false := by
  match t with
  | .self _ => exact ⟨.self, rfl⟩
  | .named n args ks => exact (Derivable.named n.ne_self n.more args.derivable).pointers rfl ks

theorem Arguments.derivable (args : Arguments) : ∀ t ∈ args.trees, Derivable t := by
  match args with
  | .none => exact nofun
  | .list _ list => exact list.derivable

theorem ArgumentList.derivable (args : ArgumentList) : ∀ t ∈ args.trees, Derivable t := by
  match args with
  | .last arg _ => exact List.forall_mem_singleton.mpr arg.derivable
  | .cons arg _ more => exact List.forall_mem_cons.mpr ⟨arg.derivable, more.derivable⟩

end

/-- What was read is read again from its written form. -/
theorem parse_spelled {s : List UInt8} {t : TypeTerm (List UInt8)} (h : parse s = .ok t) :
    parse (spelled id t) = .ok t := by
  obtain ⟨d, -, rfl⟩ := parse_sound h
  obtain ⟨u, htree, htext⟩ := d.union.derivable.union 0
  have hparse := parse_text ⟨u, 0⟩
  change parse (u.text []) = .ok u.tree at hparse
  rw [htext, List.append_nil, htree] at hparse
  exact hparse

/-! ### Names of texts -/

/-- A type whose names are texts. -/
inductive Textual : TypeTerm (List UInt8) → Prop
  | self : Textual .self
  | named {head : List UInt8} {more : List (List UInt8)} {args : List (TypeTerm (List UInt8))}
      (name : IsText head) (names : ∀ n ∈ more, IsText n) (textual : ∀ t ∈ args, Textual t) :
      Textual (.named (head :: more) args)
  | union {t : TypeTerm (List UInt8)} {ts : List (TypeTerm (List UInt8))}
      (textual : ∀ u ∈ t :: ts, Textual u) : Textual (.union (t :: ts))

theorem mapList_eq (f : ν → μ) (ts : List (TypeTerm ν)) : mapList f ts = ts.map (map f) := by
  induction ts with
  | nil => rfl
  | cons t ts ih => rw [mapList, ih, List.map_cons]

/-- Names that are texts keep their bytes. -/
theorem Textual.spelled_map {t : TypeTerm (List UInt8)} (h : Textual t) :
    spelled bytes (t.map ofBytes) = spelled id t := by
  have hafter : ∀ (sep : List UInt8) (ts : List (TypeTerm (List UInt8))),
      (∀ t ∈ ts, spelled bytes (t.map ofBytes) = spelled id t) →
      spelledAfter bytes sep (ts.map (map ofBytes)) = spelledAfter id sep ts := by
    intro sep ts hts
    rw [spelledAfter, spelledAfter, List.flatMap_map]
    exact List.flatMap_congr fun t ht => by rw [hts t ht]
  induction h with
  | self => rw [map, spelled_self, spelled_self]
  | @named head more args hhead hmore _ ih =>
    rw [map, List.map_cons, spelled_named, spelled_named, hhead.bytes_ofBytes, mapList_eq,
      List.flatMap_map]
    congr 2
    · exact List.flatMap_congr fun n hn => by rw [(hmore n hn).bytes_ofBytes]; rfl
    · cases args with
      | nil => rfl
      | cons a args =>
        obtain ⟨ha, hargs⟩ := List.forall_mem_cons.mp ih
        rw [List.map_cons, spelledArgs, spelledArgs, ha, hafter _ _ hargs]
  | union _ ih =>
    obtain ⟨ht, hts⟩ := List.forall_mem_cons.mp ih
    rw [map, mapList_eq, List.map_cons, spelled_union, spelled_union, ht, hafter _ _ hts]

theorem asciiFirst_cons {b : UInt8} (hb : b.toNat < 0x80) (s : List UInt8) : AsciiFirst (b :: s) := by
  rintro c ⟨⟩
  exact hb

theorem asciiFirst_token {b : UInt8} (hb : b.toNat < 0x80) (k : Nat) (s : List UInt8) :
    AsciiFirst (blanks k (b :: s)) := by
  cases k with
  | zero => exact asciiFirst_cons hb s
  | succ k => exact asciiFirst_cons (by decide) (blanks k (b :: s))

theorem isText_of_blanks {k : Nat} {s : List UInt8} (h : IsText (blanks k s)) : IsText s := by
  refine IsText.of_ascii_append (fun b hb => ?_) h
  rw [List.eq_of_mem_replicate hb]
  decide

theorem isText_of_token {k : Nat} {b : UInt8} {s : List UInt8} (hb : b.toNat < 0x80)
    (h : IsText (blanks k (b :: s))) : IsText s := by
  have hcons : IsText ([b] ++ s) := isText_of_blanks h
  refine hcons.of_ascii_append fun c hc => ?_
  rwa [List.mem_singleton.mp hc]

theorem Ident.isText (i : Ident) {k : Nat} {rest : List UInt8} (h : IsText (blanks k (i.bytes ++ rest)))
    (hrest : AsciiFirst rest) : IsText i.bytes ∧ IsText rest :=
  (isText_of_blanks h).cut hrest

theorem asciiFirst_starsText {rest : List UInt8} (h : AsciiFirst rest) (ks : List Nat) :
    AsciiFirst (starsText ks rest) := by
  cases ks with
  | nil => exact h
  | cons k ks => exact asciiFirst_token (by decide) k _

theorem isText_of_starsText {rest : List UInt8} {ks : List Nat} (h : IsText (starsText ks rest)) :
    IsText rest := by
  induction ks with
  | nil => exact h
  | cons k ks ih => exact ih (isText_of_token (by decide) h)

theorem asciiFirst_segmentsText {rest : List UInt8} (h : AsciiFirst rest) (gs : List Segment) :
    AsciiFirst (segmentsText gs rest) := by
  cases gs with
  | nil => exact h
  | cons g gs => exact asciiFirst_token (by decide) g.before _

theorem segments_isText {rest : List UInt8} {gs : List Segment} (h : IsText (segmentsText gs rest))
    (hrest : AsciiFirst rest) : (∀ n ∈ gs.map (·.name.bytes), IsText n) ∧ IsText rest := by
  induction gs with
  | nil => exact ⟨nofun, h⟩
  | cons g gs ih =>
    have hcolons : IsText ([0x3A, 0x3A] ++ blanks g.after (g.name.bytes ++ segmentsText gs rest)) :=
      isText_of_blanks h
    obtain ⟨hname, hmore⟩ := g.name.isText (hcolons.of_ascii_append (by simp))
      (asciiFirst_segmentsText hrest gs)
    obtain ⟨hnames, hend⟩ := ih hmore
    exact ⟨List.forall_mem_cons.mpr ⟨hname, hnames⟩, hend⟩

theorem isText_pointerBytes : IsText pointerBytes :=
  ⟨"Pointer", by rw [Text.bytes_eq]; rfl⟩

theorem Textual.pointers {t : TypeTerm (List UInt8)} (ht : Textual t) (ks : List Nat) :
    Textual (TypeTerm.pointers t ks) := by
  induction ks generalizing t with
  | nil => exact ht
  | cons k ks ih => exact ih (.named isText_pointerBytes nofun (List.forall_mem_singleton.mpr ht))

theorem Alternatives.asciiFirst {rest : List UInt8} (h : AsciiFirst rest) (ts : Alternatives) :
    AsciiFirst (ts.text rest) := by
  cases ts with
  | none => exact h
  | cons k t ts => exact asciiFirst_token (by decide) k _

theorem Arguments.asciiFirst {rest : List UInt8} (h : AsciiFirst rest) (args : Arguments) :
    AsciiFirst (args.text rest) := by
  cases args with
  | none => exact h
  | list k args => exact asciiFirst_token (by decide) k _

-- That a name is a text follows from what stands after it, hence `AsciiFirst` at the end.
mutual

theorem Union.textual (u : Union) {rest : List UInt8} (h : IsText (u.text rest))
    (hrest : AsciiFirst rest) : Textual u.tree ∧ IsText rest := by
  match u with
  | .of first more =>
    obtain ⟨hfirst, hmore⟩ := first.textual h (more.asciiFirst hrest)
    obtain ⟨halts, hend⟩ := more.textual hmore hrest
    refine ⟨?_, hend⟩
    rw [Union.tree]
    split
    · exact hfirst
    · exact .union (List.forall_mem_cons.mpr ⟨hfirst, halts⟩)

theorem Alternatives.textual (ts : Alternatives) {rest : List UInt8} (h : IsText (ts.text rest))
    (hrest : AsciiFirst rest) : (∀ t ∈ ts.trees, Textual t) ∧ IsText rest := by
  match ts with
  | .none => exact ⟨nofun, h⟩
  | .cons k t more =>
    obtain ⟨hterm, hmore⟩ := t.textual (isText_of_token (by decide) h) (more.asciiFirst hrest)
    obtain ⟨halts, hend⟩ := more.textual hmore hrest
    exact ⟨List.forall_mem_cons.mpr ⟨hterm, halts⟩, hend⟩

theorem Term.textual (t : Term) {rest : List UInt8} (h : IsText (t.text rest))
    (hrest : AsciiFirst rest) : Textual t.tree ∧ IsText rest := by
  match t with
  | .self k => exact ⟨.self, (isText_of_blanks h).of_ascii_append (by simp [selfBytes])⟩
  | .named n args ks =>
    have hstars := asciiFirst_starsText hrest ks
    have hargs := args.asciiFirst hstars
    obtain ⟨hhead, hmore⟩ := n.head.isText h (asciiFirst_segmentsText hargs n.more)
    obtain ⟨hnames, hlist⟩ := segments_isText hmore hargs
    obtain ⟨htextual, hend⟩ := args.textual hlist hstars
    exact ⟨Textual.pointers (.named hhead hnames htextual) ks, isText_of_starsText hend⟩

theorem Arguments.textual (args : Arguments) {rest : List UInt8} (h : IsText (args.text rest))
    (hrest : AsciiFirst rest) : (∀ t ∈ args.trees, Textual t) ∧ IsText rest := by
  match args with
  | .none => exact ⟨nofun, h⟩
  | .list k list => exact list.textual (isText_of_token (by decide) h) hrest

theorem ArgumentList.textual (args : ArgumentList) {rest : List UInt8} (h : IsText (args.text rest))
    (hrest : AsciiFirst rest) : (∀ t ∈ args.trees, Textual t) ∧ IsText rest := by
  match args with
  | .last arg k =>
    obtain ⟨harg, hend⟩ := arg.textual h (asciiFirst_token (by decide) k _)
    exact ⟨List.forall_mem_singleton.mpr harg, isText_of_token (by decide) hend⟩
  | .cons arg k more =>
    obtain ⟨harg, hmore⟩ := arg.textual h (asciiFirst_token (by decide) k _)
    obtain ⟨hargs, hend⟩ := more.textual (isText_of_token (by decide) hmore) hrest
    exact ⟨List.forall_mem_cons.mpr ⟨harg, hargs⟩, hend⟩

end

/-- The names of what is read from a text are texts. -/
theorem parse_textual {s : List UInt8} {t : TypeTerm (List UInt8)} (h : parse s = .ok t)
    (hs : IsText s) : Textual t := by
  obtain ⟨d, rfl, rfl⟩ := parse_sound h
  have hend : AsciiFirst (blanks d.after []) := by
    cases d.after with
    | zero => nofun
    | succ k => exact asciiFirst_cons (by decide) _
  exact (d.union.textual hs hend).1

end TypeTerm

/-- **A type that was read is read again from its written form.** -/
theorem TypeExpr.parse_render {s : String} {t : TypeExpr} (h : TypeExpr.parse s = .ok t) :
    TypeExpr.parse t.render = .ok t := by
  simp only [TypeExpr.parse] at h ⊢
  split at h
  · rename_i u hu
    obtain rfl := Except.ok.inj h
    have htextual := TypeTerm.parse_textual hu ⟨s, rfl⟩
    rw [TypeTerm.bytes_render, htextual.spelled_map, TypeTerm.parse_spelled hu]
  · exact absurd h nofun

end TypeFlow
