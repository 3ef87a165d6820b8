import Mathlib.Data.List.Basic
import Mathlib.Data.List.TakeWhile
import TypeFlow.TypeExpr.Parser

/-!
# The grammar of written types

The derivations of the grammar are data: one type of trees for each rule, with the names that stand in
it and the number of blanks before each token. A tree derives a text and means a type.

`parse_iff`: the texts that are read are those that a tree derives, and are read as what the tree means;
no text has two derivations, and any other text is refused. Reading is sound down the fuel
(`union?_sound`) and complete up the tree (`Union.read`), for which the fuel is counted in bytes, three
for each. What stands after a tree must not be taken for a part of it, which `Follows` states by the first
byte that is not blank; from this, too, a text determines the tree (`Union.eq_of_text`).
-/

namespace TypeFlow

theorem bind_eq_ok {ε α β : Type} {x : Except ε α} {f : α → Except ε β} {b : β} :
    x >>= f = .ok b ↔ ∃ a, x = .ok a ∧ f a = .ok b := by
  cases x with
  | error e => exact ⟨nofun, nofun⟩
  | ok a => exact ⟨fun h => ⟨a, rfl, h⟩, fun ⟨_, ha, h⟩ => Except.ok.inj ha ▸ h⟩

namespace TypeTerm

/-! ### Derivations -/

/-- One or more bytes that may stand in a name. -/
@[ext]
structure Ident where
  bytes : List UInt8
  ne_nil : bytes ≠ []
  nameByte : ∀ b ∈ bytes, nameByte b = true

/-- The bytes of `self`, which are no name only where they stand first. -/
def Ident.self : Ident :=
  ⟨selfBytes, List.cons_ne_nil _ _, List.all_eq_true.mp (by decide)⟩

/-- A further segment of a name, with the blanks before `::` and after it. -/
structure Segment where
  before : Nat
  after : Nat
  name : Ident

/-- A name, segment by segment. As its first segment, `self` would be no name. -/
structure Qualified where
  before : Nat
  head : Ident
  ne_self : head.bytes ≠ selfBytes
  more : List Segment

mutual

/-- union = term (`|` term)* -/
inductive Union where
  | of (first : Term) (more : Alternatives)

/-- Alternatives, each with the blanks before its `|`. -/
inductive Alternatives where
  | none
  | cons (before : Nat) (term : Term) (more : Alternatives)

/-- term = `self` | name arguments `*`*, with the blanks before each `*`. -/
inductive Term where
  | self (before : Nat)
  | named (name : Qualified) (args : Arguments) (stars : List Nat)

/-- arguments = [`(` list], with the blanks before `(`. -/
inductive Arguments where
  | none
  | list (before : Nat) (list : ArgumentList)

/-- list = union (`,` union)* `)`, with the blanks before `,` and `)`. -/
inductive ArgumentList where
  | last (arg : Union) (before : Nat)
  | cons (arg : Union) (before : Nat) (more : ArgumentList)

end

/-! ### What is derived

Texts are given with what stands after them. -/

/-- A number of blanks. -/
def blanks (n : Nat) (rest : List UInt8) : List UInt8 :=
  List.replicate n 0x20 ++ rest

/-- The text of a segment. -/
def Segment.text (g : Segment) (rest : List UInt8) : List UInt8 :=
  blanks g.before (0x3A :: 0x3A :: blanks g.after (g.name.bytes ++ rest))

/-- The text of several segments. -/
def segmentsText (gs : List Segment) (rest : List UInt8) : List UInt8 :=
  gs.foldr Segment.text rest

/-- The text of a name. -/
def Qualified.text (n : Qualified) (rest : List UInt8) : List UInt8 :=
  blanks n.before (n.head.bytes ++ segmentsText n.more rest)

/-- The text of several `*`. -/
def starsText (ks : List Nat) (rest : List UInt8) : List UInt8 :=
  ks.foldr (fun k rest => blanks k (0x2A :: rest)) rest

mutual

def Union.text : Union → List UInt8 → List UInt8
  | .of first more, rest => first.text (more.text rest)

def Alternatives.text : Alternatives → List UInt8 → List UInt8
  | .none, rest => rest
  | .cons k t more, rest => blanks k (0x7C :: t.text (more.text rest))

def Term.text : Term → List UInt8 → List UInt8
  | .self k, rest => blanks k (selfBytes ++ rest)
  | .named n args ks, rest => n.text (args.text (starsText ks rest))

def Arguments.text : Arguments → List UInt8 → List UInt8
  | .none, rest => rest
  | .list k args, rest => blanks k (0x28 :: args.text rest)

def ArgumentList.text : ArgumentList → List UInt8 → List UInt8
  | .last arg k, rest => arg.text (blanks k (0x29 :: rest))
  | .cons arg k more, rest => arg.text (blanks k (0x2C :: more.text rest))

end

/-- The segments of a name. -/
def Qualified.segments (n : Qualified) : List (List UInt8) :=
  n.head.bytes :: n.more.map (·.name.bytes)

/-- A type wrapped in pointers. -/
def pointers (t : TypeTerm (List UInt8)) : List Nat → TypeTerm (List UInt8)
  | [] => t
  | _ :: ks => pointers (.named [pointerBytes] [t]) ks

mutual

def Union.tree : Union → TypeTerm (List UInt8)
  | .of first more =>
    match more.trees with
    | [] => first.tree
    | ts => .union (first.tree :: ts)

def Alternatives.trees : Alternatives → List (TypeTerm (List UInt8))
  | .none => []
  | .cons _ t more => t.tree :: more.trees

def Term.tree : Term → TypeTerm (List UInt8)
  | .self _ => .self
  | .named n args ks => pointers (.named n.segments args.trees) ks

def Arguments.trees : Arguments → List (TypeTerm (List UInt8))
  | .none => []
  | .list _ args => args.trees

def ArgumentList.trees : ArgumentList → List (TypeTerm (List UInt8))
  | .last arg _ => [arg.tree]
  | .cons arg _ more => arg.tree :: more.trees

end

/-- A derivation of a whole text: a union and the blanks at the end. -/
structure Derivation where
  union : Union
  after : Nat

/-- The text that is derived. -/
def Derivation.text (d : Derivation) : List UInt8 :=
  d.union.text (blanks d.after [])

/-- The type that the text means. -/
def Derivation.tree (d : Derivation) : TypeTerm (List UInt8) :=
  d.union.tree

/-! ### Tokens -/

theorem nameByte_ne_blank {b : UInt8} (h : nameByte b = true) : b ≠ 0x20 := by
  rintro rfl
  exact absurd h (by decide)

@[simp] theorem skipBlanks_blanks (n : Nat) (s : List UInt8) : skipBlanks (blanks n s) = skipBlanks s := by
  induction n with
  | zero => rfl
  | succ n ih => exact ih

theorem skipBlanks_cons {b : UInt8} (hb : b ≠ 0x20) (s : List UInt8) :
    skipBlanks (b :: s) = b :: s := by
  rw [skipBlanks, List.dropWhile_cons_of_neg (by simpa using hb)]

theorem exists_blanks (s : List UInt8) : ∃ n, s = blanks n (skipBlanks s) := by
  induction s with
  | nil => exact ⟨0, rfl⟩
  | cons b s ih =>
    by_cases hb : b = 0x20
    · subst hb
      obtain ⟨n, hn⟩ := ih
      exact ⟨n + 1, congrArg (0x20 :: ·) hn⟩
    · exact ⟨0, (skipBlanks_cons hb s).symm⟩

/-- The blanks before a token are determined. -/
theorem eq_of_blanks {n m : Nat} {a b : UInt8} {s r : List UInt8} (ha : a ≠ 0x20) (hb : b ≠ 0x20)
    (h : blanks n (a :: s) = blanks m (b :: r)) : n = m ∧ a :: s = b :: r := by
  have hrest : a :: s = b :: r := by
    have hskip := congrArg skipBlanks h
    rwa [skipBlanks_blanks, skipBlanks_blanks, skipBlanks_cons ha, skipBlanks_cons hb] at hskip
  have hlength := congrArg List.length h
  rw [hrest] at hlength
  refine ⟨?_, hrest⟩
  simpa [blanks] using hlength

theorem eat?_blanks (token : List UInt8) (n : Nat) (s : List UInt8) :
    eat? token (blanks n s) = eat? token s := by
  rw [eat?, eat?, skipBlanks_blanks]

theorem eat?_append {b : UInt8} (hb : b ≠ 0x20) (bs s : List UInt8) :
    eat? (b :: bs) ((b :: bs) ++ s) = some s := by
  simp only [eat?, List.cons_append, skipBlanks_cons hb]
  rw [if_pos (List.isPrefixOf_iff_prefix.mpr ⟨s, by rw [List.cons_append]⟩), ← List.cons_append,
    List.drop_left]

theorem eat?_eq_some {token s s' : List UInt8} (h : eat? token s = some s') :
    ∃ n, s = blanks n (token ++ s') := by
  obtain ⟨n, hn⟩ := exists_blanks s
  refine ⟨n, ?_⟩
  simp only [eat?] at h
  split at h
  · rename_i hpre
    obtain ⟨r, hr⟩ := List.isPrefixOf_iff_prefix.mp hpre
    rw [← hr, List.drop_left, Option.some.injEq] at h
    rwa [← hr, h] at hn
  · exact absurd h nofun

/-- The first byte that is not blank tells that a token is missing. -/
theorem eat?_eq_none {b : UInt8} {bs s : List UInt8} (h : ∀ c ∈ (skipBlanks s).head?, c ≠ b) :
    eat? (b :: bs) s = none := by
  simp only [eat?]
  rw [if_neg]
  intro hpre
  obtain ⟨r, hr⟩ := List.isPrefixOf_iff_prefix.mp hpre
  exact h b (by rw [← hr]; rfl) rfl

/-- A name ends where no name byte stands. -/
theorem takeWhile_name {n rest : List UInt8} (hn : ∀ b ∈ n, nameByte b = true)
    (hrest : ∀ b ∈ rest.head?, nameByte b = false) :
    (n ++ rest).takeWhile nameByte = n ∧ (n ++ rest).dropWhile nameByte = rest := by
  rw [List.takeWhile_append_of_pos hn, List.dropWhile_append_of_pos hn]
  cases rest with
  | nil => simp
  | cons b rest =>
    have hb : nameByte b = false := hrest b rfl
    rw [List.takeWhile_cons_of_neg (by simp [hb]), List.dropWhile_cons_of_neg (by simp [hb]),
      List.append_nil]
    exact ⟨rfl, rfl⟩

theorem Ident.exists_cons (i : Ident) :
    ∃ b bs, i.bytes = b :: bs ∧ b ≠ 0x20 := by
  obtain ⟨b, bs, hbs⟩ := List.exists_cons_of_ne_nil i.ne_nil
  exact ⟨b, bs, hbs, nameByte_ne_blank (i.nameByte b (hbs ▸ List.mem_cons_self))⟩

theorem name_blanks (i : Ident) (n : Nat) {rest : List UInt8}
    (hrest : ∀ b ∈ rest.head?, nameByte b = false) (total : Nat) :
    name total (blanks n (i.bytes ++ rest)) = .ok (i.bytes, rest) := by
  obtain ⟨b, bs, hbs, hb⟩ := i.exists_cons
  have hskip : skipBlanks (blanks n (i.bytes ++ rest)) = i.bytes ++ rest := by
    rw [skipBlanks_blanks, hbs, List.cons_append, skipBlanks_cons hb]
  obtain ⟨htake, hdrop⟩ := takeWhile_name i.nameByte hrest
  simp only [name, hskip, htake, hdrop]
  rw [hbs]

theorem name_eq_ok {total : Nat} {s n s' : List UInt8} (h : name total s = .ok (n, s')) :
    ∃ (k : Nat) (i : Ident), i.bytes = n ∧ s = blanks k (n ++ s') := by
  obtain ⟨k, hk⟩ := exists_blanks s
  simp only [name] at h
  split at h
  · exact absurd h nofun
  · rename_i b bs htake
    obtain ⟨rfl, rfl⟩ := Prod.mk.inj (Except.ok.inj h)
    have hbytes : ∀ c ∈ b :: bs, nameByte c = true := by
      intro c hc
      rw [← htake] at hc
      exact List.mem_takeWhile_imp hc
    refine ⟨k, ⟨b :: bs, List.cons_ne_nil _ _, hbytes⟩, rfl, ?_⟩
    rwa [← htake, List.takeWhile_append_dropWhile]

/-- A name and the blanks before it are determined by the text up to where no name byte stands. -/
theorem Ident.eq_of_text {i j : Ident} {n m : Nat} {s r : List UInt8}
    (hs : ∀ b ∈ s.head?, TypeTerm.nameByte b = false) (hr : ∀ b ∈ r.head?, TypeTerm.nameByte b = false)
    (h : blanks n (i.bytes ++ s) = blanks m (j.bytes ++ r)) : n = m ∧ i = j ∧ s = r := by
  obtain ⟨b, bs, hbs, hb⟩ := i.exists_cons
  obtain ⟨c, cs, hcs, hc⟩ := j.exists_cons
  have hsplit : n = m ∧ i.bytes ++ s = j.bytes ++ r := by
    rw [hbs, hcs, List.cons_append, List.cons_append] at h ⊢
    exact eq_of_blanks hb hc h
  obtain ⟨hnm, heq⟩ := hsplit
  obtain ⟨hi, hs'⟩ := takeWhile_name i.nameByte hs
  obtain ⟨hj, hr'⟩ := takeWhile_name j.nameByte hr
  refine ⟨hnm, Ident.ext ?_, ?_⟩
  · rw [← hi, ← hj, heq]
  · rw [← hs', ← hr', heq]

/-! ### What may follow -/

/-- What stands after a part of a text: no name goes on, and the first byte that is not blank, if there
is one, is among the given ones. -/
structure Follows (allowed rest : List UInt8) : Prop where
  nameByte : ∀ b ∈ rest.head?, nameByte b = false
  next : ∀ b ∈ (skipBlanks rest).head?, b ∈ allowed

/-- What may follow a union: the end, `)` or `,`. -/
def closing : List UInt8 := [0x29, 0x2C]

/-- What may follow an alternative. -/
def ending : List UInt8 := 0x7C :: closing

namespace Follows

variable {allowed allowed' rest : List UInt8}

theorem mono (h : Follows allowed rest) (hsub : ∀ b ∈ allowed, b ∈ allowed') : Follows allowed' rest :=
  ⟨h.nameByte, fun b hb => hsub b (h.next b hb)⟩

/-- The end of the text follows anything. -/
theorem blanks_nil (n : Nat) : Follows allowed (blanks n []) := by
  constructor
  · cases n with
    | zero => nofun
    | succ n =>
      rintro b ⟨⟩
      decide
  · rw [skipBlanks_blanks]
    nofun

theorem token {b : UInt8} (hname : TypeTerm.nameByte b = false) (hb : b ≠ 0x20) (hmem : b ∈ allowed)
    (n : Nat) (s : List UInt8) : Follows allowed (blanks n (b :: s)) := by
  constructor
  · cases n with
    | zero =>
      rintro c ⟨⟩
      exact hname
    | succ n =>
      rintro c ⟨⟩
      decide
  · rw [skipBlanks_blanks, skipBlanks_cons hb]
    rintro c ⟨⟩
    exact hmem

theorem eat?_eq_none (h : Follows allowed rest) {b : UInt8} (hb : b ∉ allowed) (bs : List UInt8) :
    eat? (b :: bs) rest = none := by
  refine TypeTerm.eat?_eq_none fun c hc hcb => ?_
  exact hb (hcb ▸ h.next c hc)

theorem ne_token (h : Follows allowed rest) {b : UInt8} (hb : b ∉ allowed) (hblank : b ≠ 0x20) (n : Nat)
    (s : List UInt8) : rest ≠ blanks n (b :: s) := by
  rintro rfl
  refine hb (h.next b ?_)
  rw [skipBlanks_blanks, skipBlanks_cons hblank]
  rfl

theorem starsText (h : Follows ending rest) (ks : List Nat) :
    Follows (0x2A :: ending) (TypeTerm.starsText ks rest) := by
  cases ks with
  | nil => exact h.mono fun b hb => List.mem_cons_of_mem _ hb
  | cons k ks => exact token (by decide) (by decide) List.mem_cons_self k _

theorem arguments (h : Follows (0x2A :: ending) rest) (args : Arguments) :
    Follows (0x28 :: 0x2A :: ending) (args.text rest) := by
  cases args with
  | none => exact h.mono fun b hb => List.mem_cons_of_mem _ hb
  | list k args => exact token (by decide) (by decide) List.mem_cons_self k _

theorem segmentsText (h : Follows (0x28 :: 0x2A :: ending) rest) (gs : List Segment) :
    Follows (0x3A :: 0x28 :: 0x2A :: ending) (TypeTerm.segmentsText gs rest) := by
  cases gs with
  | nil => exact h.mono fun b hb => List.mem_cons_of_mem _ hb
  | cons g gs => exact token (by decide) (by decide) List.mem_cons_self g.before _

theorem alternatives (h : Follows closing rest) (ts : Alternatives) : Follows ending (ts.text rest) := by
  cases ts with
  | none => exact h.mono fun b hb => List.mem_cons_of_mem _ hb
  | cons k t ts => exact token (by decide) (by decide) List.mem_cons_self k _

end Follows

/-! ### Lengths -/

theorem length_le_blanks (n : Nat) (rest : List UInt8) : rest.length ≤ (blanks n rest).length := by
  simp [blanks]

theorem length_lt_text (g : Segment) (rest : List UInt8) : rest.length < (g.text rest).length := by
  simp only [Segment.text, blanks, List.length_append, List.length_cons]
  omega

theorem length_le_segmentsText (gs : List Segment) (rest : List UInt8) :
    gs.length + rest.length ≤ (segmentsText gs rest).length := by
  induction gs with
  | nil => simp [segmentsText]
  | cons g gs ih =>
    have hg := length_lt_text g (segmentsText gs rest)
    rw [List.length_cons]
    change _ ≤ (g.text (segmentsText gs rest)).length
    omega

theorem length_le_starsText (ks : List Nat) (rest : List UInt8) :
    ks.length + rest.length ≤ (starsText ks rest).length := by
  induction ks with
  | nil => simp [starsText]
  | cons k ks ih =>
    have hk := length_le_blanks k (0x2A :: starsText ks rest)
    rw [List.length_cons] at hk ⊢
    change _ ≤ (blanks k (0x2A :: starsText ks rest)).length
    omega

theorem Qualified.length_lt (n : Qualified) (rest : List UInt8) : rest.length < (n.text rest).length := by
  have hhead := List.length_pos_iff.mpr n.head.ne_nil
  have hmore := length_le_segmentsText n.more rest
  have hblanks := length_le_blanks n.before (n.head.bytes ++ segmentsText n.more rest)
  rw [List.length_append] at hblanks
  rw [Qualified.text]
  omega

mutual

theorem Union.length_lt (u : Union) (rest : List UInt8) : rest.length < (u.text rest).length := by
  match u with
  | .of first more =>
    have hfirst := first.length_lt (more.text rest)
    have hmore := more.length_le rest
    rw [Union.text]
    omega

theorem Alternatives.length_le (ts : Alternatives) (rest : List UInt8) :
    rest.length ≤ (ts.text rest).length := by
  match ts with
  | .none => exact Nat.le_refl _
  | .cons k t more =>
    have hblanks := length_le_blanks k (0x7C :: t.text (more.text rest))
    have hterm := t.length_lt (more.text rest)
    have hmore := more.length_le rest
    rw [List.length_cons] at hblanks
    rw [Alternatives.text]
    omega

theorem Term.length_lt (t : Term) (rest : List UInt8) : rest.length < (t.text rest).length := by
  match t with
  | .self k =>
    simp only [Term.text, blanks, selfBytes, List.length_append, List.length_cons]
    omega
  | .named n args ks =>
    have hname := n.length_lt (args.text (starsText ks rest))
    have hargs := args.length_le (starsText ks rest)
    have hstars := length_le_starsText ks rest
    rw [Term.text]
    omega

theorem Arguments.length_le (args : Arguments) (rest : List UInt8) :
    rest.length ≤ (args.text rest).length := by
  match args with
  | .none => exact Nat.le_refl _
  | .list k args =>
    have hblanks := length_le_blanks k (0x28 :: args.text rest)
    have hargs := args.length_lt rest
    rw [List.length_cons] at hblanks
    rw [Arguments.text]
    omega

theorem ArgumentList.length_lt (args : ArgumentList) (rest : List UInt8) :
    rest.length < (args.text rest).length := by
  match args with
  | .last arg k =>
    have harg := arg.length_lt (blanks k (0x29 :: rest))
    have hblanks := length_le_blanks k (0x29 :: rest)
    rw [List.length_cons] at hblanks
    rw [ArgumentList.text]
    omega
  | .cons arg k more =>
    have harg := arg.length_lt (blanks k (0x2C :: more.text rest))
    have hblanks := length_le_blanks k (0x2C :: more.text rest)
    have hmore := more.length_lt rest
    rw [List.length_cons] at hblanks
    rw [ArgumentList.text]
    omega

end

/-! ### What is read is derived -/

theorem segments_sound {total fuel : Nat} {s s' : List UInt8} {more : List (List UInt8)}
    (h : segments total fuel s = .ok (more, s')) :
    ∃ gs : List Segment, segmentsText gs s' = s ∧ gs.map (·.name.bytes) = more := by
  induction fuel generalizing s more with
  | zero =>
    obtain ⟨rfl, rfl⟩ := Prod.mk.inj (Except.ok.inj h)
    exact ⟨[], rfl, rfl⟩
  | succ fuel ih =>
    rw [segments] at h
    split at h
    · obtain ⟨rfl, rfl⟩ := Prod.mk.inj (Except.ok.inj h)
      exact ⟨[], rfl, rfl⟩
    · rename_i s₁ heat
      obtain ⟨⟨n, s₂⟩, hname, h⟩ := bind_eq_ok.mp h
      obtain ⟨⟨ns, s₃⟩, hsegments, h⟩ := bind_eq_ok.mp h
      obtain ⟨rfl, rfl⟩ := Prod.mk.inj (Except.ok.inj h)
      obtain ⟨before, rfl⟩ := eat?_eq_some heat
      obtain ⟨after, i, rfl, rfl⟩ := name_eq_ok hname
      obtain ⟨gs, rfl, rfl⟩ := ih hsegments
      exact ⟨⟨before, after, i⟩ :: gs, rfl, rfl⟩

theorem stars_sound (fuel : Nat) (t : TypeTerm (List UInt8)) (s : List UInt8) :
    ∃ ks : List Nat, starsText ks (stars fuel t s).2 = s ∧ pointers t ks = (stars fuel t s).1 := by
  induction fuel generalizing t s with
  | zero => exact ⟨[], rfl, rfl⟩
  | succ fuel ih =>
    rw [stars]
    split
    · exact ⟨[], rfl, rfl⟩
    · rename_i s₁ heat
      obtain ⟨k, rfl⟩ := eat?_eq_some heat
      obtain ⟨ks, htext, htree⟩ := ih (.named [pointerBytes] [t]) s₁
      refine ⟨k :: ks, ?_, htree⟩
      change blanks k (0x2A :: starsText ks _) = _
      rw [htext]
      rfl

-- down the fuel
mutual

theorem union?_sound {total fuel : Nat} {s s' : List UInt8} {t : TypeTerm (List UInt8)}
    (h : union? total fuel s = .ok (t, s')) : ∃ u : Union, u.text s' = s ∧ u.tree = t := by
  match fuel with
  | 0 => exact absurd h nofun
  | fuel + 1 =>
    rw [union?] at h
    obtain ⟨⟨first, s₁⟩, hfirst, h⟩ := bind_eq_ok.mp h
    obtain ⟨⟨more, s₂⟩, hmore, h⟩ := bind_eq_ok.mp h
    obtain ⟨d, rfl, rfl⟩ := term?_sound hfirst
    obtain ⟨ds, rfl, rfl⟩ := alternatives?_sound hmore
    refine ⟨.of d ds, ?_⟩
    rw [Union.text, Union.tree]
    generalize ds.trees = ts at h ⊢
    cases ts with
    | nil =>
      obtain ⟨rfl, rfl⟩ := Prod.mk.inj (Except.ok.inj h)
      exact ⟨rfl, rfl⟩
    | cons u ts =>
      obtain ⟨rfl, rfl⟩ := Prod.mk.inj (Except.ok.inj h)
      exact ⟨rfl, rfl⟩

theorem alternatives?_sound {total fuel : Nat} {s s' : List UInt8} {ts : List (TypeTerm (List UInt8))}
    (h : alternatives? total fuel s = .ok (ts, s')) :
    ∃ ds : Alternatives, ds.text s' = s ∧ ds.trees = ts := by
  match fuel with
  | 0 =>
    obtain ⟨rfl, rfl⟩ := Prod.mk.inj (Except.ok.inj h)
    exact ⟨.none, rfl, rfl⟩
  | fuel + 1 =>
    rw [alternatives?] at h
    split at h
    · obtain ⟨rfl, rfl⟩ := Prod.mk.inj (Except.ok.inj h)
      exact ⟨.none, rfl, rfl⟩
    · rename_i s₁ heat
      obtain ⟨⟨t, s₂⟩, hterm, h⟩ := bind_eq_ok.mp h
      obtain ⟨⟨more, s₃⟩, hmore, h⟩ := bind_eq_ok.mp h
      obtain ⟨rfl, rfl⟩ := Prod.mk.inj (Except.ok.inj h)
      obtain ⟨k, rfl⟩ := eat?_eq_some heat
      obtain ⟨d, rfl, rfl⟩ := term?_sound hterm
      obtain ⟨ds, rfl, rfl⟩ := alternatives?_sound hmore
      exact ⟨.cons k d ds, rfl, rfl⟩

theorem term?_sound {total fuel : Nat} {s s' : List UInt8} {t : TypeTerm (List UInt8)}
    (h : term? total fuel s = .ok (t, s')) : ∃ d : Term, d.text s' = s ∧ d.tree = t := by
  match fuel with
  | 0 => exact absurd h nofun
  | fuel + 1 =>
    rw [term?] at h
    obtain ⟨⟨head, s₁⟩, hname, hrest⟩ := bind_eq_ok.mp h
    clear h
    obtain ⟨k, i, rfl, rfl⟩ := name_eq_ok hname
    simp only at hrest
    split at hrest
    · rename_i hself
      obtain ⟨rfl, rfl⟩ := Prod.mk.inj (Except.ok.inj hrest)
      exact ⟨.self k, by rw [Term.text, hself], rfl⟩
    · rename_i hself
      obtain ⟨⟨more, s₂⟩, hsegments, hrest⟩ := bind_eq_ok.mp hrest
      obtain ⟨gs, rfl, rfl⟩ := segments_sound hsegments
      simp only at hrest
      split at hrest
      · obtain ⟨ks, htext, htree⟩ := stars_sound s₂.length (.named (i.bytes :: gs.map (·.name.bytes)) []) s₂
        rw [Except.ok.inj hrest] at htext htree
        subst htext htree
        exact ⟨.named ⟨k, i, hself, gs⟩ .none ks, rfl, rfl⟩
      · rename_i s₃ heat
        obtain ⟨⟨args, s₄⟩, hargs, hrest⟩ := bind_eq_ok.mp hrest
        obtain ⟨opening, rfl⟩ := eat?_eq_some heat
        obtain ⟨ds, rfl, rfl⟩ := arguments?_sound hargs
        obtain ⟨ks, htext, htree⟩ := stars_sound s₄.length (.named (i.bytes :: gs.map (·.name.bytes)) ds.trees) s₄
        rw [Except.ok.inj hrest] at htext htree
        subst htext htree
        exact ⟨.named ⟨k, i, hself, gs⟩ (.list opening ds) ks, rfl, rfl⟩

theorem arguments?_sound {total fuel : Nat} {s s' : List UInt8} {ts : List (TypeTerm (List UInt8))}
    (h : arguments? total fuel s = .ok (ts, s')) :
    ∃ ds : ArgumentList, ds.text s' = s ∧ ds.trees = ts := by
  match fuel with
  | 0 => exact absurd h nofun
  | fuel + 1 =>
    rw [arguments?] at h
    obtain ⟨⟨arg, s₁⟩, harg, h⟩ := bind_eq_ok.mp h
    obtain ⟨d, rfl, rfl⟩ := union?_sound harg
    simp only at h
    split at h
    · rename_i s₂ heat
      obtain ⟨rfl, rfl⟩ := Prod.mk.inj (Except.ok.inj h)
      obtain ⟨k, rfl⟩ := eat?_eq_some heat
      exact ⟨.last d k, rfl, rfl⟩
    · split at h
      · exact absurd h nofun
      · rename_i s₂ heat
        obtain ⟨⟨more, s₃⟩, hmore, h⟩ := bind_eq_ok.mp h
        obtain ⟨rfl, rfl⟩ := Prod.mk.inj (Except.ok.inj h)
        obtain ⟨k, rfl⟩ := eat?_eq_some heat
        obtain ⟨ds, rfl, rfl⟩ := arguments?_sound hmore
        exact ⟨.cons d k ds, rfl, rfl⟩

end

/-! ### What is derived is read -/

theorem segments_read {rest : List UInt8} (h : Follows (0x28 :: 0x2A :: ending) rest) (total : Nat)
    {fuel : Nat} {gs : List Segment} (hfuel : gs.length ≤ fuel) :
    segments total fuel (segmentsText gs rest) = .ok (gs.map (·.name.bytes), rest) := by
  induction gs generalizing fuel with
  | nil =>
    cases fuel with
    | zero => rfl
    | succ fuel =>
      change segments total (fuel + 1) rest = _
      rw [segments, h.eat?_eq_none (by decide)]
      rfl
  | cons g gs ih =>
    obtain ⟨fuel, rfl⟩ : ∃ f, fuel = f + 1 := ⟨fuel - 1, by rw [List.length_cons] at hfuel; omega⟩
    have heat : eat? [0x3A, 0x3A] (segmentsText (g :: gs) rest) =
        some (blanks g.after (g.name.bytes ++ segmentsText gs rest)) := by
      change eat? _ (blanks g.before _) = _
      rw [eat?_blanks]
      exact eat?_append (by decide) [0x3A] _
    rw [segments, heat]
    refine bind_eq_ok.mpr ⟨_, name_blanks g.name g.after (h.segmentsText gs).nameByte total, ?_⟩
    exact bind_eq_ok.mpr ⟨_, ih (Nat.le_of_succ_le_succ hfuel), rfl⟩

theorem stars_read {rest : List UInt8} (h : Follows ending rest) {fuel : Nat} {ks : List Nat}
    (hfuel : ks.length ≤ fuel) (t : TypeTerm (List UInt8)) :
    stars fuel t (starsText ks rest) = (pointers t ks, rest) := by
  induction ks generalizing fuel t with
  | nil =>
    cases fuel with
    | zero => rfl
    | succ fuel =>
      change stars (fuel + 1) t rest = _
      rw [stars, h.eat?_eq_none (by decide)]
      rfl
  | cons k ks ih =>
    obtain ⟨fuel, rfl⟩ : ∃ f, fuel = f + 1 := ⟨fuel - 1, by rw [List.length_cons] at hfuel; omega⟩
    have heat : eat? [0x2A] (starsText (k :: ks) rest) = some (starsText ks rest) := by
      change eat? _ (blanks k _) = _
      rw [eat?_blanks]
      exact eat?_append (by decide) [] _
    rw [stars, heat]
    exact ih (Nat.le_of_succ_le_succ hfuel) _

-- up the tree; every reader gets three steps for each byte that is left
mutual

theorem Union.read (u : Union) {total fuel : Nat} {rest : List UInt8}
    (hfuel : 3 * (u.text rest).length + 1 ≤ fuel) (h : Follows closing rest) :
    union? total fuel (u.text rest) = .ok (u.tree, rest) := by
  match u with
  | .of first more =>
    obtain ⟨fuel, rfl⟩ : ∃ f, fuel = f + 1 := ⟨fuel - 1, by omega⟩
    rw [Union.text] at hfuel ⊢
    have hfirst := first.length_lt (more.text rest)
    have hterm : term? total fuel (first.text (more.text rest)) = .ok (first.tree, more.text rest) :=
      first.read (by omega) (h.alternatives more)
    have hmore : alternatives? total fuel (more.text rest) = .ok (more.trees, rest) :=
      more.read (by omega) h
    rw [union?]
    refine bind_eq_ok.mpr ⟨_, hterm, bind_eq_ok.mpr ⟨_, hmore, ?_⟩⟩
    rw [Union.tree]
    cases more.trees <;> rfl

theorem Alternatives.read (ts : Alternatives) {total fuel : Nat} {rest : List UInt8}
    (hfuel : 3 * (ts.text rest).length ≤ fuel) (h : Follows closing rest) :
    alternatives? total fuel (ts.text rest) = .ok (ts.trees, rest) := by
  match ts with
  | .none =>
    cases fuel with
    | zero => rfl
    | succ fuel =>
      rw [Alternatives.text, alternatives?, h.eat?_eq_none (by decide)]
      rfl
  | .cons k t more =>
    have hblanks := length_le_blanks k (0x7C :: t.text (more.text rest))
    have hlength := t.length_lt (more.text rest)
    rw [List.length_cons] at hblanks
    rw [Alternatives.text] at hfuel ⊢
    obtain ⟨fuel, rfl⟩ : ∃ f, fuel = f + 1 := ⟨fuel - 1, by omega⟩
    have heat : eat? [0x7C] (blanks k (0x7C :: t.text (more.text rest))) =
        some (t.text (more.text rest)) := by
      rw [eat?_blanks]
      exact eat?_append (by decide) [] _
    rw [alternatives?, heat]
    refine bind_eq_ok.mpr ⟨_, t.read (by omega) (h.alternatives more), ?_⟩
    exact bind_eq_ok.mpr ⟨_, more.read (by omega) h, rfl⟩

theorem Term.read (t : Term) {total fuel : Nat} {rest : List UInt8}
    (hfuel : 3 * (t.text rest).length ≤ fuel) (h : Follows ending rest) :
    term? total fuel (t.text rest) = .ok (t.tree, rest) := by
  have hlength := t.length_lt rest
  obtain ⟨fuel, rfl⟩ : ∃ f, fuel = f + 1 := ⟨fuel - 1, by omega⟩
  match t with
  | .self k =>
    have hself : name total (blanks k (selfBytes ++ rest)) = .ok (selfBytes, rest) :=
      name_blanks .self k h.nameByte total
    rw [Term.text, term?]
    exact bind_eq_ok.mpr ⟨_, hself, rfl⟩
  | .named n args ks =>
    have hstars := h.starsText ks
    have hargs := hstars.arguments args
    have hhead : name total (n.text (args.text (starsText ks rest))) =
        .ok (n.head.bytes, segmentsText n.more (args.text (starsText ks rest))) := by
      rw [Qualified.text]
      exact name_blanks n.head n.before (hargs.segmentsText n.more).nameByte total
    have hn := n.length_lt (args.text (starsText ks rest))
    have hmore := length_le_segmentsText n.more (args.text (starsText ks rest))
    have hks := length_le_starsText ks rest
    rw [Term.text] at hfuel ⊢
    rw [term?]
    refine bind_eq_ok.mpr ⟨_, hhead, ?_⟩
    simp only [if_neg n.ne_self]
    refine bind_eq_ok.mpr ⟨_, segments_read hargs total (by omega), ?_⟩
    match args with
    | .none =>
      have hnone : eat? [0x28] (starsText ks rest) = none := hstars.eat?_eq_none (by decide) []
      simp only [Arguments.text, hnone]
      rw [stars_read h (by omega)]
      rfl
    | .list k list =>
      have hopen : eat? [0x28] (blanks k (0x28 :: list.text (starsText ks rest))) =
          some (list.text (starsText ks rest)) := by
        rw [eat?_blanks]
        exact eat?_append (by decide) [] _
      have hblanks := length_le_blanks k (0x28 :: list.text (starsText ks rest))
      rw [List.length_cons] at hblanks
      simp only [Arguments.text, hopen]
      rw [Arguments.text] at hn hfuel
      refine bind_eq_ok.mpr ⟨_, list.read (by omega), ?_⟩
      simp only
      rw [stars_read h (by omega)]
      rfl

theorem ArgumentList.read (args : ArgumentList) {total fuel : Nat} {rest : List UInt8}
    (hfuel : 3 * (args.text rest).length + 2 ≤ fuel) :
    arguments? total fuel (args.text rest) = .ok (args.trees, rest) := by
  obtain ⟨fuel, rfl⟩ : ∃ f, fuel = f + 1 := ⟨fuel - 1, by omega⟩
  match args with
  | .last arg k =>
    have hclose : eat? [0x29] (blanks k (0x29 :: rest)) = some rest := by
      rw [eat?_blanks]
      exact eat?_append (by decide) [] _
    rw [ArgumentList.text] at hfuel ⊢
    rw [arguments?]
    refine bind_eq_ok.mpr ⟨_, arg.read (by omega) (.token (by decide) (by decide) (by decide) k _), ?_⟩
    simp only [hclose]
    rfl
  | .cons arg k more =>
    have hclose : eat? [0x29] (blanks k (0x2C :: more.text rest)) = none := by
      refine eat?_eq_none ?_
      rw [skipBlanks_blanks, skipBlanks_cons (by decide)]
      rintro c ⟨⟩
      decide
    have hcomma : eat? [0x2C] (blanks k (0x2C :: more.text rest)) = some (more.text rest) := by
      rw [eat?_blanks]
      exact eat?_append (by decide) [] _
    have harg := arg.length_lt (blanks k (0x2C :: more.text rest))
    have hblanks := length_le_blanks k (0x2C :: more.text rest)
    rw [List.length_cons] at hblanks
    rw [ArgumentList.text] at hfuel ⊢
    rw [arguments?]
    refine bind_eq_ok.mpr ⟨_, arg.read (by omega) (.token (by decide) (by decide) (by decide) k _), ?_⟩
    simp only [hclose, hcomma]
    exact bind_eq_ok.mpr ⟨_, more.read (by omega), rfl⟩

end

/-! ### The derivation of a text -/

theorem starsText_inj {ks ls : List Nat} {rest rest' : List UInt8} (h : Follows ending rest)
    (h' : Follows ending rest') (heq : starsText ks rest = starsText ls rest') :
    ks = ls ∧ rest = rest' := by
  induction ks generalizing ls with
  | nil =>
    cases ls with
    | nil => exact ⟨rfl, heq⟩
    | cons l ls => exact absurd heq (h.ne_token (by decide) (by decide) l _)
  | cons k ks ih =>
    cases ls with
    | nil => exact absurd heq.symm (h'.ne_token (by decide) (by decide) k _)
    | cons l ls =>
      obtain ⟨rfl, hrest⟩ := eq_of_blanks (by decide) (by decide) heq
      obtain ⟨rfl, rfl⟩ := ih (List.cons.inj hrest).2
      exact ⟨rfl, rfl⟩

theorem segmentsText_inj {gs ls : List Segment} {rest rest' : List UInt8}
    (h : Follows (0x28 :: 0x2A :: ending) rest) (h' : Follows (0x28 :: 0x2A :: ending) rest')
    (heq : segmentsText gs rest = segmentsText ls rest') : gs = ls ∧ rest = rest' := by
  induction gs generalizing ls with
  | nil =>
    cases ls with
    | nil => exact ⟨rfl, heq⟩
    | cons l ls => exact absurd heq (h.ne_token (by decide) (by decide) l.before _)
  | cons g gs ih =>
    cases ls with
    | nil => exact absurd heq.symm (h'.ne_token (by decide) (by decide) g.before _)
    | cons l ls =>
      obtain ⟨before, after, i⟩ := g
      obtain ⟨before', after', j⟩ := l
      obtain ⟨rfl, hname⟩ := eq_of_blanks (by decide) (by decide) heq
      obtain ⟨rfl, rfl, hmore⟩ := Ident.eq_of_text (h.segmentsText gs).nameByte
        (h'.segmentsText ls).nameByte (List.cons.inj (List.cons.inj hname).2).2
      obtain ⟨rfl, rfl⟩ := ih hmore
      exact ⟨rfl, rfl⟩

theorem Qualified.text_inj {n m : Qualified} {rest rest' : List UInt8}
    (h : Follows (0x28 :: 0x2A :: ending) rest) (h' : Follows (0x28 :: 0x2A :: ending) rest')
    (heq : n.text rest = m.text rest') : n = m ∧ rest = rest' := by
  obtain ⟨before, i, hself, gs⟩ := n
  obtain ⟨before', j, hself', ls⟩ := m
  rw [Qualified.text, Qualified.text] at heq
  obtain ⟨rfl, rfl, hmore⟩ := Ident.eq_of_text (h.segmentsText gs).nameByte
    (h'.segmentsText ls).nameByte heq
  obtain ⟨rfl, rfl⟩ := segmentsText_inj h h' hmore
  exact ⟨rfl, rfl⟩

/-- `self` is no first segment of a name. -/
theorem Qualified.text_ne_self (n : Qualified) (k : Nat) {rest rest' : List UInt8}
    (h : Follows (0x28 :: 0x2A :: ending) rest) (h' : Follows ending rest') :
    blanks k (selfBytes ++ rest') ≠ n.text rest := by
  intro heq
  rw [Qualified.text] at heq
  have hsame : k = n.before ∧ Ident.self = n.head ∧ _ :=
    Ident.eq_of_text h'.nameByte (h.segmentsText n.more).nameByte heq
  exact n.ne_self (congrArg Ident.bytes hsame.2.1).symm

mutual

theorem Union.text_inj (u v : Union) {rest rest' : List UInt8} (h : Follows closing rest)
    (h' : Follows closing rest') (heq : u.text rest = v.text rest') : u = v ∧ rest = rest' := by
  match u, v with
  | .of first more, .of first' more' =>
    obtain ⟨rfl, hmore⟩ := first.text_inj first' (h.alternatives more) (h'.alternatives more') heq
    obtain ⟨rfl, hrest⟩ := more.text_inj more' h h' hmore
    exact ⟨rfl, hrest⟩

theorem Alternatives.text_inj (ts us : Alternatives) {rest rest' : List UInt8} (h : Follows closing rest)
    (h' : Follows closing rest') (heq : ts.text rest = us.text rest') : ts = us ∧ rest = rest' := by
  match ts, us with
  | .none, .none => exact ⟨rfl, heq⟩
  | .none, .cons k _ _ => exact absurd heq (h.ne_token (by decide) (by decide) k _)
  | .cons k _ _, .none => exact absurd heq.symm (h'.ne_token (by decide) (by decide) k _)
  | .cons k t more, .cons l u more' =>
    obtain ⟨rfl, hterm⟩ := eq_of_blanks (by decide) (by decide) heq
    obtain ⟨rfl, hmore⟩ := t.text_inj u (h.alternatives more) (h'.alternatives more')
      (List.cons.inj hterm).2
    obtain ⟨rfl, hrest⟩ := more.text_inj more' h h' hmore
    exact ⟨rfl, hrest⟩

theorem Term.text_inj (t u : Term) {rest rest' : List UInt8} (h : Follows ending rest)
    (h' : Follows ending rest') (heq : t.text rest = u.text rest') : t = u ∧ rest = rest' := by
  match t, u with
  | .self k, .self l =>
    obtain ⟨rfl, hself⟩ := eq_of_blanks (by decide) (by decide) heq
    have hrest : selfBytes ++ rest = selfBytes ++ rest' := hself
    exact ⟨rfl, List.append_cancel_left hrest⟩
  | .self k, .named n args ks =>
    exact absurd heq (n.text_ne_self k ((h'.starsText ks).arguments args) h)
  | .named n args ks, .self k =>
    exact absurd heq.symm (n.text_ne_self k ((h.starsText ks).arguments args) h')
  | .named n args ks, .named m args' ls =>
    obtain ⟨rfl, hargs⟩ := Qualified.text_inj ((h.starsText ks).arguments args)
      ((h'.starsText ls).arguments args') heq
    obtain ⟨rfl, hstars⟩ := args.text_inj args' (h.starsText ks) (h'.starsText ls) hargs
    obtain ⟨rfl, hrest⟩ := starsText_inj h h' hstars
    exact ⟨rfl, hrest⟩

theorem Arguments.text_inj (args args' : Arguments) {rest rest' : List UInt8}
    (h : Follows (0x2A :: ending) rest) (h' : Follows (0x2A :: ending) rest')
    (heq : args.text rest = args'.text rest') : args = args' ∧ rest = rest' := by
  match args, args' with
  | .none, .none => exact ⟨rfl, heq⟩
  | .none, .list k _ => exact absurd heq (h.ne_token (by decide) (by decide) k _)
  | .list k _, .none => exact absurd heq.symm (h'.ne_token (by decide) (by decide) k _)
  | .list k list, .list l list' =>
    obtain ⟨rfl, hlist⟩ := eq_of_blanks (by decide) (by decide) heq
    obtain ⟨rfl, hrest⟩ := list.text_inj list' (List.cons.inj hlist).2
    exact ⟨rfl, hrest⟩

theorem ArgumentList.text_inj (args args' : ArgumentList) {rest rest' : List UInt8}
    (heq : args.text rest = args'.text rest') : args = args' ∧ rest = rest' := by
  -- what follows a type argument is one of these tokens
  have hclose : ∀ (k : Nat) (s : List UInt8), Follows closing (blanks k (0x29 :: s)) := fun k s =>
    .token (by decide) (by decide) (by decide) k s
  have hcomma : ∀ (k : Nat) (s : List UInt8), Follows closing (blanks k (0x2C :: s)) := fun k s =>
    .token (by decide) (by decide) (by decide) k s
  match args, args' with
  | .last arg k, .last arg' l =>
    obtain ⟨rfl, hend⟩ := arg.text_inj arg' (hclose k _) (hclose l _) heq
    obtain ⟨rfl, hrest⟩ := eq_of_blanks (by decide) (by decide) hend
    exact ⟨rfl, (List.cons.inj hrest).2⟩
  | .last arg k, .cons arg' l more =>
    obtain ⟨-, hend⟩ := arg.text_inj arg' (hclose k _) (hcomma l _) heq
    exact absurd (List.cons.inj (eq_of_blanks (by decide) (by decide) hend).2).1 (by decide)
  | .cons arg k more, .last arg' l =>
    obtain ⟨-, hend⟩ := arg.text_inj arg' (hcomma k _) (hclose l _) heq
    exact absurd (List.cons.inj (eq_of_blanks (by decide) (by decide) hend).2).1 (by decide)
  | .cons arg k more, .cons arg' l more' =>
    obtain ⟨rfl, hend⟩ := arg.text_inj arg' (hcomma k _) (hcomma l _) heq
    obtain ⟨rfl, hmore⟩ := eq_of_blanks (by decide) (by decide) hend
    obtain ⟨rfl, hrest⟩ := more.text_inj more' (List.cons.inj hmore).2
    exact ⟨rfl, hrest⟩

end

/-- A text has one derivation at most. -/
theorem Derivation.text_injective {d d' : Derivation} (h : d.text = d'.text) : d = d' := by
  obtain ⟨u, k⟩ := d
  obtain ⟨v, l⟩ := d'
  obtain ⟨rfl, hrest⟩ := u.text_inj v (.blanks_nil k) (.blanks_nil l) h
  have hlength : k = l := by simpa [blanks] using congrArg List.length hrest
  rw [hlength]

theorem parse_text (d : Derivation) : parse d.text = .ok d.tree := by
  have hread : union? d.text.length (3 * d.text.length + 3) d.text = .ok (d.tree, blanks d.after []) :=
    d.union.read (by change _ ≤ 3 * (d.union.text (blanks d.after [])).length + 3; omega)
      (.blanks_nil d.after)
  refine bind_eq_ok.mpr ⟨_, hread, ?_⟩
  have hend : skipBlanks (blanks d.after []) = [] := skipBlanks_blanks _ _
  simp only [hend]
  rfl

theorem parse_sound {s : List UInt8} {t : TypeTerm (List UInt8)} (h : parse s = .ok t) :
    ∃ d : Derivation, d.text = s ∧ d.tree = t := by
  obtain ⟨⟨t', rest⟩, hunion, h⟩ := bind_eq_ok.mp h
  obtain ⟨u, htext, rfl⟩ := union?_sound hunion
  simp only at h
  split at h
  · rename_i hend
    obtain rfl := Except.ok.inj h
    obtain ⟨k, hk⟩ := exists_blanks rest
    refine ⟨⟨u, k⟩, ?_, rfl⟩
    rw [← htext, hk, hend]
    rfl
  · exact absurd h nofun

/-- **The texts that are read are those that the grammar derives.** A text is read as the type that its
derivation means, there is no second derivation, and every text without one is refused. -/
theorem parse_iff (s : List UInt8) :
    (∀ t, parse s = .ok t ↔ ∃ d : Derivation, d.text = s ∧ d.tree = t) ∧
    (∀ d d' : Derivation, d.text = s → d'.text = s → d = d') ∧
    ((∀ d : Derivation, d.text ≠ s) → ∃ e, parse s = .error e) := by
  refine ⟨fun t => ⟨parse_sound, ?_⟩, ?_, ?_⟩
  · rintro ⟨d, rfl, rfl⟩
    exact parse_text d
  · rintro d d' rfl h
    exact (Derivation.text_injective h).symm
  · intro hnone
    cases hparse : parse s with
    | error e => exact ⟨e, rfl⟩
    | ok t =>
      obtain ⟨d, hd, -⟩ := parse_sound hparse
      exact absurd hd (hnone d)

end TypeTerm

end TypeFlow
