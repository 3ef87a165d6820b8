import TypeFlow.Document.Writer

/-!
# Written documents hold no NUL

A character that cannot stand as it is makes a text be written in double quotes, with an escape in its place. So
NUL never occurs in the written form of a document (`nul_notMem_write`), and can be put between written forms to
keep them apart.

This holds of documents whose plain scalars hold no NUL, since a plain scalar is written as it is. Written trees
have no plain scalars but the two values of a flag.
-/

namespace TypeFlow.Document

/-- The character that separates. -/
def nul : Char := '\x00'

/-- A document whose plain scalars are values of flags. -/
inductive Node.Flagged : Node Unit → Prop
  | text (s : String) : Flagged (.scalar () .quoted s)
  | flag (b : Bool) : Flagged (.scalar () .plain (if b then "true" else "false"))
  | sequence {items : List (Node Unit)} (h : ∀ n ∈ items, Flagged n) : Flagged (.sequence () items)
  | mapping {entries : List (Node Unit × Node Unit)} (hkeys : ∀ e ∈ entries, Flagged e.1)
    (hvalues : ∀ e ∈ entries, Flagged e.2) : Flagged (.mapping () entries)

namespace Writer

variable {p : Page} {c : Char} {cs : List Char} {n column : Nat}

/-! ### Characters -/

theorem ne_nul_of_isPlainChar (h : isPlainChar c = true) : c ≠ nul := by
  rintro rfl
  revert h
  decide

theorem ne_nul_of_digit (k : Nat) : (Text.hexDigit k).toUpper ≠ nul := by
  have hall : ∀ d < 16, (Nat.digitChar d).toUpper ≠ nul := by decide
  exact hall _ (Nat.mod_lt _ (by decide))

theorem nul_notMem_hexUpper (width k : Nat) : nul ∉ hexUpper width k := by
  induction width generalizing k with
  | zero => exact List.not_mem_nil
  | succ width ih =>
    rw [hexUpper, Text.hex, List.map_append, List.mem_append, not_or]
    exact ⟨ih _, fun h => ne_nul_of_digit k (List.mem_singleton.mp h).symm⟩

theorem nul_notMem_escape (c : Char) : nul ∉ escape c := by
  have hcode : ∀ {x : Char} {width k : Nat}, x ≠ nul → nul ∉ '\\' :: x :: hexUpper width k := by
    intro x width k hx hmem
    rcases List.mem_cons.mp hmem with h | hmem
    · exact absurd h (by decide)
    · rcases List.mem_cons.mp hmem with h | hmem
      · exact hx h.symm
      · exact nul_notMem_hexUpper width k hmem
  unfold escape
  simp only
  split
  case h_16 =>
    split
    · exact hcode (by decide)
    · split <;> exact hcode (by decide)
  all_goals decide

theorem nul_notMem_doubleQuoted (cs : List Char) : nul ∉ doubleQuoted cs := by
  rw [doubleQuoted]
  simp only [List.mem_cons, List.mem_append, List.mem_flatMap, List.not_mem_nil, or_false, not_or, not_exists,
    not_and]
  refine ⟨⟨by decide, fun c _ hc => ?_⟩, by decide⟩
  split at hc
  · rename_i hstands
    rw [Bool.and_eq_true, standsInQuotes, Bool.and_eq_true, Bool.and_eq_true, Bool.and_eq_true] at hstands
    exact ne_nul_of_isPlainChar hstands.2.1.1.1 (List.mem_singleton.mp hc).symm
  · exact nul_notMem_escape c hc

/-- A text without special characters holds no NUL. -/
theorem nul_notMem_of_not_special (h : (cs.any fun c => !isPlainChar c && c != '\t') = false) : nul ∉ cs := by
  intro hmem
  have hnul := List.any_eq_false.mp h nul hmem
  exact hnul (by decide)

theorem nul_notMem_of_analyse (h : (analyse cs).plain = true ∨ (analyse cs).single = true ∨
    (analyse cs).literal = true) : nul ∉ cs := by
  refine nul_notMem_of_not_special ?_
  simp only [analyse, Bool.not_eq_true', Bool.or_eq_false_iff] at h
  rcases h with h | h | h
  · exact h.2
  · exact h.2
  · exact h.2

/-! ### Pages -/

/-- Nothing but other characters has been written. -/
def Page.Clean (p : Page) : Prop :=
  nul ∉ p.written

theorem Page.Clean.put (hp : p.Clean) (hc : c ≠ nul) : (p.put c).Clean := by
  intro hmem
  rcases List.mem_cons.mp hmem with h | hmem
  · exact hc h.symm
  · exact hp hmem

theorem Page.Clean.foldl_put (hp : p.Clean) (hcs : nul ∉ cs) : (cs.foldl Page.put p).Clean := by
  induction cs generalizing p with
  | nil => exact hp
  | cons c cs ih =>
    obtain ⟨hc, hcs⟩ := not_or.mp (mt List.mem_cons.mpr hcs)
    exact ih (hp.put (Ne.symm hc)) hcs

theorem Page.Clean.write (hp : p.Clean) (hcs : nul ∉ cs) : (p.write cs).Clean :=
  hp.foldl_put hcs

theorem Page.Clean.lineBreak (hp : p.Clean) (hc : c ≠ nul) : (p.lineBreak c).Clean :=
  hp.put hc

theorem Page.Clean.indent (hp : p.Clean) (n : Nat) : (p.indent n).Clean := by
  have hspaces : ∀ k, nul ∉ List.replicate k ' ' := fun k h => absurd (List.eq_of_mem_replicate h) (by decide)
  rw [Page.indent]
  refine Page.Clean.foldl_put ?_ (hspaces _)
  split
  · exact hp.lineBreak (by decide)
  · exact hp

/-- Characters are written one after the other, each of them cleanly. -/
theorem clean_foldl {f : Page × Bool → Char → Page × Bool} (hcs : nul ∉ cs)
    (hf : ∀ (x : Page × Bool) c, x.1.Clean → c ≠ nul → (f x c).1.Clean) {x : Page × Bool} (hx : x.1.Clean) :
    (cs.foldl f x).1.Clean := by
  induction cs generalizing x with
  | nil => exact hx
  | cons c cs ih =>
    obtain ⟨hc, hcs⟩ := not_or.mp (mt List.mem_cons.mpr hcs)
    exact ih hcs (hf x c hx (Ne.symm hc))

theorem clean_singleQuoted (hp : p.Clean) (hcs : nul ∉ cs) : (singleQuoted column cs p).Clean := by
  refine Page.Clean.write (clean_foldl hcs (fun x c hx hc => ?_) (hp.write (by decide))) (by decide)
  split
  · exact hx.lineBreak hc
  · refine Page.Clean.write ?_ ?_
    · split
      · exact hx.indent column
      · exact hx
    · split <;> simp [Ne.symm hc]

theorem nul_notMem_literalHeader (cs : List Char) : nul ∉ literalHeader cs := by
  rw [literalHeader]
  simp only [List.mem_cons, List.mem_append, not_or]
  refine ⟨⟨by decide, ?_⟩, ?_⟩
  · split <;> decide
  · split
    · decide
    · split <;> decide
    · split
      · decide
      · split <;> decide

theorem clean_literalBlock (hp : p.Clean) (hcs : nul ∉ cs) : (literalBlock column cs p).Clean := by
  refine clean_foldl hcs (fun x c hx hc => ?_) (hp.write (nul_notMem_literalHeader cs))
  split
  · exact hx.lineBreak hc
  · refine Page.Clean.write ?_ (by simp [Ne.symm hc])
    split
    · exact hx.indent column
    · exact hx

/-! ### Documents -/

theorem clean_text (hp : p.Clean) (column : Nat) (s : String) : (text column s p).Clean := by
  have hquoted := hp.write (nul_notMem_doubleQuoted s.toList)
  unfold text
  simp only
  split
  · split
    · rename_i hliteral
      exact clean_literalBlock hp (nul_notMem_of_analyse (.inr (.inr hliteral)))
    · exact hquoted
  · split
    · split
      · rename_i hplain
        exact hp.write (nul_notMem_of_analyse (.inl hplain))
      · split
        · rename_i hsingle
          exact clean_singleQuoted hp (nul_notMem_of_analyse (.inr (.inl hsingle)))
        · exact hquoted
    · exact hquoted

theorem clean_flag (hp : p.Clean) (column : Nat) (b : Bool) :
    (scalar column .plain (if b then "true" else "false") p).Clean := by
  refine Page.Clean.write hp ?_
  cases b <;> decide

/-- Values that are written cleanly, on any page. -/
def Neat (n : Node Unit) : Prop :=
  ∀ indent p, Page.Clean p → (value indent n p).Clean

theorem clean_items {l : List (Node Unit)} (h : ∀ n ∈ l, Neat n) (indent : Nat) (hp : p.Clean) :
    (items indent l p).Clean := by
  induction l generalizing p with
  | nil => exact hp
  | cons n l ih =>
    rw [items]
    refine ih (fun m hm => h m (List.mem_cons_of_mem n hm)) ?_
    exact h n List.mem_cons_self _ _ ((hp.indent indent).put (by decide))

theorem clean_entryText {key v : Node Unit} (hflagged : key.Flagged) (hkey : Neat key) (hv : Neat v) (indent : Nat)
    (hp : p.Clean) : (entryText indent (key, v) p).Clean := by
  have hindent := hp.indent indent
  unfold entryText
  refine hv _ _ (Page.Clean.write ?_ (by decide))
  cases hflagged with
  | text s => exact clean_text hindent indent s
  | flag b => exact clean_flag hindent indent b
  | sequence _ => exact hkey _ _ hindent
  | mapping _ _ => exact hkey _ _ hindent

theorem clean_entries {l : List (Node Unit × Node Unit)} (hflagged : ∀ e ∈ l, e.1.Flagged)
    (hkeys : ∀ e ∈ l, Neat e.1) (hvalues : ∀ e ∈ l, Neat e.2) (indent : Nat) (hp : p.Clean) :
    (entries indent l p).Clean := by
  induction l generalizing p with
  | nil => exact hp
  | cons e l ih =>
    rw [List.forall_mem_cons] at hflagged hkeys hvalues
    rw [entries]
    exact ih hflagged.2 hkeys.2 hvalues.2 (clean_entryText hflagged.1 hkeys.1 hvalues.1 indent hp)

theorem neat {d : Node Unit} (h : d.Flagged) : Neat d := by
  induction h with
  | text s => exact fun indent p hp => clean_text (hp.put (by decide)) indent s
  | flag b => exact fun indent p hp => clean_flag (hp.put (by decide)) indent b
  | sequence _ ih =>
    intro indent p hp
    rw [value]
    split
    · exact hp.write (by decide)
    · exact clean_items ih indent hp
  | mapping hkeys _ ihkeys ihvalues =>
    intro indent p hp
    rw [value]
    split
    · exact hp.write (by decide)
    · exact clean_entries hkeys ihkeys ihvalues indent hp

end Writer

open Writer in
/-- **Written documents hold no NUL.** -/
theorem nul_notMem_write {n : Node Unit} (h : n.Flagged) : nul ∉ (write n).toList := by
  have hempty : Page.Clean {} := List.not_mem_nil
  unfold write
  simp only [String.toList_ofList, List.mem_reverse]
  refine Page.Clean.indent ?_ 0
  cases h with
  | text s => exact clean_text hempty step s
  | flag b => exact clean_flag hempty step b
  | @sequence l hl =>
    cases l with
    | nil => exact hempty.write (by decide)
    | cons item rest => exact neat (.sequence hl) 0 _ hempty
  | @mapping l hkeys hvalues =>
    cases l with
    | nil => exact hempty.write (by decide)
    | cons entry rest => exact neat (.mapping hkeys hvalues) 0 _ hempty

end TypeFlow.Document
