import TypeFlow.Document.Reader
import TypeFlow.Document.Scalar
import TypeFlow.Document.Writer

/-!
# What a document shows

`Node.shown` keeps of a document what a reader of trees can see: the kinds of the nodes, their order, the
texts of the scalars, and whether a scalar stands for its text. Positions are lost, and so are the marks of
style that make no difference. `ReadsBackBy read write n` says that the text written for `n` shows `n` again, whatever
reads and writes documents.
-/

namespace TypeFlow.Document

variable {π : Type}

/-- Whether there is no value for the scalar to stand for but its text. -/
def Meaning.isText : Meaning → Bool
  | .text => true
  | .merge => true
  | _ => false

/-- The style that tells what a scalar stands for. -/
def shownStyle (style : Style) (s : String) : Style :=
  if (resolve style s).isText then .quoted else .plain

mutual

/-- What can be seen of a document. -/
def Node.shown : Node π → Node Unit
  | .scalar _ style s => .scalar () (shownStyle style s) s
  | .sequence _ items => .sequence () (shownList items)
  | .mapping _ entries => .mapping () (shownEntries entries)

/-- What can be seen of a list of documents. -/
def shownList : List (Node π) → List (Node Unit)
  | [] => []
  | n :: rest => n.shown :: shownList rest

/-- What can be seen of keys and values. -/
def shownEntries : List (Node π × Node π) → List (Node Unit × Node Unit)
  | [] => []
  | e :: rest => shownEntry e :: shownEntries rest

/-- What can be seen of a key and its value. -/
def shownEntry : Node π × Node π → Node Unit × Node Unit
  | (k, v) => (k.shown, v.shown)

end

theorem shownList_eq (items : List (Node π)) : shownList items = items.map Node.shown := by
  induction items with
  | nil => rw [shownList, List.map_nil]
  | cons n items ih => rw [shownList, ih, List.map_cons]

theorem shownEntries_eq (entries : List (Node π × Node π)) :
    shownEntries entries = entries.map fun e => (e.1.shown, e.2.shown) := by
  induction entries with
  | nil => rw [shownEntries, List.map_nil]
  | cons e entries ih =>
    obtain ⟨k, v⟩ := e
    rw [shownEntries, shownEntry, ih, List.map_cons]

namespace Node

theorem text_shown (y : Node π) : y.shown.text = y.text := by
  cases y <;> rw [shown] <;> rfl

theorem eq_scalar_of_shown {y : Node π} {style : Style} {s : String}
    (h : y.shown = .scalar () style s) : ∃ m style', y = .scalar m style' s ∧ shownStyle style' s = style := by
  cases y with
  | scalar m style' s' =>
    rw [shown] at h
    injection h with _ hstyle hs
    subst hs
    exact ⟨m, style', rfl, hstyle⟩
  | sequence m items => rw [shown] at h; exact absurd h nofun
  | mapping m entries => rw [shown] at h; exact absurd h nofun

theorem eq_sequence_of_shown {y : Node π} {items : List (Node Unit)} (h : y.shown = .sequence () items) :
    ∃ m items', y = .sequence m items' ∧ items'.map shown = items := by
  cases y with
  | scalar m style s => rw [shown] at h; exact absurd h nofun
  | sequence m items' =>
    rw [shown, shownList_eq] at h
    injection h with _ hitems
    exact ⟨m, items', rfl, hitems⟩
  | mapping m entries => rw [shown] at h; exact absurd h nofun

theorem eq_mapping_of_shown {y : Node π} {entries : List (Node Unit × Node Unit)}
    (h : y.shown = .mapping () entries) :
    ∃ m entries', y = .mapping m entries' ∧ (entries'.map fun e => (e.1.shown, e.2.shown)) = entries := by
  cases y with
  | scalar m style s => rw [shown] at h; exact absurd h nofun
  | sequence m items => rw [shown] at h; exact absurd h nofun
  | mapping m entries' =>
    rw [shown, shownEntries_eq] at h
    injection h with _ hentries
    exact ⟨m, entries', rfl, hentries⟩

/-! ### Depths -/

theorem depth_pos (y : Node π) : 0 < y.depth := by
  cases y <;> rw [depth] <;> exact Nat.succ_pos _

theorem depth_le_of_mem {y : Node π} {items : List (Node π)} (h : y ∈ items) :
    y.depth ≤ depthList items := by
  induction items with
  | nil => exact absurd h nofun
  | cons n items ih =>
    rw [depthList]
    rcases List.mem_cons.mp h with rfl | h
    · exact Nat.le_max_left _ _
    · exact Nat.le_trans (ih h) (Nat.le_max_right _ _)

theorem depth_le_of_mem_entries {e : Node π × Node π} {entries : List (Node π × Node π)}
    (h : e ∈ entries) : e.2.depth ≤ depthEntries entries := by
  induction entries with
  | nil => exact absurd h nofun
  | cons f entries ih =>
    rw [depthEntries]
    rcases List.mem_cons.mp h with rfl | h
    · obtain ⟨k, v⟩ := e
      rw [depthEntry]
      exact Nat.le_trans (Nat.le_max_right _ _) (Nat.le_max_left _ _)
    · exact Nat.le_trans (ih h) (Nat.le_max_right _ _)

end Node

/-! ### What a scalar stands for -/

/-- A scalar that stands for its text is read as it. -/
theorem readText_of_shown {m : Position} {style : Style} {s : String} (h : shownStyle style s = .quoted) :
    readText (.scalar m style s) = .ok (some s) := by
  simp only [readText]
  split
  · rename_i hnull
    simp [shownStyle, hnull, Meaning.isText] at h
  · rfl

/-- Texts that stand for themselves are read as a list of them. -/
theorem readItems_of_shown {ss : List String} {ys : List (Node Position)}
    (h : ys.map Node.shown = ss.map (.scalar () .quoted)) : readItems ys = (ss, []) := by
  induction ss generalizing ys with
  | nil =>
    obtain rfl : ys = [] := List.map_eq_nil_iff.mp h
    rfl
  | cons s ss ih =>
    obtain ⟨y, ys, rfl, hy, hrest⟩ := List.map_eq_cons_iff.mp h
    obtain ⟨m, style, rfl, hstyle⟩ := Node.eq_scalar_of_shown hy
    rw [readItems, readText_of_shown hstyle, ih hrest]
    rfl

theorem readBool_of_shown {m : Position} {style : Style} (h : shownStyle style "true" = .plain) :
    readBool (.scalar m style "true") = .ok true := by
  cases style with
  | quoted => exact absurd h (by decide)
  | plain => rfl

/-! ### Reading back -/

/-- The text that `write` gives for a document shows the document again to `read`. -/
def ReadsBackBy (read : String → Option (Option (Node Position))) (write : Node Unit → String) (n : Node Unit) :
    Prop :=
  (read (write n)).map (Option.map Node.shown) = some (some n)

/-- The text written for a document shows the document again. -/
def ReadsBack (n : Node Unit) : Prop :=
  ReadsBackBy read write n

mutual

/-- Whether two documents without positions are equal. -/
def Node.decEq : (a b : Node Unit) → Decidable (a = b)
  | .scalar () style s, .scalar () style' s' =>
    if h : style = style' ∧ s = s' then isTrue (by rw [h.1, h.2])
    else isFalse fun heq => h (by cases heq; exact ⟨rfl, rfl⟩)
  | .sequence () items, .sequence () items' =>
    match decEqList items items' with
    | isTrue h => isTrue (by rw [h])
    | isFalse h => isFalse fun heq => h (by cases heq; rfl)
  | .mapping () entries, .mapping () entries' =>
    match decEqEntries entries entries' with
    | isTrue h => isTrue (by rw [h])
    | isFalse h => isFalse fun heq => h (by cases heq; rfl)
  | .scalar .., .sequence .. => isFalse nofun
  | .scalar .., .mapping .. => isFalse nofun
  | .sequence .., .scalar .. => isFalse nofun
  | .sequence .., .mapping .. => isFalse nofun
  | .mapping .., .scalar .. => isFalse nofun
  | .mapping .., .sequence .. => isFalse nofun

/-- Whether two lists of documents are equal. -/
def decEqList : (as bs : List (Node Unit)) → Decidable (as = bs)
  | [], [] => isTrue rfl
  | a :: as, b :: bs =>
    match a.decEq b, decEqList as bs with
    | isTrue h, isTrue h' => isTrue (by rw [h, h'])
    | isFalse h, _ => isFalse fun heq => h (List.cons.inj heq).1
    | _, isFalse h => isFalse fun heq => h (List.cons.inj heq).2
  | [], _ :: _ => isFalse nofun
  | _ :: _, [] => isFalse nofun

/-- Whether two lists of entries are equal. -/
def decEqEntries : (as bs : List (Node Unit × Node Unit)) → Decidable (as = bs)
  | [], [] => isTrue rfl
  | a :: as, b :: bs =>
    match decEqEntry a b, decEqEntries as bs with
    | isTrue h, isTrue h' => isTrue (by rw [h, h'])
    | isFalse h, _ => isFalse fun heq => h (List.cons.inj heq).1
    | _, isFalse h => isFalse fun heq => h (List.cons.inj heq).2
  | [], _ :: _ => isFalse nofun
  | _ :: _, [] => isFalse nofun

/-- Whether two entries are equal. -/
def decEqEntry : (a b : Node Unit × Node Unit) → Decidable (a = b)
  | (k, v), (k', v') =>
    match k.decEq k', v.decEq v' with
    | isTrue h, isTrue h' => isTrue (by rw [h, h'])
    | isFalse h, _ => isFalse fun heq => h (Prod.mk.inj heq).1
    | _, isFalse h => isFalse fun heq => h (Prod.mk.inj heq).2

end

instance : DecidableEq (Node Unit) :=
  Node.decEq

instance (n : Node Unit) : Decidable (ReadsBack n) :=
  inferInstanceAs (Decidable (_ = _))

end TypeFlow.Document
