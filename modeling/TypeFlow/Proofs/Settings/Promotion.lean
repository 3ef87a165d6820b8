import Mathlib.Data.Prod.Lex
import TypeFlow.Settings.Numeric

/-!
# The kinds of a tower and their promotion

A tower that is accepted declares kinds with distinct names, and mentions no others (`Valid`). So what two of them
promote to is a declared kind again.

Without explicit promotions the kinds are ranked, floats above integers and then by size, and the promotion is the
one of higher rank, the left one of two with the same rank (`promote_name`). All laws of the promotion are laws of
this choice: it is one of the two, its rank is the larger one, and choosing among three is associative.
-/

namespace TypeFlow

/-- A chain of checks succeeds if each of them does. -/
theorem Except.exists_of_bind {ε α β : Type} {x : Except ε α} {f : α → Except ε β} {b : β} (h : x >>= f = .ok b) :
    ∃ a, x = .ok a ∧ f a = .ok b := by
  cases x with
  | error e => cases h
  | ok a => exact ⟨a, rfl, h⟩

namespace NumericKind

/-- The rank of a kind: floats rank above integers, and among either the wider ones rank higher. -/
def rank (k : NumericKind) : Bool ×ₗ Int :=
  toLex (k.float, k.size)

/-- The kind of higher rank, or the left one of two with the same rank. -/
def wider (l r : NumericKind) : NumericKind :=
  if l.rank < r.rank then r else l

variable {l r k : NumericKind}

theorem rank_lt_rank : l.rank < r.rank ↔ (l.float = false ∧ r.float = true) ∨ (l.float = r.float ∧ l.size < r.size) := by
  rw [rank, rank, Prod.Lex.toLex_lt_toLex, Bool.lt_iff]

theorem wider_eq_or (l r : NumericKind) : wider l r = l ∨ wider l r = r := by
  unfold wider
  split
  · exact .inr rfl
  · exact .inl rfl

/-- The rank of the wider kind is the larger one. -/
theorem rank_wider (l r : NumericKind) : (wider l r).rank = max l.rank r.rank := by
  unfold wider
  split
  · rename_i h
    exact (max_eq_right h.le).symm
  · rename_i h
    exact (max_eq_left (not_lt.mp h)).symm

theorem float_wider (l r : NumericKind) : (wider l r).float = (l.float || r.float) := by
  unfold wider
  split
  · rename_i h
    rcases rank_lt_rank.mp h with ⟨hl, hr⟩ | ⟨heq, -⟩
    · rw [hl, hr, Bool.false_or]
    · rw [heq, Bool.or_self]
  · rename_i h
    rw [rank_lt_rank] at h
    cases hl : l.float <;> cases hr : r.float <;> simp_all

/-- The wider kind has the largest size among those that are floats if it is one, and integers if it is not. -/
theorem size_le_wider (hk : k = l ∨ k = r) (hfloat : k.float = (wider l r).float) : k.size ≤ (wider l r).size := by
  have hle : k.rank ≤ (wider l r).rank := by
    rw [rank_wider]
    rcases hk with rfl | rfl
    · exact le_max_left _ _
    · exact le_max_right _ _
  rcases Prod.Lex.toLex_le_toLex.mp hle with hlt | ⟨-, hsize⟩
  · exact absurd hfloat hlt.ne
  · exact hsize

theorem wider_assoc (a b c : NumericKind) : wider (wider a b) c = wider a (wider b c) := by
  have hab := rank_wider a b
  have hbc := rank_wider b c
  unfold wider at *
  by_cases h₁ : a.rank < b.rank <;> by_cases h₂ : b.rank < c.rank
  · simp only [h₁, h₂, if_true, h₁.trans h₂]
  · simp only [h₁, h₂, if_true, if_false]
  · simp only [h₁, h₂, if_true, if_false]
  · simp only [h₁, h₂, if_false]
    exact if_neg fun h => h₂ ((not_lt.mp h₁).trans_lt h)

end NumericKind

namespace NumericTower

/-- The names of the declared kinds. -/
def names (n : NumericTower) : List String :=
  n.kinds.map (·.name)

/-- Kinds have distinct names, and nothing else is mentioned. -/
structure Valid (n : NumericTower) : Prop where
  kinds : n.kinds ≠ []
  named : "" ∉ n.names
  nodup : n.names.Nodup
  int : n.intLiteral ∈ n.names
  float : n.floatLiteral ∈ n.names
  promotions : ∀ p ∈ n.promotions, p.left ∈ n.names ∧ p.right ∈ n.names ∧ p.result ∈ n.names

theorem of_checkKinds {seen out : List String} {ks : List NumericKind} (h : checkKinds seen ks = .ok out) :
    out = (ks.map (·.name)).reverse ++ seen ∧ "" ∉ ks.map (·.name) ∧
      (ks.map (·.name)).Nodup ∧ ∀ name ∈ ks.map (·.name), name ∉ seen := by
  induction ks generalizing seen with
  | nil =>
    obtain rfl := Except.ok.inj h
    simp
  | cons k ks ih =>
    rw [checkKinds] at h
    split at h
    · cases h
    · rename_i hname
      split at h
      · cases h
      · rename_i hseen
        obtain ⟨rfl, hnamed, hnodup, hfresh⟩ := ih h
        simp only [beq_iff_eq, List.contains_iff_mem] at hname hseen
        refine ⟨by simp, ?_, ?_, ?_⟩
        · exact List.not_mem_cons_of_ne_of_not_mem (Ne.symm hname) hnamed
        · exact List.nodup_cons.mpr ⟨fun hmem => hfresh _ hmem List.mem_cons_self, hnodup⟩
        · refine List.forall_mem_cons.mpr ⟨hseen, fun name hmem hold => ?_⟩
          exact hfresh name hmem (List.mem_cons_of_mem _ hold)

theorem of_checkLiterals {seen names : List String} (h : checkLiterals seen names = .ok ()) :
    ∀ name ∈ names, name ∈ seen := by
  induction names with
  | nil => exact fun name hname => absurd hname List.not_mem_nil
  | cons x names ih =>
    rw [checkLiterals] at h
    split at h
    · rename_i hx
      exact List.forall_mem_cons.mpr ⟨List.contains_iff_mem.mp hx, ih h⟩
    · cases h

theorem of_checkPromotions {seen : List String} {ps : List Promotion} (h : checkPromotions seen ps = .ok ()) :
    ∀ p ∈ ps, p.left ∈ seen ∧ p.right ∈ seen ∧ p.result ∈ seen := by
  induction ps with
  | nil => exact fun p hp => absurd hp List.not_mem_nil
  | cons p ps ih =>
    rw [checkPromotions] at h
    split at h
    · cases h
    · rename_i hnone
      refine List.forall_mem_cons.mpr ⟨?_, ih h⟩
      simpa using List.find?_eq_none.mp hnone

/-- An accepted tower is valid. -/
theorem valid_of_validate {n : NumericTower} (h : n.validate = .ok ()) : n.Valid := by
  rw [validate] at h
  split at h
  · cases h
  · rename_i hkinds
    obtain ⟨seen, hseen, h⟩ := Except.exists_of_bind h
    obtain ⟨_, hliterals, hpromotions⟩ := Except.exists_of_bind h
    obtain ⟨rfl, hnamed, hnodup, -⟩ := of_checkKinds hseen
    have hmem : ∀ name, name ∈ (n.kinds.map (·.name)).reverse ++ [] ↔ name ∈ n.names := by
      simp [names]
    have hliteral := of_checkLiterals hliterals
    refine ⟨by simpa using hkinds, hnamed, hnodup, ?_, ?_, fun p hp => ?_⟩
    · exact (hmem _).mp (hliteral _ (by simp))
    · exact (hmem _).mp (hliteral _ (by simp))
    · simpa only [hmem] using of_checkPromotions hpromotions p hp

namespace Valid

variable {n : NumericTower} {l r k : NumericKind}

/-- A declared kind is found by its name. -/
theorem kind?_name (h : n.Valid) (hk : k ∈ n.kinds) : n.kind? k.name = some k := by
  have hnodup : n.kinds.Pairwise fun a b => a.name ≠ b.name := List.pairwise_map.mp h.nodup
  obtain ⟨before, after, hsplit⟩ := List.append_of_mem hk
  rw [hsplit, List.pairwise_append] at hnodup
  rw [kind?, hsplit, List.find?_append, List.find?_eq_none.mpr, Option.none_or, List.find?_cons_of_pos]
  · simp
  · intro a ha
    simpa using hnodup.2.2 a ha k List.mem_cons_self

/-- Declared kinds promote to a declared one. -/
theorem promote_mem (h : n.Valid) {left right : String} (hl : left ∈ n.names) (hr : right ∈ n.names) :
    n.promote left right ∈ n.names := by
  unfold promote
  split
  · rename_i p hp
    exact (h.promotions p (List.mem_of_find?_eq_some hp)).2.2
  · simp only
    split
    · split
      · exact hr
      · exact hl
    · split
      · exact hr
      · exact hl

/-- Without explicit promotions the wider of two kinds is what they promote to. -/
theorem promote_name (h : n.Valid) (hnone : n.promotions = []) (hl : l ∈ n.kinds) (hr : r ∈ n.kinds) :
    n.promote l.name r.name = (l.wider r).name := by
  rw [promote, hnone, List.find?_nil, h.kind?_name hl, h.kind?_name hr, NumericKind.wider]
  simp only [Option.getD_some]
  by_cases hlt : l.rank < r.rank
  · rw [if_pos hlt]
    rcases NumericKind.rank_lt_rank.mp hlt with ⟨hfl, hfr⟩ | ⟨heq, hsize⟩
    · simp [hfl, hfr]
    · simp [heq, hsize]
  · rw [if_neg hlt]
    rw [NumericKind.rank_lt_rank] at hlt
    by_cases hfl : l.float = true <;> by_cases hfr : r.float = true <;> simp_all

theorem wider_mem (hl : l ∈ n.kinds) (hr : r ∈ n.kinds) : l.wider r ∈ n.kinds := by
  rcases NumericKind.wider_eq_or l r with h | h
  · rwa [h]
  · rwa [h]

/-- Without explicit promotions it does not matter which of two operations is done first. -/
theorem promote_assoc (h : n.Valid) (hnone : n.promotions = []) {a b c : NumericKind} (ha : a ∈ n.kinds)
    (hb : b ∈ n.kinds) (hc : c ∈ n.kinds) :
    n.promote (n.promote a.name b.name) c.name = n.promote a.name (n.promote b.name c.name) := by
  rw [h.promote_name hnone ha hb, h.promote_name hnone hb hc, h.promote_name hnone (wider_mem ha hb) hc,
    h.promote_name hnone ha (wider_mem hb hc), NumericKind.wider_assoc]

end Valid

end NumericTower

end TypeFlow
