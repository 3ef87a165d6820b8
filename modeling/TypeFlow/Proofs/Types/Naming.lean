import Mathlib.Data.Finset.Card
import Mathlib.Data.List.Forall2
import Mathlib.Order.Interval.Finset.Nat
import TypeFlow.Proofs.Types.Representation

/-!
# Names that end

A name is made from the names of the types that it mentions. It has an end if they have, and following it as many
steps as there are types is enough to find out (`Table.name?_eq_none_iff`): were there a type whose name takes more
steps, then there would be a type for every smaller number of steps as well.

What an entry of a well-formed table mentions is older than the entry, so all names end there, and they stay the same
when the table grows (`Table.WellFormed.nameUpTo_eq`).
-/

namespace TypeFlow

/-! ### Lists that are mapped as far as possible -/

section

variable {α β : Type} {f : α → Option β} {l : List α} {l' : List β}

/-- A list is mapped if each of its entries is. -/
theorem mapM_eq_some_iff : l.mapM f = some l' ↔ List.Forall₂ (fun a b => f a = some b) l l' := by
  induction l generalizing l' with
  | nil => simp [eq_comm]
  | cons a l ih =>
    rw [List.mapM_cons, List.forall₂_cons_left_iff]
    simp only [bind, pure, Option.bind_eq_some_iff, Option.some.injEq, ih]
    exact ⟨fun ⟨b, hb, bs, hbs, h⟩ => ⟨b, bs, hb, hbs, h.symm⟩, fun ⟨b, bs, hb, hbs, h⟩ => ⟨b, hb, bs, hbs, h.symm⟩⟩

/-- What a list is mapped to are the values of its entries. -/
theorem exists_of_mem_mapM (h : l.mapM f = some l') {b : β} (hb : b ∈ l') : ∃ a ∈ l, f a = some b := by
  have hall := mapM_eq_some_iff.mp h
  clear h
  induction hall with
  | nil => cases hb
  | cons hab _ ih =>
    rcases List.mem_cons.mp hb with rfl | hb
    · exact ⟨_, List.mem_cons_self, hab⟩
    · obtain ⟨a, ha, hab⟩ := ih hb
      exact ⟨a, List.mem_cons_of_mem _ ha, hab⟩

theorem isSome_mapM : (l.mapM f).isSome ↔ ∀ a ∈ l, (f a).isSome := by
  induction l with
  | nil => simp
  | cons a l ih =>
    rw [List.mapM_cons, List.forall_mem_cons, ← ih]
    cases f a <;> cases l.mapM f <;> simp

theorem mapM_congr {g : α → Option β} (h : ∀ a ∈ l, g a = f a) : l.mapM g = l.mapM f := by
  induction l with
  | nil => rfl
  | cons a l ih =>
    obtain ⟨ha, hl⟩ := List.forall_mem_cons.mp h
    rw [List.mapM_cons, List.mapM_cons, ha, ih hl]

end

namespace Table

variable {t t' : Table} {id : TypeId} {e : Entry} {fuel fuel' m n : Nat} {name : String}

/-! ### Steps -/

/-- Entries that mention types with the same names have the same name. -/
theorem nameUpTo_congr (hget : t'.get? id = t.get? id)
    (h : ∀ e, t.get? id = some e → ∀ c ∈ e.mentioned, t'.nameUpTo fuel' c = t.nameUpTo fuel c) :
    t'.nameUpTo (fuel' + 1) id = t.nameUpTo (fuel + 1) id := by
  rw [nameUpTo, nameUpTo, hget]
  cases he : t.get? id with
  | none => rfl
  | some e => simp only [mapM_congr (h e he)]

/-- There is a name if there is one for every type that is mentioned. -/
theorem isSome_nameUpTo_succ (he : t.get? id = some e) :
    (t.nameUpTo (fuel + 1) id).isSome ↔ ∀ c ∈ e.mentioned, (t.nameUpTo fuel c).isSome := by
  rw [nameUpTo, he]
  simp only [Option.isSome_map, isSome_mapM]

/-- No type is named at once. -/
theorem isSome_nameUpTo_of_none (he : t.get? id = none) : (t.nameUpTo (fuel + 1) id).isSome := by
  rw [nameUpTo, he]
  rfl

/-- More steps give the same name. -/
theorem nameUpTo_mono (h : t.nameUpTo fuel id = some name) (hle : fuel ≤ fuel') :
    t.nameUpTo fuel' id = some name := by
  induction fuel generalizing fuel' id name with
  | zero => cases h
  | succ fuel ih =>
    obtain ⟨k, rfl⟩ := Nat.exists_eq_add_of_le' (Nat.le_of_succ_le hle)
    cases k with
    | zero => exact absurd hle (by omega)
    | succ k =>
      rw [show k + 1 + fuel = k + fuel + 1 by omega, ← h]
      refine nameUpTo_congr rfl fun e he c hc => ?_
      obtain ⟨s, hs⟩ := Option.isSome_iff_exists.mp ((isSome_nameUpTo_succ he).mp (by rw [h]; rfl) c hc)
      rw [ih hs (Nat.le_add_left fuel k), hs]

/-- The name of a type takes `n` steps, and no fewer. -/
def NamedIn (t : Table) (n : Nat) (id : TypeId) : Prop :=
  (t.nameUpTo n id).isSome ∧ ∀ m < n, t.nameUpTo m id = none

theorem exists_namedIn (h : (t.nameUpTo fuel id).isSome) : ∃ n ≤ fuel, t.NamedIn n id := by
  induction fuel with
  | zero => exact ⟨0, le_rfl, h, fun m hm => absurd hm (Nat.not_lt_zero m)⟩
  | succ fuel ih =>
    by_cases hless : (t.nameUpTo fuel id).isSome
    · obtain ⟨n, hn, hnamed⟩ := ih hless
      exact ⟨n, Nat.le_succ_of_le hn, hnamed⟩
    · refine ⟨fuel + 1, le_rfl, h, fun m hm => Option.eq_none_iff_forall_not_mem.mpr fun s hs => hless ?_⟩
      rw [nameUpTo_mono hs (Nat.le_of_lt_succ hm)]
      rfl

theorem NamedIn.unique (hm : t.NamedIn m id) (hn : t.NamedIn n id) : m = n := by
  have hle : ∀ {m n}, t.NamedIn m id → t.NamedIn n id → m ≤ n := fun {m n} hm hn =>
    Nat.le_of_not_lt fun hlt => absurd hn.1 (by rw [hm.2 n hlt]; exact Bool.false_ne_true)
  exact Nat.le_antisymm (hle hm hn) (hle hn hm)

/-- A type whose name takes more than one step mentions one whose name takes one step less. -/
theorem NamedIn.exists_pred (h : t.NamedIn (n + 2) id) : ∃ c, t.NamedIn (n + 1) c := by
  have hunnamed := h.2 (n + 1) (Nat.lt_succ_self _)
  cases he : t.get? id with
  | none => exact absurd (isSome_nameUpTo_of_none he) (by rw [hunnamed]; exact Bool.false_ne_true)
  | some e =>
    have hall := (isSome_nameUpTo_succ he).mp h.1
    have hnot : ¬ ∀ c ∈ e.mentioned, (t.nameUpTo n c).isSome := fun hn =>
      absurd ((isSome_nameUpTo_succ he).mpr hn) (by rw [hunnamed]; exact Bool.false_ne_true)
    obtain ⟨c, hc, hnone⟩ : ∃ c ∈ e.mentioned, ¬ (t.nameUpTo n c).isSome := by
      by_contra hall
      exact hnot fun c hc => by_contra fun h => hall ⟨c, hc, h⟩
    obtain ⟨k, hk, hnamed⟩ := exists_namedIn (hall c hc)
    have hkn : ¬ k ≤ n := by
      intro hle
      obtain ⟨s, hs⟩ := Option.isSome_iff_exists.mp hnamed.1
      rw [nameUpTo_mono hs hle] at hnone
      exact hnone rfl
    obtain rfl : k = n + 1 := by omega
    exact ⟨c, hnamed⟩

/-- There are names for all smaller numbers of steps. -/
theorem NamedIn.exists_of_le (h : t.NamedIn n id) (hpos : 0 < m) (hle : m ≤ n) : ∃ c, t.NamedIn m c := by
  induction n generalizing id with
  | zero => omega
  | succ n ih =>
    rcases Nat.eq_or_lt_of_le hle with rfl | hlt
    · exact ⟨id, h⟩
    cases n with
    | zero => omega
    | succ n =>
      obtain ⟨c, hc⟩ := h.exists_pred
      exact ih hc (Nat.le_of_lt_succ hlt)

/-- Of a name that takes more than one step there is a type. -/
theorem NamedIn.get?_ne_none (h : t.NamedIn (n + 2) id) : t.get? id ≠ none := fun hnone =>
  absurd (isSome_nameUpTo_of_none hnone) (by rw [h.2 (n + 1) (Nat.lt_succ_self _)]; exact Bool.false_ne_true)

/-- No name takes more steps than there are types, and one for no type. -/
theorem NamedIn.le_size (h : t.NamedIn n id) : n ≤ t.size := by
  by_contra hlt
  have hmany : ∀ k ∈ Finset.Icc 2 n, ∃ c, t.NamedIn k c := fun k hk =>
    h.exists_of_le (by have := (Finset.mem_Icc.mp hk).1; omega) (Finset.mem_Icc.mp hk).2
  choose! naming hnaming using hmany
  -- different numbers of steps name different types
  have hcard := Finset.card_le_card_of_injOn (s := Finset.Icc 2 n) (t := Finset.Ico 1 t.size) naming
    (fun k hk => by
      obtain ⟨j, rfl⟩ := Nat.exists_eq_add_of_le' (Finset.mem_Icc.mp hk).1
      obtain ⟨e, he⟩ := Option.ne_none_iff_exists'.mp (hnaming _ hk).get?_ne_none
      exact Finset.mem_coe.mpr (Finset.mem_Ico.mpr ⟨pos_of_get? he, lt_size_of_get? he⟩))
    fun j hj k hk heq => (hnaming j hj).unique (heq ▸ hnaming k hk)
  rw [Nat.card_Icc, Nat.card_Ico] at hcard
  have hsize : 0 < t.size := Nat.succ_pos _
  omega

/-- **A name that has an end is found.** -/
theorem name?_eq_none_iff : t.name? id = none ↔ ∀ fuel, t.nameUpTo fuel id = none := by
  refine ⟨fun h fuel => Option.eq_none_iff_forall_not_mem.mpr fun s hs => ?_, fun h => h _⟩
  obtain ⟨n, -, hnamed⟩ := exists_namedIn (Option.isSome_iff_exists.mpr ⟨s, hs⟩)
  obtain ⟨s, hs⟩ := Option.isSome_iff_exists.mp hnamed.1
  rw [name?, nameUpTo_mono hs hnamed.le_size] at h
  cases h

/-- The name of a type that is found in some number of steps. -/
theorem name_eq_of_nameUpTo (h : t.nameUpTo fuel id = some name) : t.name? id = some name := by
  cases hname : t.name? id with
  | none => rw [name?_eq_none_iff.mp hname fuel] at h; cases h
  | some s =>
    rw [name?] at hname
    rcases Nat.le_total fuel t.size with hle | hle
    · rw [nameUpTo_mono h hle] at hname
      exact hname.symm
    · rw [nameUpTo_mono hname hle] at h
      exact h

/-! ### Well-formed tables -/

/-- What an entry mentions is older than the entry. -/
theorem WellFormed.mentioned_lt (h : WellFormed t) (he : t.get? id = some e) : ∀ c ∈ e.mentioned, c < id := by
  intro c hc
  refine h.links_lt he c ?_
  cases e with
  | object o =>
    have ha : c ∈ o.madeFor := h.args he ▸ hc
    exact List.mem_cons_of_mem _ (List.mem_cons_of_mem _ ha)
  | const name owner value =>
    rw [Entry.mentioned] at hc
    split at hc
    · cases hc
    · exact hc
  | primitive _ | typeVar _ | lib _ => cases hc
  | _ => exact hc

/-- The name of a type is found in as many steps as its number allows, and stays the same. -/
theorem WellFormed.nameUpTo_eq (h : WellFormed t) (hg : Grown t t') (hid : id < t.size) (hf : id < fuel)
    (hf' : id < fuel') : t'.nameUpTo fuel' id = t.nameUpTo fuel id := by
  induction fuel generalizing fuel' id with
  | zero => exact absurd hf (Nat.not_lt_zero _)
  | succ fuel ih =>
    cases fuel' with
    | zero => exact absurd hf' (Nat.not_lt_zero _)
    | succ fuel' =>
      refine nameUpTo_congr (hg.get?_eq hid) fun e he c hc => ?_
      have hlt := h.mentioned_lt he c hc
      exact ih (Nat.lt_trans hlt hid) (by lia) (by lia)

theorem WellFormed.isSome_nameUpTo (h : WellFormed t) (hf : id < fuel) : (t.nameUpTo fuel id).isSome := by
  induction fuel generalizing id with
  | zero => exact absurd hf (Nat.not_lt_zero _)
  | succ fuel ih =>
    cases he : t.get? id with
    | none => exact isSome_nameUpTo_of_none he
    | some e =>
      refine (isSome_nameUpTo_succ he).mpr fun c hc => ih ?_
      have hlt := h.mentioned_lt he c hc
      lia

/-- **Names end on well-formed tables.** -/
theorem WellFormed.isSome_name? (h : WellFormed t) (id : TypeId) : (t.name? id).isSome := by
  obtain ⟨s, hs⟩ := Option.isSome_iff_exists.mp (h.isSome_nameUpTo (Nat.lt_succ_self id))
  rw [name_eq_of_nameUpTo hs]
  rfl

theorem Grown.name_eq (hg : Grown t t') (h : WellFormed t) (hid : id < t.size) : t'.name id = t.name id := by
  rw [name, name, name?, name?, h.nameUpTo_eq hg hid hid (hg.lt_size hid)]

end Table

end TypeFlow
