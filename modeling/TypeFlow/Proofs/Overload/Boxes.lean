import TypeFlow.Proofs.Overload.Cover
import TypeFlow.Proofs.Types.Concrete

/-!
# A cover is the union of its boxes

Two sides number the combinations of argument classes. The dispatcher builds them from the left, and every
further argument extends each combination so far by each of its classes (`Overload.product_eq_foldl`). The
cover decodes a number from the right, by remainders and quotients. Both list the same combinations in the
same order, each of them once (`Overload.nodup_product`).

A list of restrictions is a box: it admits the combinations whose classes are, position by position, classes of
its restrictions (`Cover.Admits`). Positions behind the last restriction admit nothing, restrictions behind the
last argument demand nothing. Marking several boxes, in any order and however they overlap, leaves exactly the
combinations outside of their union (`Cover.marked_boxes`).
-/

namespace TypeFlow

namespace Overload

/-- **The product from the left**: every argument extends the combinations of those before it. -/
theorem product_eq_foldl (dims : List (List TypeId)) :
    product dims =
      dims.foldl (fun combinations dim => combinations.flatMap fun xs => dim.map fun m => xs ++ [m]) [[]] := by
  induction dims using List.reverseRecOn with
  | nil => rfl
  | append_singleton dims dim ih => rw [product_append_singleton, ih, List.foldl_append]; rfl

theorem nodup_product {dims : List (List TypeId)} (h : ∀ dim ∈ dims, dim.Nodup) : (product dims).Nodup := by
  induction dims with
  | nil => simp [product]
  | cons dim dims ih =>
    obtain ⟨hdim, hdims⟩ := List.forall_mem_cons.mp h
    refine List.nodup_flatMap.mpr ⟨fun m _ => (ih hdims).map (List.cons_injective), ?_⟩
    -- combinations that start with different classes differ
    refine hdim.imp fun {m m'} hne => List.disjoint_left.mpr fun xs hxs hxs' => hne ?_
    obtain ⟨ys, -, rfl⟩ := List.mem_map.mp hxs
    obtain ⟨ys', -, heq⟩ := List.mem_map.mp hxs'
    exact (List.cons.inj heq).1.symm

end Overload

namespace Cover

open Overload

variable {t : Table}

/-! ### Boxes -/

/-- A list of restrictions admits a combination when every class of it is one of the restriction at its
position. -/
def Admits (t : Table) (box xs : List TypeId) : Prop :=
  ∀ (i : Nat) (x : TypeId), xs[i]? = some x → ∃ restriction, box[i]? = some restriction ∧ x ∈ t.concrete restriction

theorem admits_nil (box : List TypeId) : Admits t box [] := by
  intro i x hx
  simp at hx

theorem not_admits_nil_cons (x : TypeId) (xs : List TypeId) : ¬ Admits t [] (x :: xs) := by
  intro h
  obtain ⟨restriction, hbox, -⟩ := h 0 x rfl
  simp at hbox

theorem admits_cons_cons {restriction x : TypeId} {box xs : List TypeId} :
    Admits t (restriction :: box) (x :: xs) ↔ x ∈ t.concrete restriction ∧ Admits t box xs := by
  constructor
  · intro h
    obtain ⟨r, hr, hx⟩ := h 0 x rfl
    obtain rfl : restriction = r := by simpa using hr
    exact ⟨hx, fun i y hy => by simpa using h (i + 1) y (by simpa using hy)⟩
  · rintro ⟨hx, hxs⟩ (_ | i) y hy
    · obtain rfl : x = y := by simpa using hy
      exact ⟨restriction, rfl, hx⟩
    · simpa using hxs i y (by simpa using hy)

theorem within_iff {box xs : List TypeId} : within (box.map t.concrete) xs = true ↔ Admits t box xs := by
  induction xs generalizing box with
  | nil => cases box <;> simp [within, admits_nil]
  | cons x xs ih =>
    cases box with
    | nil => simp [within, not_admits_nil_cons]
    | cons restriction box => simp [within, admits_cons_cons, ih]

instance (t : Table) (box xs : List TypeId) : Decidable (Admits t box xs) :=
  decidable_of_iff _ within_iff

/-! ### Marking boxes -/

/-- The cover of argument types with some boxes marked, one after another. -/
def ofBoxes (t : Table) (args : List TypeId) (boxes : List (List TypeId)) : Cover :=
  boxes.foldl (Cover.mark t) (ofArgs t args)

theorem dims_ofBoxes (args : List TypeId) (boxes : List (List TypeId)) :
    (ofBoxes t args boxes).dims = args.map t.concrete :=
  dims_foldl_mark t id boxes (ofArgs t args)

/-- A cover with marked boxes records the combinations that some box admits. -/
theorem records_ofBoxes (args : List TypeId) (boxes : List (List TypeId)) :
    (ofBoxes t args boxes).Records fun xs => decide (∃ box ∈ boxes, Admits t box xs) := by
  have h : (ofBoxes t args boxes).Records _ := (records_ofArgs t args).foldl_mark t id boxes
  convert h using 1
  funext xs
  simp [← within_iff, List.any_eq]

/-- **A cover numbers the product and is the union of its boxes.** Before and after any boxes are marked the
decoded numbers list, without repetition, the product of the arguments as the dispatcher builds it. A number is
unmarked exactly when no marked box admits its combination, what is missing are these combinations in order, and
the cover is complete exactly when every combination lies in some marked box. -/
theorem marked_boxes (t : Table) (args : List TypeId) (boxes : List (List TypeId)) :
    let c := ofBoxes t args boxes
    let combinations := product (args.map t.concrete)
    combinations = args.foldl (fun out a => out.flatMap fun xs => (t.concrete a).map fun m => xs ++ [m]) [[]] ∧
    combinations.Nodup ∧
    c.size = (ofArgs t args).size ∧
    (∀ n, c.tuple n = (ofArgs t args).tuple n) ∧
    (List.range c.size).map c.tuple = combinations ∧
    (∀ n < c.size, c.marks[n]? = some false ↔ ¬ ∃ box ∈ boxes, Admits t box (c.tuple n)) ∧
    c.missing = combinations.filter (fun xs => !decide (∃ box ∈ boxes, Admits t box xs)) ∧
    (c.all = true ↔ ∀ xs ∈ combinations, ∃ box ∈ boxes, Admits t box xs) := by
  intro c combinations
  have hdims : c.dims = args.map t.concrete := dims_ofBoxes args boxes
  have hrecords := records_ofBoxes (t := t) args boxes
  have hsize : c.size = volume (args.map t.concrete) := by
    rw [size, hrecords, List.length_map, length_product, hdims]
  refine ⟨?_, ?_, ?_, ?_, ?_, ?_, ?_, ?_⟩
  · exact (product_eq_foldl _).trans List.foldl_map
  · refine nodup_product fun dim hdim => ?_
    obtain ⟨a, -, rfl⟩ := List.mem_map.mp hdim
    exact Table.nodup_of_increasing (Table.concrete_increasing t a)
  · rw [hsize, size, records_ofArgs, List.length_map, length_product]
    rfl
  · intro n
    rw [tuple, hdims]
    rfl
  · rw [hsize, show c.tuple = fun n => (decode (args.map t.concrete).reverse n).reverse by rw [← hdims]; rfl]
    exact map_decode_range _
  · intro n hn
    rw [hrecords.marks_eq, List.getElem?_map, hdims, List.getElem?_range (hsize ▸ hn)]
    simp [c]
  · rw [hrecords.missing_eq, hdims]
  · rw [hrecords.all_eq, hdims]
    simp [combinations]

end Cover

end TypeFlow
