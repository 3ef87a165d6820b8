import Mathlib.Data.List.Induction
import Mathlib.Data.List.Forall2
import TypeFlow.Overload.Cover

/-!
# Covers record predicates on combinations

A cover numbers the combinations of one class per argument, and decodes a number digit by digit, the last
argument first. Decoding the numbers in order lists the product of the arguments in order
(`Cover.map_decode_range`), so a cover is nothing but a predicate on combinations
(`Cover.Records`): marking adds a box to it (`Cover.Records.mark`), and what is missing are the
combinations of the product, in order, without the predicate (`Cover.Records.missing_eq`).
-/

namespace TypeFlow

namespace Overload

/-! ### The product -/

theorem mem_product_cons {dim : List TypeId} {dims : List (List TypeId)} {xs : List TypeId} :
    xs ∈ product (dim :: dims) ↔ ∃ x ∈ dim, ∃ ys ∈ product dims, xs = x :: ys := by
  simp [product, eq_comm]

theorem mem_product {dims : List (List TypeId)} {xs : List TypeId} :
    xs ∈ product dims ↔ List.Forall₂ (fun x dim => x ∈ dim) xs dims := by
  induction dims generalizing xs with
  | nil => simp [product, List.forall₂_nil_right_iff]
  | cons dim rest ih =>
    rw [mem_product_cons]
    constructor
    · rintro ⟨m, hm, ys, hys, rfl⟩
      exact .cons hm (ih.mp hys)
    · rintro (_ | ⟨hm, hys⟩)
      exact ⟨_, hm, _, ih.mpr hys, rfl⟩

/-- What a combination takes for an argument is one of its classes. -/
theorem exists_mem_of_mem_product {α : Type} {f : α → List TypeId} {args : List α} {xs : List TypeId}
    (hxs : xs ∈ product (args.map f)) {x : TypeId} (hx : x ∈ xs) : ∃ a ∈ args, x ∈ f a := by
  induction args generalizing xs with
  | nil =>
    obtain rfl : xs = [] := by simpa [product] using hxs
    exact absurd hx (by simp)
  | cons a args ih =>
    obtain ⟨y, hy, ys, hys, rfl⟩ := mem_product_cons.mp hxs
    rcases List.mem_cons.mp hx with rfl | hx
    · exact ⟨a, List.mem_cons_self, hy⟩
    · obtain ⟨d, hd, hxd⟩ := ih hys hx
      exact ⟨d, List.mem_cons_of_mem _ hd, hxd⟩

theorem product_ne_nil {dims : List (List TypeId)} (h : ∀ dim ∈ dims, dim ≠ []) :
    product dims ≠ [] := by
  induction dims with
  | nil => simp [product]
  | cons dim dims ih =>
    obtain ⟨hdim, hdims⟩ := List.forall_mem_cons.mp h
    obtain ⟨x, hx⟩ := List.exists_mem_of_ne_nil _ hdim
    obtain ⟨ys, hys⟩ := List.exists_mem_of_ne_nil _ (ih hdims)
    exact List.ne_nil_of_mem (mem_product_cons.mpr ⟨x, hx, ys, hys, rfl⟩)

/-- The last argument varies fastest. -/
theorem product_append_singleton (dims : List (List TypeId)) (dim : List TypeId) :
    product (dims ++ [dim]) = (product dims).flatMap fun xs => dim.map fun m => xs ++ [m] := by
  induction dims with
  | nil => simp [product, List.map_eq_flatMap]
  | cons d dims ih =>
    simp only [List.cons_append, product, ih, List.flatMap_assoc, List.map_flatMap, List.flatMap_map,
      List.map_map]
    rfl

end Overload

namespace Cover

open Overload

/-! ### Numbers of combinations -/

/-- The number of combinations of some arguments. -/
def volume (dims : List (List TypeId)) : Nat :=
  dims.foldl (fun n dim => n * dim.length) 1

theorem volume_append_singleton (dims : List (List TypeId)) (dim : List TypeId) :
    volume (dims ++ [dim]) = volume dims * dim.length := by
  simp [volume]

/-- The numbers up to a product, digit by digit. -/
theorem map_range_mul {α : Type} (f : Nat → α) (m n : Nat) :
    (List.range (m * n)).map f =
      (List.range m).flatMap fun q => (List.range n).map fun r => f (q * n + r) := by
  induction m with
  | zero => simp
  | succ m ih =>
    rw [Nat.succ_mul, List.range_add, List.map_append, ih, List.range_succ, List.flatMap_append]
    simp

theorem map_getD_range (dim : List TypeId) :
    (List.range dim.length).map (dim.getD · 0) = dim := by
  refine List.ext_getElem (by simp) fun i h₁ h₂ => ?_
  simp [List.getElem?_eq_getElem h₂]

theorem decode_cons (dim : List TypeId) (rest : List (List TypeId)) {q r : Nat}
    (hr : r < dim.length) :
    decode (dim :: rest) (q * dim.length + r) = dim.getD r 0 :: decode rest q := by
  have hpos : 0 < dim.length := Nat.lt_of_le_of_lt (Nat.zero_le r) hr
  rw [decode, Nat.mul_comm q, Nat.mul_add_mod, Nat.mod_eq_of_lt hr, Nat.mul_add_div hpos,
    Nat.div_eq_of_lt hr, Nat.add_zero]

/-- **The decoded numbers are the product, in order.** -/
theorem map_decode_range (dims : List (List TypeId)) :
    (List.range (volume dims)).map (fun n => (decode dims.reverse n).reverse) = product dims := by
  induction dims using List.reverseRecOn with
  | nil => rfl
  | append_singleton dims dim ih =>
    rw [volume_append_singleton, map_range_mul, product_append_singleton, ← ih, List.flatMap_map]
    refine List.flatMap_congr fun q _ => ?_
    rw [List.reverse_concat]
    calc (List.range dim.length).map
          (fun r => (decode (dim :: dims.reverse) (q * dim.length + r)).reverse)
        = (List.range dim.length).map
          (fun r => (decode dims.reverse q).reverse ++ [dim.getD r 0]) := by
          refine List.map_congr_left fun r hr => ?_
          rw [decode_cons _ _ (List.mem_range.mp hr), List.reverse_cons]
      _ = dim.map fun m => (decode dims.reverse q).reverse ++ [m] := by
          conv_rhs => rw [← map_getD_range dim]
          rw [List.map_map]
          rfl

theorem length_product (dims : List (List TypeId)) : (product dims).length = volume dims := by
  rw [← map_decode_range]
  simp

/-! ### Covers as predicates -/

/-- The cover accepts the combinations with the property `P`. -/
def Records (c : Cover) (P : List TypeId → Bool) : Prop :=
  c.marks = (product c.dims).map P

theorem records_ofArgs (t : Table) (args : List TypeId) :
    (ofArgs t args).Records fun _ => false := by
  have hlen : (product (args.map t.concrete)).length =
      (args.map t.concrete).foldl (fun n dim => n * dim.length) 1 := length_product _
  simp [Records, ofArgs, List.map_const', hlen]

theorem dims_foldl_mark {α : Type} (t : Table) (f : α → List TypeId) (l : List α) (c : Cover) :
    (l.foldl (fun c x => c.mark t (f x)) c).dims = c.dims := by
  induction l generalizing c with
  | nil => rfl
  | cons x l ih => exact ih (c.mark t (f x))

namespace Records

variable {c : Cover} {P : List TypeId → Bool} (h : c.Records P)

include h

/-- The mark with a number is that of the combination with this number. -/
theorem marks_eq : c.marks = (List.range (volume c.dims)).map fun n => P (c.tuple n) := by
  rw [h, ← map_decode_range, List.map_map]
  rfl

/-- Marking accepts the combinations within a box as well. -/
theorem mark (t : Table) (restricted : List TypeId) :
    (c.mark t restricted).Records fun xs => P xs || within (restricted.map t.concrete) xs := by
  have hdims : (c.mark t restricted).dims = c.dims := rfl
  rw [Records, hdims, ← map_decode_range, List.map_map]
  refine List.ext_getElem (by simp [Cover.mark, h.marks_eq]) fun n h₁ h₂ => ?_
  simp [Cover.mark, h.marks_eq, tuple]

omit h in
theorem foldl_mark (h : c.Records P) {α : Type} (t : Table) (f : α → List TypeId) (l : List α) :
    (l.foldl (fun c x => c.mark t (f x)) c).Records fun xs =>
      P xs || l.any fun x => within ((f x).map t.concrete) xs := by
  induction l generalizing c P with
  | nil => simpa using h
  | cons x l ih => simpa [Bool.or_assoc] using ih (h.mark t (f x))

theorem all_eq : c.all = (product c.dims).all P := by
  rw [all, h, List.all_map]
  rfl

/-- **What is missing are the combinations without the property, in order.** -/
theorem missing_eq : c.missing = (product c.dims).filter fun xs => !P xs := by
  have hzip : c.marks.zipIdx =
      (List.range (volume c.dims)).map fun n => (P (c.tuple n), n) := by
    rw [h.marks_eq]
    refine List.ext_getElem (by simp) fun n h₁ h₂ => ?_
    simp
  have hproduct : product c.dims = (List.range (volume c.dims)).map c.tuple :=
    (map_decode_range c.dims).symm
  rw [missing, hzip, hproduct, List.filter_map, List.filter_map, List.map_map]
  rfl

end Records

end Cover

end TypeFlow
