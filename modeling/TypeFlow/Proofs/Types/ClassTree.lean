import Mathlib.Order.Basic
import TypeFlow.Types.Ancestry
import TypeFlow.Proofs.Types.Representation

/-!
# The class tree

On a table where every superclass is older than its class (`Tiered`), as on a well-formed one, climbing ends at a
root after `depth` steps. `Below t a b` says that `b` is among the classes met on the way up from `a`; the
classes above one class form a chain, on which a class is determined by its depth.

`commonAncestor` of two classes that share the ancestor directly below a root is their nearest common
ancestor (`Tiered.nearest_commonAncestor`): it is above both, and below everything that is. The
joining of types uses no other property of it, stated for arbitrarily many classes as `Nearest`.

None of this changes when the table is extended: the superclass of a class is part of its core.
-/

namespace TypeFlow.Table

variable {t t' : Table}

/-! ### Climbing -/

@[simp] theorem superclass_zero (t : Table) : t.superclass 0 = 0 := rfl

theorem superclass_eq_zero_of_le {id : TypeId} (h : t.size ≤ id) : t.superclass id = 0 := by
  have hnone : t.get? id = none := by
    rw [← Option.not_isSome_iff_eq_none, isSome_get?_iff]
    lia
  simp [superclass, object?, hnone]

theorem climb_succ_right (t : Table) (n : Nat) (id : TypeId) :
    t.climb (n + 1) id = t.superclass (t.climb n id) := by
  induction n generalizing id with
  | zero => rfl
  | succ n ih => rw [climb, ih, climb]

theorem climb_add (t : Table) (m n : Nat) (id : TypeId) :
    t.climb (m + n) id = t.climb m (t.climb n id) := by
  induction m with
  | zero => rw [Nat.zero_add, climb]
  | succ m ih => rw [Nat.add_right_comm, climb_succ_right, ih, climb_succ_right]

/-- Every superclass is older than its class. -/
structure Tiered (t : Table) : Prop where
  superclass_lt : ∀ {id : TypeId}, t.superclass id ≠ 0 → t.superclass id < id

/-- A superclass has a lower number than its class. -/
theorem WellFormed.superclass_lt (h : WellFormed t) {id : TypeId} (hs : t.superclass id ≠ 0) :
    t.superclass id < id := by
  unfold Table.superclass at hs ⊢
  split
  · rename_i o ho
    exact h.links_lt (object?_eq_some_iff.mp ho) _ List.mem_cons_self
  · rename_i hnone
    rw [hnone] at hs
    exact absurd rfl hs

theorem WellFormed.tiered (h : WellFormed t) : Tiered t :=
  ⟨h.superclass_lt⟩

namespace Tiered

/-! ### Depth -/

theorem depthUpTo_eq (h : Tiered t) {m n : Nat} {id : TypeId} (hm : id ≤ m) (hn : id ≤ n) :
    t.depthUpTo m id = t.depthUpTo n id := by
  induction m generalizing n id with
  | zero =>
    obtain rfl : id = 0 := Nat.le_zero.mp hm
    cases n <;> simp [depthUpTo]
  | succ m ih =>
    cases n with
    | zero =>
      obtain rfl : id = 0 := Nat.le_zero.mp hn
      simp [depthUpTo]
    | succ n =>
      rw [depthUpTo, depthUpTo]
      split
      · rfl
      · rename_i hs
        have hlt := h.superclass_lt hs
        rw [ih (n := n) (by lia) (by lia)]

/-- The depth of a class is one more than that of its superclass. -/
theorem depth_eq (h : Tiered t) (id : TypeId) :
    t.depth id = if t.superclass id = 0 then 0 else t.depth (t.superclass id) + 1 := by
  have hsize := t.size_pos
  rw [depth, depth, show t.size = (t.size - 1) + 1 by omega, depthUpTo]
  split
  · rfl
  · rename_i hs
    have hlt := h.superclass_lt hs
    have hid : id < t.size := by
      by_contra hge
      exact hs (superclass_eq_zero_of_le (Nat.le_of_not_lt hge))
    rw [h.depthUpTo_eq (n := t.size - 1 + 1) (by lia) (by lia)]

theorem depth_eq_zero_iff (h : Tiered t) {id : TypeId} :
    t.depth id = 0 ↔ t.superclass id = 0 := by
  rw [h.depth_eq id]
  split <;> simp_all

theorem depth_superclass (h : Tiered t) {id : TypeId} (hd : t.depth id ≠ 0) :
    t.depth (t.superclass id) = t.depth id - 1 := by
  rw [h.depth_eq id, if_neg (fun hs => hd (h.depth_eq_zero_iff.mpr hs)), Nat.add_sub_cancel]

theorem depth_climb (h : Tiered t) {n : Nat} {id : TypeId} (hn : n ≤ t.depth id) :
    t.depth (t.climb n id) = t.depth id - n := by
  induction n with
  | zero => rfl
  | succ n ih =>
    rw [climb_succ_right, h.depth_superclass, ih (by omega)]
    · omega
    · rw [ih (by omega)]
      omega

theorem climb_ne_zero (h : Tiered t) {n : Nat} {id : TypeId} (hid : id ≠ 0)
    (hn : n ≤ t.depth id) : t.climb n id ≠ 0 := by
  cases n with
  | zero => exact hid
  | succ n =>
    rw [climb_succ_right]
    intro hs
    have hd : t.depth (t.climb n id) = t.depth id - n := h.depth_climb (by omega)
    rw [h.depth_eq_zero_iff.mpr hs] at hd
    omega

theorem climb_lt_size (h : Tiered t) {n : Nat} {id : TypeId} (hid : id < t.size) :
    t.climb n id < t.size := by
  induction n with
  | zero => exact hid
  | succ n ih =>
    rw [climb_succ_right]
    by_cases hs : t.superclass (t.climb n id) = 0
    · rw [hs]
      exact t.size_pos
    · exact Nat.lt_trans (h.superclass_lt hs) ih

theorem depth_le (h : Tiered t) (id : TypeId) : t.depth id ≤ id := by
  induction id using Nat.strongRecOn with
  | ind id ih =>
    rw [h.depth_eq id]
    split
    · exact Nat.zero_le _
    · rename_i hs
      have hlt := h.superclass_lt hs
      have := ih _ hlt
      lia

end Tiered

/-! ### The order of the tree -/

/-- The class `b` is `a` or one of its superclasses. -/
def Below (t : Table) (a b : TypeId) : Prop :=
  ∃ n ≤ t.depth a, t.climb n a = b

theorem Below.refl (t : Table) (a : TypeId) : Below t a a :=
  ⟨0, Nat.zero_le _, rfl⟩

namespace Tiered

/-- A class above another one is found by climbing the difference of depths. -/
theorem below_iff (h : Tiered t) {a b : TypeId} :
    Below t a b ↔ t.depth b ≤ t.depth a ∧ t.climb (t.depth a - t.depth b) a = b := by
  constructor
  · rintro ⟨n, hn, rfl⟩
    rw [h.depth_climb hn]
    refine ⟨Nat.sub_le _ _, ?_⟩
    rw [Nat.sub_sub_self hn]
  · rintro ⟨hle, hb⟩
    exact ⟨_, Nat.sub_le _ _, hb⟩

theorem below_trans (h : Tiered t) {a b c : TypeId} (hab : Below t a b) (hbc : Below t b c) :
    Below t a c := by
  obtain ⟨m, hm, rfl⟩ := hab
  obtain ⟨n, hn, rfl⟩ := hbc
  rw [h.depth_climb hm] at hn
  exact ⟨n + m, by omega, t.climb_add n m a⟩

theorem below_antisymm (h : Tiered t) {a b : TypeId} (hab : Below t a b) (hba : Below t b a) :
    a = b := by
  obtain ⟨hle, hb⟩ := h.below_iff.mp hab
  have hge := (h.below_iff.mp hba).1
  rwa [Nat.sub_eq_zero_of_le hge, climb] at hb

/-- The classes above one class form a chain. -/
theorem below_of_depth_le (h : Tiered t) {a b c : TypeId} (hab : Below t a b)
    (hac : Below t a c) (hd : t.depth c ≤ t.depth b) : Below t b c := by
  obtain ⟨hb, hb'⟩ := h.below_iff.mp hab
  obtain ⟨hc, hc'⟩ := h.below_iff.mp hac
  refine h.below_iff.mpr ⟨hd, ?_⟩
  calc t.climb (t.depth b - t.depth c) b
      = t.climb (t.depth b - t.depth c) (t.climb (t.depth a - t.depth b) a) := by rw [hb']
    _ = t.climb (t.depth a - t.depth c) a := by
        rw [← t.climb_add, show t.depth b - t.depth c + (t.depth a - t.depth b) =
          t.depth a - t.depth c by omega]
    _ = c := hc'

theorem below_lt_size (h : Tiered t) {a b : TypeId} (ha : a < t.size) (hab : Below t a b) :
    b < t.size := by
  obtain ⟨n, -, rfl⟩ := hab
  exact h.climb_lt_size ha

/-! ### The ancestor directly below a root -/

theorem topUpTo_eq (h : Tiered t) {fuel : Nat} {id : TypeId} (hfuel : id ≤ fuel) :
    t.topUpTo fuel id = if t.depth id = 0 then 0 else t.climb (t.depth id - 1) id := by
  induction fuel generalizing id with
  | zero =>
    obtain rfl : id = 0 := Nat.le_zero.mp hfuel
    simp [topUpTo, h.depth_eq_zero_iff]
  | succ fuel ih =>
    rw [topUpTo]
    split
    · rename_i hs
      rw [if_pos (h.depth_eq_zero_iff.mpr hs)]
    · rename_i hs
      have hd : t.depth id ≠ 0 := fun hd => hs (h.depth_eq_zero_iff.mp hd)
      have hd' := h.depth_superclass hd
      rw [if_neg hd]
      split
      · rename_i hss
        rw [h.depth_eq_zero_iff.mpr hss] at hd'
        rw [← hd', climb]
      · rename_i hss
        have hlt := h.superclass_lt hs
        have hds : t.depth (t.superclass id) ≠ 0 := fun hd => hss (h.depth_eq_zero_iff.mp hd)
        rw [ih (by lia), if_neg hds, hd']
        obtain ⟨k, hk⟩ : ∃ k, t.depth id = k + 2 := ⟨t.depth id - 2, by omega⟩
        rw [hk]
        rfl

/-- The ancestor directly below a root is the one of depth one. -/
theorem topAncestor_eq (h : Tiered t) (id : TypeId) :
    t.topAncestor id = if t.depth id = 0 then 0 else t.climb (t.depth id - 1) id := by
  rcases Nat.lt_or_ge id t.size with hlt | hge
  · exact h.topUpTo_eq (Nat.le_of_lt hlt)
  · have hs := superclass_eq_zero_of_le hge
    rw [if_pos (h.depth_eq_zero_iff.mpr hs), topAncestor]
    cases t.size <;> simp [topUpTo, hs]

theorem topAncestor_eq_zero_iff (h : Tiered t) {id : TypeId} :
    t.topAncestor id = 0 ↔ t.depth id = 0 := by
  rw [h.topAncestor_eq]
  split
  · simp_all
  · rename_i hd
    refine iff_of_false (h.climb_ne_zero ?_ (Nat.sub_le _ _)) hd
    rintro rfl
    exact hd (h.depth_eq_zero_iff.mpr rfl)

theorem below_topAncestor (h : Tiered t) {id : TypeId} (ht : t.topAncestor id ≠ 0) :
    Below t id (t.topAncestor id) ∧ t.depth (t.topAncestor id) = 1 := by
  have hd : t.depth id ≠ 0 := fun hd => ht (h.topAncestor_eq_zero_iff.mpr hd)
  rw [h.topAncestor_eq, if_neg hd]
  refine ⟨⟨_, Nat.sub_le _ _, rfl⟩, ?_⟩
  rw [h.depth_climb (Nat.sub_le _ _)]
  omega

/-- Classes below a class that is no root share its ancestor directly below a root. -/
theorem topAncestor_eq_of_below (h : Tiered t) {a b : TypeId} (hab : Below t a b)
    (hb : t.topAncestor b ≠ 0) : t.topAncestor a = t.topAncestor b := by
  obtain ⟨hbt, hd⟩ := h.below_topAncestor hb
  have hat : Below t a (t.topAncestor b) := h.below_trans hab hbt
  obtain ⟨hle, hclimb⟩ := h.below_iff.mp hat
  have ha : t.depth a ≠ 0 := by omega
  rw [h.topAncestor_eq a, if_neg ha, ← hd]
  exact hclimb

end Tiered

/-! ### Nearest common ancestors -/

/-- The class `a` is above all of the classes `C` and below every other class that is. -/
structure Nearest (t : Table) (C : TypeId → Prop) (a : TypeId) : Prop where
  above : ∀ c, C c → Below t c a
  least : ∀ b, (∀ c, C c → Below t c b) → Below t a b

theorem Tiered.nearest_unique (h : Tiered t) {C : TypeId → Prop} {a b : TypeId}
    (ha : Nearest t C a) (hb : Nearest t C b) : a = b :=
  h.below_antisymm (ha.least b hb.above) (hb.least a ha.above)

theorem Nearest.singleton (t : Table) (a : TypeId) : Nearest t (· = a) a :=
  ⟨fun _ hc => hc ▸ Below.refl t a, fun _ hb => hb a rfl⟩

/-- Two classes of one depth that meet at all meet first where `meet` says. -/
theorem Tiered.meet_spec (h : Tiered t) {fuel : Nat} {a b : TypeId}
    (hd : t.depth a = t.depth b)
    (hex : ∃ k ≤ t.depth a, k ≤ fuel ∧ t.climb k a = t.climb k b) :
    ∃ k ≤ t.depth a, t.meet fuel a b = t.climb k a ∧ t.climb k a = t.climb k b ∧
      ∀ j < k, t.climb j a ≠ t.climb j b := by
  induction fuel generalizing a b with
  | zero =>
    obtain ⟨k, -, hk0, hk⟩ := hex
    obtain rfl : k = 0 := by omega
    exact ⟨0, Nat.zero_le _, rfl, hk, by simp⟩
  | succ fuel ih =>
    rw [meet]
    split
    · rename_i hab
      exact ⟨0, Nat.zero_le _, rfl, hab, by simp⟩
    · rename_i hab
      obtain ⟨k, hk, hkf, hmeet⟩ := hex
      -- the first step is not enough, so there is a superclass to climb to
      obtain ⟨k, rfl⟩ : ∃ k', k = k' + 1 := by
        cases k with
        | zero => exact absurd hmeet hab
        | succ k => exact ⟨k, rfl⟩
      have hda : t.depth (t.superclass a) = t.depth a - 1 := h.depth_superclass (by omega)
      have hdb : t.depth (t.superclass b) = t.depth b - 1 := h.depth_superclass (by omega)
      obtain ⟨i, hi, hres, heq, hmin⟩ := ih (a := t.superclass a) (b := t.superclass b)
        (by rw [hda, hdb, hd]) ⟨k, by omega, by omega, hmeet⟩
      refine ⟨i + 1, by omega, hres, heq, fun j hj => ?_⟩
      cases j with
      | zero => exact hab
      | succ j => exact hmin j (by omega)

/-- **`commonAncestor` is the nearest common ancestor** of classes that share the ancestor directly
below a root. -/
theorem Tiered.nearest_commonAncestor (h : Tiered t) {a b : TypeId}
    (ha : t.topAncestor a ≠ 0) (hab : t.topAncestor a = t.topAncestor b) :
    Nearest t (fun x => x = a ∨ x = b) (t.commonAncestor a b) := by
  obtain ⟨hat, hdt⟩ := h.below_topAncestor ha
  have hbt := (h.below_topAncestor (hab ▸ ha)).1
  rw [← hab] at hbt
  have hat' := h.below_iff.mp hat
  have hbt' := h.below_iff.mp hbt
  -- both classes, brought to one depth
  obtain ⟨x, hx⟩ : ∃ x, x = t.climb (t.depth a - t.depth b) a := ⟨_, rfl⟩
  obtain ⟨y, hy⟩ : ∃ y, y = t.climb (t.depth b - t.depth x) b := ⟨_, rfl⟩
  have hdx : t.depth x = min (t.depth a) (t.depth b) := by
    rw [hx, h.depth_climb (Nat.sub_le _ _)]
    omega
  have hdy : t.depth y = min (t.depth a) (t.depth b) := by
    rw [hy, h.depth_climb (Nat.sub_le _ _), hdx]
    omega
  have hax : Below t a x := ⟨_, Nat.sub_le _ _, hx.symm⟩
  have hby : Below t b y := ⟨_, Nat.sub_le _ _, hy.symm⟩
  -- a class above both of `a` and `b` is above `x` and `y`, at the same distance
  have habove : ∀ d, Below t a d → Below t b d →
      t.depth d ≤ t.depth x ∧ t.climb (t.depth x - t.depth d) x = d ∧
        t.climb (t.depth x - t.depth d) y = d := by
    intro d had hbd
    have hda := (h.below_iff.mp had).1
    have hdb := (h.below_iff.mp hbd).1
    have hxd := h.below_iff.mp (h.below_of_depth_le hax had (by omega))
    have hyd := h.below_iff.mp (h.below_of_depth_le hby hbd (by omega))
    refine ⟨by omega, hxd.2, ?_⟩
    rw [show t.depth x - t.depth d = t.depth y - t.depth d by omega]
    exact hyd.2
  have hsize : a < t.size := by
    by_contra hge
    exact ha (h.topAncestor_eq_zero_iff.mpr
      (h.depth_eq_zero_iff.mpr (superclass_eq_zero_of_le (Nat.le_of_not_lt hge))))
  obtain ⟨htop, htopx, htopy⟩ := habove _ hat hbt
  have hlea := h.depth_le a
  have hmeet : ∃ k ≤ t.depth x, k ≤ t.size ∧ t.climb k x = t.climb k y :=
    ⟨_, Nat.sub_le _ _, by lia, htopx.trans htopy.symm⟩
  obtain ⟨k, hk, hres, heq, hmin⟩ := h.meet_spec (by omega) hmeet
  have hres' : t.commonAncestor a b = t.climb k x := by
    rw [commonAncestor, ← hx, ← hy, hres]
  rw [hres']
  have hxk : Below t x (t.climb k x) := ⟨k, hk, rfl⟩
  have hyk : Below t y (t.climb k x) := ⟨k, by omega, heq.symm⟩
  refine ⟨?_, fun d hd => ?_⟩
  · rintro c (rfl | rfl)
    · exact h.below_trans hax hxk
    · exact h.below_trans hby hyk
  · obtain ⟨hdle, hdx', hdy'⟩ := habove d (hd a (.inl rfl)) (hd b (.inr rfl))
    have hkle : k ≤ t.depth x - t.depth d := by
      by_contra hlt
      exact hmin _ (Nat.lt_of_not_le hlt) (hdx'.trans hdy'.symm)
    refine h.below_iff.mpr ⟨by rw [h.depth_climb hk]; omega, ?_⟩
    rw [h.depth_climb hk, ← t.climb_add,
      show t.depth x - k - t.depth d + k = t.depth x - t.depth d by omega]
    exact hdx'

/-! ### Later tables -/

section Later

variable (h : Tiered t) (h' : Tiered t') (hx : Extends t t')

include hx in
theorem Extends.superclass_eq {id : TypeId} (hid : id < t.size) :
    t'.superclass id = t.superclass id := by
  rcases Nat.eq_zero_or_pos id with rfl | hpos
  · rfl
  · obtain ⟨e, he⟩ := exists_get?_of_lt hpos hid
    obtain ⟨e', he', hc⟩ := hx.core he
    rw [Table.superclass, Table.superclass, object?, object?, he, he']
    cases e with
    | object o =>
      obtain ⟨o', rfl, -, hs, -⟩ := Entry.object_of_core_eq hc
      exact hs
    | _ => cases e' <;> first | rfl | simp [Entry.core] at hc

include h hx

theorem Extends.climb_eq {n : Nat} {id : TypeId} (hid : id < t.size) :
    t'.climb n id = t.climb n id := by
  induction n with
  | zero => rfl
  | succ n ih =>
    rw [climb_succ_right, climb_succ_right, ih, hx.superclass_eq (h.climb_lt_size hid)]

include h'

theorem Extends.depth_eq {id : TypeId} (hid : id < t.size) : t'.depth id = t.depth id := by
  induction id using Nat.strongRecOn with
  | ind id ih =>
    rw [h.depth_eq id, h'.depth_eq id, hx.superclass_eq hid]
    split
    · rfl
    · rename_i hs
      have hlt := h.superclass_lt hs
      rw [ih _ hlt (Nat.lt_trans hlt hid)]

theorem Extends.below_iff {a b : TypeId} (ha : a < t.size) : Below t' a b ↔ Below t a b := by
  unfold Below
  rw [hx.depth_eq h h' ha]
  constructor
  · rintro ⟨n, hn, hb⟩
    exact ⟨n, hn, by rw [← hx.climb_eq h ha, hb]⟩
  · rintro ⟨n, hn, hb⟩
    exact ⟨n, hn, by rw [hx.climb_eq h ha, hb]⟩

theorem Extends.topAncestor_eq {id : TypeId} (hid : id < t.size) :
    t'.topAncestor id = t.topAncestor id := by
  rw [h.topAncestor_eq, h'.topAncestor_eq, hx.depth_eq h h' hid, hx.climb_eq h hid]

/-- The nearest common ancestor of known classes stays what it is. -/
theorem Extends.nearest {C : TypeId → Prop} {a : TypeId} (hC : ∀ c, C c → c < t.size)
    (hne : ∃ c, C c) (ha : Nearest t C a) : Nearest t' C a := by
  obtain ⟨c, hc⟩ := hne
  have hsize : a < t.size := h.below_lt_size (hC c hc) (ha.above c hc)
  refine ⟨fun x hxC => (hx.below_iff h h' (hC x hxC)).mpr (ha.above x hxC), fun b hb => ?_⟩
  refine (hx.below_iff h h' hsize).mpr (ha.least b fun x hxC => ?_)
  exact (hx.below_iff h h' (hC x hxC)).mp (hb x hxC)

end Later

end TypeFlow.Table
