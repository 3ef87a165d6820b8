import TypeFlow.Proofs.Unification.Visiting

/-!
# Unification of types that are made of each other

A type that is met again while it is visited stands for itself. If it gets another representative in the end, types
are left that are made of it, and a second unification finds work. So cycles need care: what unification does with a
type on a cycle has to leave it as it is.

Where a type on a cycle leads to no other type that equals it, and what is joined to a cycle in a union equals no other
type (`Table.Untwisted`), this is so. The invariant (`Circling`) names for every representative the type for which it was
chosen, its *source*: the representative looks as its source did at the begin. While a type is visited, the
representatives that were chosen before it was entered are not made of it, and those that were chosen afterwards have
sources that it leads to (`Circling.entered`). So if something stands for a component on the cycle of a visited type, it
leads back to a visited type, and its source lies on the cycle, too. There it is the component itself
(`Circling.eq_of_cyclic`).
-/

namespace TypeFlow

open Relation (ReflTransGen)

namespace Table

variable {t : Table} {a b c v : TypeId} {D : TypeId → Prop}

/-! ### Cycles -/

/-- A type that is made of another one which is made of it. -/
def Cyclic (t : Table) (a : TypeId) : Prop :=
  ∃ b, b ≠ a ∧ ReflTransGen t.MadeOf a b ∧ ReflTransGen t.MadeOf b a

/-- Nothing that the type is made of equals another type of `D`. -/
def Firm (t : Table) (D : TypeId → Prop) (a : TypeId) : Prop :=
  ∀ b c, ReflTransGen t.MadeOf a b → D c → t.equal b c = true → b = c

/-- **Cycles that are not twisted**: no type equals two members of a union among the types `D`, a type on a cycle leads
to no other type that equals it, and a member of a union on a cycle is on the cycle, too, or nothing it is made of
equals another type. -/
structure Untwisted (t : Table) (D : TypeId → Prop) : Prop where
  separated : ∀ {a : TypeId}, D a → t.Separated a
  unrepeated : ∀ {a b : TypeId}, D a → t.Cyclic a → ReflTransGen t.MadeOf a b → t.equal a b = true → a = b
  firm : ∀ {a m : TypeId}, D a → t.Cyclic a → m ∈ t.members a → ReflTransGen t.MadeOf m a ∨ t.Firm D m

/-- A type on the cycle of another one is on a cycle. -/
theorem Cyclic.of_reaches (h : t.Cyclic a) (hva : ReflTransGen t.MadeOf v a) (hav : ReflTransGen t.MadeOf a v) :
    t.Cyclic v := by
  by_cases hne : a = v
  · exact hne ▸ h
  · exact ⟨a, hne, hva, hav⟩

theorem Firm.of_reaches (h : t.Firm D a) (hab : ReflTransGen t.MadeOf a b) : t.Firm D b :=
  fun c d hbc => h c d (hab.trans hbc)

/-- A type on a cycle, or one which is made of nothing that equals another type. -/
def Steadfast (t : Table) (D : TypeId → Prop) (a : TypeId) : Prop :=
  t.Cyclic a ∨ t.Firm D a

/-- Types with cycles that are not twisted, and what else unification relies on: only objects are made of
themselves, and the type of what never yields a value has no shape. -/
structure Loops (t : Table) (D : TypeId → Prop) : Prop extends Range t D where
  unrepeated : ∀ {a b : TypeId}, D a → t.Cyclic a → ReflTransGen t.MadeOf a b → t.Similar a b → a = b
  firm : ∀ {a m : TypeId}, D a → t.Cyclic a → m ∈ t.members a → ReflTransGen t.MadeOf m a ∨ t.Firm D m
  object : ∀ {a : TypeId} {e : Entry}, D a → t.get? a = some e → a ∈ e.parts → ∃ o, e = .object o
  noReturn : ∃ e, t.get? Builtin.noReturn = some e ∧ e.Lone

namespace Loops

theorem reaches (h : Loops t D) (ha : D a) (hab : ReflTransGen t.MadeOf a b) : D b := by
  induction hab with
  | refl => exact ha
  | tail _ hbc ih =>
    obtain ⟨e, he, hmem⟩ := hbc
    exact h.parts ih he _ hmem

/-- A component of a derived type that is steadfast is on a cycle with it, or nothing it is made of equals another
type. -/
theorem component (h : Loops t D) (ha : D a) {e : Entry} (he : t.get? a = some e) (hd : e.IsDerived)
    (hs : t.Steadfast D a) (hb : b ∈ e.parts) : ReflTransGen t.MadeOf b a ∨ t.Firm D b := by
  have hab : t.MadeOf a b := ⟨e, he, hb⟩
  rcases hs with hcyclic | hfirm
  · by_cases hunion : ∃ ms, e = .union ms
    · obtain ⟨ms, rfl⟩ := hunion
      exact h.firm ha hcyclic (members_of_union he ▸ hb)
    · -- another derived type is made of one component only, so the cycle goes through it
      obtain ⟨c, hne, hac, hca⟩ := hcyclic
      obtain hac | ⟨d, ⟨x, hx, hd'⟩, hdc⟩ := hac.cases_head
      · exact absurd hac.symm hne
      · obtain rfl := Option.some.inj (he.symm.trans hx)
        have hdb : d = b := by
          cases e <;> try exact hd.elim
          case union ms => exact absurd ⟨ms, rfl⟩ hunion
          case typeVar v => cases hb
          all_goals exact (List.mem_singleton.mp hd').trans (List.mem_singleton.mp hb).symm
        exact .inl (hdb ▸ hdc.trans hca)
  · exact .inr (hfirm.of_reaches (.single hab))

end Loops

end Table

namespace Unifier

open Table (Loops Rewrites Enlarges Tidy Contained sortedUnique)

variable {t t₀ t' : Table} {u u' : Unifier} {id a b c p q v y rep built : TypeId} {e : Entry}
  {under vs rest : List TypeId} {D : TypeId → Prop} {src : TypeId → TypeId}

/-! ### The invariant -/

/-- **Representatives look like what they were chosen for.** Unification began with the table `t₀`, the types `under` are
dealt with, and `src` gives the type for which a representative was chosen. -/
structure Circling (t₀ : Table) (D : TypeId → Prop) (src : TypeId → TypeId) (under : List TypeId) (t : Table)
    (u : Unifier) : Prop extends Underway t₀ under t u where
  dealt : ∀ v ∈ under, D v ∧ v ≠ 0
  nodup : under.Nodup
  /-- All types look as they did at the begin. -/
  looks : ∀ a, D a → t.Like t₀ a a
  /-- What stands for a type looks like it. -/
  alike : ∀ p ∈ u.known, t.Like t p.1 p.2
  /-- Representatives are made of representatives and of visited types on cycles. -/
  parts : ∀ p ∈ u.reps, ∀ e, t.get? p = some e → ∀ c ∈ e.parts, u.Standing c ∨ c ∈ under ∧ t₀.Cyclic c
  mem : ∀ p ∈ u.reps, D (src p)
  like : ∀ p ∈ u.reps, t.Like t₀ p (src p)
  steadfast : ∀ p ∈ u.reps, t₀.Steadfast D (src p) → src p = p
  /-- The sources of different representatives are not equal. -/
  apart_sources : ∀ p ∈ u.reps, ∀ q ∈ u.reps, t₀.Similar (src p) (src q) → p = q
  /-- The representatives from before a type was entered do not look like it, nor are they made of it; and the type
  leads to the sources of the others. -/
  entered : ∀ y rest, y :: rest <:+ under → ∃ l₁ l₂, u.reps = l₁ ++ l₂ ∧
    (∀ p ∈ l₁, ¬ t₀.Similar y (src p) ∧ ∀ e, t.get? p = some e → ∀ c ∈ e.parts, c = 0 ∨ c ∈ l₁ ∨ c ∈ rest) ∧
    ∀ p ∈ l₂, ReflTransGen t₀.MadeOf y (src p)

namespace Circling

/-- What is known of a type looks like it. -/
theorem like_of_known? (h : Circling t₀ D src under t u) (hc : u.known? a = some c) : t.Like t a c :=
  h.alike _ (mem_of_known? hc)

theorem like_of_standsFor (h : Circling t₀ D src under t u) (hac : StandsFor vs u a c) : t.Like t a c := by
  rcases hac with hknown | ⟨rfl, -⟩
  · exact h.like_of_known? hknown
  · exact .refl h.tidy c

/-- Types of `D` that are similar now were similar at the begin, and the other way round. -/
theorem similar_iff (h : Circling t₀ D src under t u) (hl : Loops t₀ D) {x y : TypeId} (hx : D x) (hy : D y)
    (ha : t.Like t₀ a x) (hb : t.Like t₀ b y) : t.Similar a b ↔ t₀.Similar x y := by
  constructor
  · intro hab
    exact Table.Like.similar_of_similar (h.begun.instancesByName hl.instances) hab ha hb
  · intro hxy
    exact (hl.like_of_like ha hb hx hy hxy).similar

/-- A representative that looks like a type has a source that equals it. -/
theorem similar_source (h : Circling t₀ D src under t u) (hp : p ∈ u.reps) (hpa : t.Like t₀ p a) :
    t₀.Similar a (src p) :=
  (hpa.symm.trans (h.like p hp)).similar

/-! ### What stands for a type on a cycle -/

/-- No representative looks like a visited type that is on a cycle. -/
theorem not_like_of_cyclic (h : Circling t₀ D src under t u) (hl : Loops t₀ D) (hv : v ∈ under)
    (hcyclic : t₀.Cyclic v) (hp : p ∈ u.reps) : ¬ t.Like t₀ p v := by
  intro hpv
  have hD := (h.dealt v hv).1
  have hsim := h.similar_source hp hpv
  obtain ⟨vs, rest, rfl⟩ := List.append_of_mem hv
  obtain ⟨l₁, l₂, hreps, hbefore, hafter⟩ := h.entered v rest (List.suffix_append _ _)
  rcases List.mem_append.mp (hreps ▸ hp) with hmem | hmem
  · exact (hbefore p hmem).1 hsim
  · have heq := hl.unrepeated hD hcyclic (hafter p hmem) hsim
    have hself := h.steadfast p hp (heq ▸ .inl hcyclic)
    exact h.not_mem_reps hv (heq.trans hself ▸ hp)

/-- From a representative to what it is made of. -/
def Below (t : Table) (u : Unifier) (a b : TypeId) : Prop :=
  a ∈ u.reps ∧ t.MadeOf a b

/-- A visited type that a representative leads to leads to its source. -/
theorem reaches_source (h : Circling t₀ D src under t u) (hy : y ∈ under) (hp : p ∈ u.reps)
    (hpy : ReflTransGen (Below t u) p y) : ReflTransGen t₀.MadeOf y (src p) := by
  obtain ⟨vs, rest, rfl⟩ := List.append_of_mem hy
  obtain ⟨l₁, l₂, hreps, hbefore, hafter⟩ := h.entered y rest (List.suffix_append _ _)
  refine (List.mem_append.mp (hreps ▸ hp)).elim (fun hmem => ?_) (hafter p)
  -- what was chosen before is made of such, and of types that are visited longer
  have hclosed : ∀ b, ReflTransGen (Below t u) p b → b = 0 ∨ b ∈ l₁ ∨ b ∈ rest := by
    intro b hpb
    induction hpb with
    | refl => exact .inr (.inl hmem)
    | tail _ hbc ih =>
      obtain ⟨hb, e, he, hc⟩ := hbc
      rcases ih with rfl | hb₁ | hrest
      · exact absurd he nofun
      · exact (hbefore _ hb₁).2 e he _ hc
      · refine absurd hb (h.not_mem_reps ?_)
        exact List.mem_append_right _ (List.mem_cons_of_mem _ hrest)
  rcases hclosed y hpy with hzero | hy₁ | hrest
  · exact absurd hzero (h.dealt y hy).2
  · exact absurd (hreps ▸ List.mem_append_left _ hy₁) (h.not_mem_reps hy)
  · have hnodup := (List.nodup_append.mp h.nodup).2.1
    exact absurd hrest (List.nodup_cons.mp hnodup).1

/-- A path from what a representative looks like is followed from the representative: it ends at a representative, or
meets a visited type. -/
theorem follow (h : Circling t₀ D src under t u) (hv : v ≠ 0) (hav : ReflTransGen t₀.MadeOf a v) (hp : p ∈ u.reps)
    (hpa : t.Like t₀ p a) : (∃ q ∈ u.reps, t.Like t₀ q v) ∨ ∃ y z, y ∈ under ∧ t₀.Cyclic y ∧ t.Like t₀ y z ∧
      ReflTransGen (Below t u) p y ∧ ReflTransGen t₀.MadeOf a z ∧ ReflTransGen t₀.MadeOf z v := by
  induction hav using ReflTransGen.head_induction_on generalizing p with
  | refl => exact .inl ⟨p, hp, hpa⟩
  | @head a b hab hbv ih =>
    obtain ⟨x, hx, hb⟩ := hab
    obtain ⟨e, he, c, hc, hcb⟩ := hpa.exists_part hx hb
    have hpc : Below t u p c := ⟨hp, e, he, hc⟩
    rcases h.parts p hp e he c hc with hstanding | ⟨hunder, hcyclic⟩
    · have hne : c ≠ 0 := by
        rintro rfl
        obtain rfl := hcb.zero_iff.mp rfl
        rcases hbv.cases_head with rfl | ⟨d, ⟨y, hy, -⟩, -⟩
        · exact hv rfl
        · exact absurd hy nofun
      refine (ih (hstanding.resolve_left hne) hcb).imp_right ?_
      rintro ⟨y, z, hy, hcyclic, hyz, hcy, hbz, hzv⟩
      exact ⟨y, z, hy, hcyclic, hyz, .head hpc hcy, .head ⟨x, hx, hb⟩ hbz, hzv⟩
    · exact .inr ⟨c, b, hunder, hcyclic, hcb, .single hpc, .single ⟨x, hx, hb⟩, hbv⟩

/-- **A type on the cycle of the type whose turn it is stands for itself.** -/
theorem eq_of_cyclic (h : Circling t₀ D src (id :: vs) t u) (hl : Loops t₀ D) (hway : Way t₀ (id :: vs))
    (hcyclic : t₀.Cyclic a) (hida : ReflTransGen t₀.MadeOf id a) (haid : ReflTransGen t₀.MadeOf a id)
    (hp : p ∈ u.reps) (hpa : t.Like t₀ p a) : p = a := by
  obtain ⟨hid, hpos⟩ := h.dealt id List.mem_cons_self
  have ha := hl.reaches hid hida
  rcases h.follow hpos haid hp hpa with ⟨q, hq, hqid⟩ | ⟨y, z, hy, hycyclic, hyz, hpy, haz, hzid⟩
  · exact absurd hqid (h.not_like_of_cyclic hl List.mem_cons_self (hcyclic.of_reaches hida haid) hq)
  · -- the visited type is one that it looks like, since both are on the cycle
    have hyid : ReflTransGen t₀.MadeOf y id := by
      rcases List.mem_cons.mp hy with rfl | hy
      · exact .refl
      · exact hway.reaches hy
    have hDy := (h.dealt y hy).1
    obtain rfl : y = z := hl.unrepeated hDy hycyclic ((hyid.trans hida).trans haz)
      ((h.looks y hDy).symm.trans hyz).similar
    have hsource := haz.trans (h.reaches_source hy hp hpy)
    have heq := hl.unrepeated ha hcyclic hsource (h.similar_source hp hpa)
    exact (h.steadfast p hp (heq ▸ .inl hcyclic)).symm.trans heq.symm

/-- A type of which nothing equals another type stands for itself. -/
theorem eq_of_firm (h : Circling t₀ D src under t u) (hfirm : t₀.Firm D a) (hp : p ∈ u.reps)
    (hpa : t.Like t₀ p a) : p = a := by
  have hsim := h.similar_source hp hpa
  have heq := hfirm a (src p) .refl (h.mem p hp) (Table.equal_iff_similar.mpr hsim)
  exact (h.steadfast p hp (heq ▸ .inr hfirm)).symm.trans heq.symm

/-- **The components of a derived type that is steadfast stand for themselves.** -/
theorem eq_of_standsFor (h : Circling t₀ D src (id :: vs) t u) (hl : Loops t₀ D) (hturn : Turn t₀ D vs id e)
    (hd : e.IsDerived) (hs : t₀.Steadfast D id) (ha : a ∈ e.parts) (hac : StandsFor (id :: vs) u a c) : c = a := by
  rcases hac with hknown | ⟨rfl, -⟩
  · have hDa := hl.parts hturn.mem hturn.entry a ha
    have hca : t.Like t₀ c a := (h.like_of_known? hknown).symm.trans (h.looks a hDa)
    have hne : a ≠ 0 := by
      rintro rfl
      exact absurd (h.zero.symm.trans hknown) nofun
    have hc : c ∈ u.reps := (h.standing_of_known? hknown).resolve_left fun hzero => hne (hca.zero_iff.mp hzero)
    rcases hl.component hturn.mem hturn.entry hd hs ha with haid | hfirm
    · have hida : t₀.MadeOf id a := ⟨e, hturn.entry, ha⟩
      have hnot : id ≠ a := by
        rintro rfl
        exact absurd ((h.undone id List.mem_cons_self).symm.trans hknown) nofun
      exact h.eq_of_cyclic hl hturn.way ⟨id, hnot, haid, .single hida⟩ (.single hida) haid hc hca
    · exact h.eq_of_firm hfirm hc hca
  · rfl

/-! ### What a type is built to -/

/-- Only one type is given for a type. -/
theorem eq_of_standsFor_twice (h : Underway t₀ under t u) (hac : StandsFor under u a c)
    (hab : StandsFor under u a b) : c = b := by
  have hnew : a = 0 ∨ a ∈ under → u.known? a = none := by
    rintro (rfl | hmem)
    · exact h.zero
    · exact h.undone a hmem
  rcases hac with hc | ⟨rfl, hc⟩ <;> rcases hab with hb | ⟨rfl, hb⟩
  · exact Option.some.inj (hc.symm.trans hb)
  · exact absurd (hc.symm.trans (hnew hb)) nofun
  · exact absurd (hb.symm.trans (hnew hc)) nofun
  · rfl

section Union

variable {ms cs : List TypeId}

/-- What stands for a component looks like it. -/
theorem like_component (h : Circling t₀ D src under t u) (ha : D a) (hac : StandsFor vs u a c) : t.Like t₀ c a :=
  (h.like_of_standsFor hac).symm.trans (h.looks a ha)

/-- What stands for the members of a union is flattened to itself: all of it differs, and no two types are equal. -/
theorem flatten_eq (h : Circling t₀ D src under t u) (hl : Loops t₀ D) (ha : D a)
    (hms : t₀.get? a = some (.union ms)) (hall : List.Forall₂ (StandsFor under u) ms cs) :
    t.flatten cs = sortedUnique cs ∧ cs.Nodup := by
  have hu := hl.tidy.union hms
  have hone : ∀ m ∈ ms, ∀ n ∈ ms, ∀ b c, StandsFor under u m b → StandsFor under u n c → t.Similar b c → m = n := by
    intro m hm n hn b c hmb hnc hbc
    have hDm := hl.parts ha hms m hm
    have hDn := hl.parts ha hms n hn
    have hsim := (h.similar_iff hl hDm hDn (h.like_component hDm hmb) (h.like_component hDn hnc)).mp hbc
    exact (hl.separated ha).eq_of_similar hms hm hn hsim (.refl t₀ n)
  have hmember : ∀ c ∈ cs, ∃ m ∈ ms, StandsFor under u m c ∧ t.Like t₀ c m := by
    intro c hc
    obtain ⟨m, hm, hmc⟩ := exists_of_mem_right hall hc
    exact ⟨m, hm, hmc, h.like_component (hl.parts ha hms m hm) hmc⟩
  refine ⟨Table.flatten_eq_sortedUnique (fun c hc => ?_) (fun hmem => ?_) ?_, ?_⟩
  · -- a member is no union, so neither is what looks like it
    obtain ⟨m, hm, -, hcm⟩ := hmember c hc
    obtain ⟨x, hx⟩ := hu.known m hm
    refine Table.members_of_not_union ?_ fun xs hxs => ?_
    · rintro rfl
      exact Nat.ne_of_gt (Table.pos_of_get? hx) (hcm.zero_iff.mp rfl)
    · obtain ⟨ns, hns, -⟩ := hcm.exists_union hxs
      exact hu.flat m hm ns hns
  · obtain ⟨m, hm, -, hcm⟩ := hmember _ hmem
    obtain ⟨x, hx, hlone⟩ := hl.noReturn
    have hx' := h.begun.entry hx fun o ho => by rw [ho] at hlone; exact hlone
    rcases hcm.portrays with ⟨rfl, -, -⟩ | ⟨y, z, hy, -, hm'⟩
    · exact hu.absorbed hm
    · obtain rfl := Option.some.inj (hx'.symm.trans hy)
      exact hm'.there.not_lone.1 hlone
  · refine (Table.sortedUnique_increasing cs).imp_of_mem fun {a b} hacs hbcs hlt => ?_
    refine Bool.eq_false_iff.mpr fun heq => Nat.ne_of_lt hlt ?_
    obtain ⟨m, hm, hma, -⟩ := hmember a (Table.mem_sortedUnique.mp hacs)
    obtain ⟨n, hn, hnb, -⟩ := hmember b (Table.mem_sortedUnique.mp hbcs)
    obtain rfl := hone m hm n hn a b hma hnb (Table.equal_iff_similar.mp heq)
    exact eq_of_standsFor_twice h.toUnderway hma hnb
  · exact nodup_of_forall₂ hall (Table.nodup_of_increasing hu.increasing) fun m hm n hn c hmc hnc =>
      hone m hm n hn c c hmc hnc (.refl t c)

end Union

/-- **A type is rebuilt to one that looks like it.** Its components stand for those of the type, and if it is another
one, the type is not steadfast. -/
theorem rebuilt (h : Circling t₀ D src (id :: vs) t u) (hl : Loops t₀ D) (hturn : Turn t₀ D vs id e)
    (hb : Rebuilt (StandsFor (id :: vs) u) t id e built) :
    ∃ y, t.get? built = some y ∧ t.Like t₀ built id ∧ (∀ c ∈ y.parts, ∃ a ∈ e.parts, StandsFor (id :: vs) u a c) ∧
      (built ≠ id → y.IsDerived ∧ ¬ t₀.Steadfast D id ∧
        ∀ ms, y = .union ms → ms.Pairwise fun a b => t.equal a b = false) := by
  have hself := h.looks id hturn.mem
  have hcomponent : ∀ a ∈ e.parts, ∀ c, StandsFor (id :: vs) u a c → t.Like t₀ c a := fun a ha c hac =>
    h.like_component (hl.parts hturn.mem hturn.entry a ha) hac
  -- a derived type whose components stand for themselves is interned already
  have hsame : ∀ y, e.IsDerived → (t₀.Steadfast D id → y = e) → t.get? built = some y → built ≠ id →
      ¬ t₀.Steadfast D id := by
    intro y hd heq hy hne hs
    obtain rfl := heq hs
    have he := h.begun.entry hturn.entry fun o ho => by rw [ho] at hd; exact hd
    exact hne (h.tidy.interned hy he hd)
  cases hb with
  | object ho ho' => exact ⟨_, ho', hself, fun c hc => ho.exists_of_mem_parts hc, fun hne => absurd rfl hne⟩
  | @pointer a c _ hac hy =>
    have hca := hcomponent a List.mem_cons_self c hac
    refine ⟨_, hy, .of_mirrors hy hturn.entry ⟨hca, hca, nofun⟩, fun d hd => ?_, fun hne =>
      ⟨trivial, hsame _ trivial (fun hs => ?_) hy hne, nofun⟩⟩
    · exact ⟨a, List.mem_cons_self, List.mem_singleton.mp hd ▸ hac⟩
    · rw [h.eq_of_standsFor hl hturn trivial hs List.mem_cons_self hac]
  | @metaclass a c _ hac hy =>
    have hca := hcomponent a List.mem_cons_self c hac
    refine ⟨_, hy, .of_mirrors hy hturn.entry ⟨hca, hca, nofun⟩, fun d hd => ?_, fun hne =>
      ⟨trivial, hsame _ trivial (fun hs => ?_) hy hne, nofun⟩⟩
    · exact ⟨a, List.mem_cons_self, List.mem_singleton.mp hd ▸ hac⟩
    · rw [h.eq_of_standsFor hl hturn trivial hs List.mem_cons_self hac]
  | @hierarchy a c _ hac hy =>
    have hca := hcomponent a List.mem_cons_self c hac
    refine ⟨_, hy, .of_mirrors hy hturn.entry ⟨hca, hca, nofun⟩, fun d hd => ?_, fun hne =>
      ⟨trivial, hsame _ trivial (fun hs => ?_) hy hne, nofun⟩⟩
    · exact ⟨a, List.mem_cons_self, List.mem_singleton.mp hd ▸ hac⟩
    · rw [h.eq_of_standsFor hl hturn trivial hs List.mem_cons_self hac]
  | @union ms cs _ hall hy =>
    obtain ⟨hflat, hnodup⟩ := h.flatten_eq hl hturn.mem hturn.entry hall
    have hu := hl.tidy.union hturn.entry
    have hperm : (sortedUnique cs).Perm cs := (List.perm_ext_iff_of_nodup
      (Table.nodup_of_increasing (Table.sortedUnique_increasing cs)) hnodup).mpr fun c => Table.mem_sortedUnique
    have hlen : (sortedUnique cs).length = ms.length := hperm.length_eq.trans hall.length_eq.symm
    have hpairs := t.flatten_pairwise cs
    rw [hflat] at hy hpairs
    have hunion : t.get? built = some (.union (sortedUnique cs)) := by
      have hseveral := hu.several
      rcases hy with ⟨hnil, -⟩ | hone | hy
      · rw [← hlen, hnil] at hseveral
        exact absurd hseveral (by simp)
      · rw [← hlen, hone] at hseveral
        exact absurd hseveral (by simp)
      · exact hy
    have hmirrors : (Entry.union (sortedUnique cs)).Mirrors (t.Like t₀) (.union ms) := by
      refine ⟨⟨hlen, fun c hc => ?_⟩, ⟨hlen.symm, fun m hm => ?_⟩, nofun⟩
      · obtain ⟨m, hm, hmc⟩ := exists_of_mem_right hall (Table.mem_sortedUnique.mp hc)
        exact ⟨m, hm, hcomponent m hm c hmc⟩
      · obtain ⟨c, hc, hmc⟩ := exists_of_mem_right hall.flip hm
        exact ⟨c, Table.mem_sortedUnique.mpr hc, hcomponent m hm c hmc⟩
    refine ⟨_, hunion, .of_mirrors hunion hturn.entry hmirrors, fun c hc => ?_, fun hne =>
      ⟨trivial, hsame _ trivial (fun hs => ?_) hunion hne, ?_⟩⟩
    · exact exists_of_mem_right hall (Table.mem_sortedUnique.mp hc)
    · have heq : ms = cs := by
        have hmem := (List.forall₂_and_left (p := fun m => m ∈ ms) ms cs).mpr ⟨fun _ hm => hm, hall⟩
        refine List.forall₂_eq_eq_eq ▸ hmem.imp fun m c ⟨hm, hmc⟩ => ?_
        exact (h.eq_of_standsFor hl hturn trivial hs hm hmc).symm
      exact congrArg Entry.union (Table.eq_of_increasing (Table.sortedUnique_increasing cs) hu.increasing
        fun c => heq ▸ Table.mem_sortedUnique)
    · rintro ns ⟨⟩
      exact hpairs
  | lone hlone he =>
    exact ⟨e, he, hself, fun c hc => absurd (hlone.parts_eq ▸ hc) List.not_mem_nil, fun hne => absurd rfl hne⟩

/-! ### Steps -/

/-- What is found for a type looks like it. -/
theorem like_of_find? (h : Circling t₀ D src under t u) (hl : Loops t₀ D) (ha : D a) (hba : t.Like t₀ b a)
    (hfind : u.find? t b = some rep) : t.Like t b rep := by
  have hrep := mem_reps_of_find? hfind
  have hsim := (h.similar_iff hl ha (h.mem rep hrep) hba (h.like rep hrep)).mp (similar_of_find? hfind)
  exact hl.like_of_like hba (h.like rep hrep) ha (h.mem rep hrep) hsim

/-- If nothing is found for a type, the sources of representatives do not equal it. -/
theorem not_similar_of_find? (h : Circling t₀ D src under t u) (hl : Loops t₀ D) (ha : D a) (hba : t.Like t₀ b a)
    (hfind : u.find? t b = none) : ∀ p ∈ u.reps, ¬ t₀.Similar a (src p) := by
  intro p hp hsim
  have hlike := hl.like_of_like hba (h.like p hp) ha (h.mem p hp) hsim
  obtain ⟨q, hq, rfl⟩ := mem_reps_iff.mp hp
  have hprint := hl.fingerprint_eq h.tidy ha (hlike.symm.trans hba) hba
  have hfalse := not_equal_of_find? hfind q hq ((h.prints q hq).trans hprint)
  exact absurd (Table.equal_iff_similar.mpr hlike.similar) (by rw [hfalse]; exact Bool.false_ne_true)

theorem of_eq (h : Circling t₀ D src under t u) (hc : u'.chosen = u.chosen) (hk : u'.known = u.known) :
    Circling t₀ D src under t u' := by
  have hu := h.toUnderway.of_eq hc hk
  obtain ⟨digest, chosen, known, visiting, stats⟩ := u
  obtain ⟨digest', chosen', known', visiting', stats'⟩ := u'
  obtain rfl : chosen' = chosen := hc
  obtain rfl : known' = known := hk
  exact ⟨hu, h.dealt, h.nodup, h.looks, h.alike, h.parts, h.mem, h.like, h.steadfast, h.apart_sources, h.entered⟩

/-- The table changes, but all types look as before, and representatives stay what they are. -/
theorem of_underway (h : Circling t₀ D src under t u) (hu : Underway t₀ under t' u) (hl : Loops t₀ D)
    (hlike : ∀ a < t.size, t'.Like t a a) (hsame : ∀ p ∈ u.reps, t'.get? p = t.get? p) :
    Circling t₀ D src under t' u where
  toUnderway := hu
  dealt := h.dealt
  nodup := h.nodup
  looks a ha := (hlike a (h.begun.lt_size (hl.lt ha))).trans (h.looks a ha)
  alike p hp := by
    have hold := h.alike p hp
    have hlt := hold.lt_size (h.known_lt p hp)
    exact (hlike p.1 hlt).trans (hold.trans (hlike p.2 (h.known_lt p hp)).symm)
  parts p hp e he := h.parts p hp e (hsame p hp ▸ he)
  mem := h.mem
  like p hp := (hlike p (h.lt_size (.inr hp))).trans (h.like p hp)
  steadfast := h.steadfast
  apart_sources := h.apart_sources
  entered y rest hsuffix := by
    obtain ⟨l₁, l₂, hreps, hbefore, hafter⟩ := h.entered y rest hsuffix
    refine ⟨l₁, l₂, hreps, fun p hp => ⟨(hbefore p hp).1, fun e he => ?_⟩, hafter⟩
    exact (hbefore p hp).2 e (hsame p (hreps ▸ List.mem_append_left _ hp) ▸ he)

/-- A type gets a representative that looks like it. -/
theorem folded {under' : List TypeId} (h : Circling t₀ D src under t u) (hu : Underway t₀ under' t (u.folded a rep))
    (hsuffix : under' <:+ under) (hlike : t.Like t a rep) (hkeep : ∀ v ∈ under, t₀.Cyclic v → v ∈ under') :
    Circling t₀ D src under' t (u.folded a rep) where
  toUnderway := hu
  dealt v hv := h.dealt v (hsuffix.subset hv)
  nodup := h.nodup.sublist hsuffix.sublist
  looks := h.looks
  alike := List.forall_mem_cons.mpr ⟨hlike, h.alike⟩
  parts p hp e he c hc := (h.parts p hp e he c hc).imp_right fun ⟨hmem, hcyclic⟩ => ⟨hkeep c hmem hcyclic, hcyclic⟩
  mem := h.mem
  like := h.like
  steadfast := h.steadfast
  apart_sources := h.apart_sources
  entered y rest hy := h.entered y rest (hy.trans hsuffix)

/-- A type becomes a representative that looks like the type `a`, to which all types that are still dealt with lead. -/
theorem withChosen {under' : List TypeId} (h : Circling t₀ D src under t u) (hl : Loops t₀ D)
    (hu : Underway t₀ under' t (u.withChosen (t.fingerprint b) b)) (hsuffix : under' <:+ under)
    (hnew : u.known? b = none) (ha : D a) (hba : t.Like t₀ b a) (hsteadfast : t₀.Steadfast D a → a = b)
    (hreach : ∀ y ∈ under', ReflTransGen t₀.MadeOf y a) (hfind : u.find? t b = none)
    (hparts : ∀ e, t.get? b = some e → ∀ c ∈ e.parts, u.Standing c ∨ c = b ∨ c ∈ under' ∧ t₀.Cyclic c)
    (hkeep : ∀ v ∈ under, t₀.Cyclic v → v = b ∨ v ∈ under') :
    Circling t₀ D (Function.update src b a) under' t (u.withChosen (t.fingerprint b) b) := by
  have hreps : (u.withChosen (t.fingerprint b) b).reps = u.reps ++ [b] := by
    simp [reps, Unifier.withChosen]
  have hne : ∀ p ∈ u.reps, p ≠ b := by
    rintro p hp rfl
    exact Option.some_ne_none _ ((h.known?_of_mem hp).symm.trans hnew)
  have hold : ∀ p ∈ u.reps, Function.update src b a p = src p := fun p hp => Function.update_of_ne (hne p hp) _ _
  have hthis : Function.update src b a b = a := Function.update_self _ _ _
  have hstanding : ∀ c, u.Standing c ∨ c = b → (u.withChosen (t.fingerprint b) b).Standing c := by
    rintro c ((hzero | hc) | rfl)
    · exact .inl hzero
    · exact .inr (hreps ▸ List.mem_append_left _ hc)
    · exact .inr (hreps ▸ List.mem_append_right _ List.mem_cons_self)
  have hforall : ∀ {P : TypeId → Prop}, (∀ p ∈ u.reps, P p) → P b →
      ∀ p ∈ (u.withChosen (t.fingerprint b) b).reps, P p := fun hP hb =>
    hreps ▸ List.forall_mem_append.mpr ⟨hP, List.forall_mem_singleton.mpr hb⟩
  have hapart := h.not_similar_of_find? hl ha hba hfind
  exact
    { toUnderway := hu
      dealt := fun v hv => h.dealt v (hsuffix.subset hv)
      nodup := h.nodup.sublist hsuffix.sublist
      looks := h.looks
      alike := List.forall_mem_cons.mpr ⟨.refl h.tidy b, h.alike⟩
      parts := hforall
        (fun p hp e he c hc => by
          rcases h.parts p hp e he c hc with hc | ⟨hmem, hcyclic⟩
          · exact .inl (hstanding c (.inl hc))
          · exact (hkeep c hmem hcyclic).imp (fun heq => hstanding c (.inr heq)) fun hmem => ⟨hmem, hcyclic⟩)
        fun e he c hc => by
          rcases hparts e he c hc with hc | hc | hc
          · exact .inl (hstanding c (.inl hc))
          · exact .inl (hstanding c (.inr hc))
          · exact .inr hc
      mem := hforall (fun p hp => (hold p hp).symm ▸ h.mem p hp) (hthis.symm ▸ ha)
      like := hforall (fun p hp => (hold p hp).symm ▸ h.like p hp) (hthis.symm ▸ hba)
      steadfast := hforall (fun p hp => (hold p hp).symm ▸ h.steadfast p hp) (hthis.symm ▸ hsteadfast)
      apart_sources := hforall
        (fun p hp => hforall (fun q hq => by
            rw [hold p hp, hold q hq]
            exact h.apart_sources p hp q hq) (by
            rw [hold p hp, hthis]
            exact fun hsim => absurd (hl.like_of_similar (h.mem p hp) ha hsim).symm.similar (hapart p hp)))
        (hforall (fun q hq => by
            rw [hold q hq, hthis]
            exact fun hsim => absurd hsim (hapart q hq)) fun _ => rfl)
      entered := fun y rest hy => by
        obtain ⟨l₁, l₂, hsplit, hbefore, hafter⟩ := h.entered y rest (hy.trans hsuffix)
        refine ⟨l₁, l₂ ++ [b], by rw [hreps, hsplit, List.append_assoc], fun p hp => ?_,
          List.forall_mem_append.mpr ⟨fun p hp => ?_, List.forall_mem_singleton.mpr ?_⟩⟩
        · rw [hold p (hsplit ▸ List.mem_append_left _ hp)]
          exact hbefore p hp
        · rw [hold p (hsplit ▸ List.mem_append_right _ hp)]
          exact hafter p hp
        · rw [hthis]
          exact hreach y (hy.subset List.mem_cons_self) }

/-- A type is entered for which no representative is found. -/
theorem entering (h : Circling t₀ D src vs t u) (hl : Loops t₀ D) (hturn : Turn t₀ D vs id e)
    (hnew : u.known? id = none) (hfind : u.find? t id = none) : Circling t₀ D src (id :: vs) t u where
  toUnderway := h.toUnderway.mono (List.subset_cons_self _ _) (List.forall_mem_cons.mpr ⟨hnew, h.undone⟩)
  dealt := List.forall_mem_cons.mpr ⟨⟨hturn.mem, hturn.ne_zero⟩, h.dealt⟩
  nodup := List.nodup_cons.mpr ⟨hturn.new, h.nodup⟩
  looks := h.looks
  alike := h.alike
  parts p hp e he c hc := (h.parts p hp e he c hc).imp_right (And.imp_left (List.mem_cons_of_mem _))
  mem := h.mem
  like := h.like
  steadfast := h.steadfast
  apart_sources := h.apart_sources
  entered y rest hy := by
    rcases List.suffix_cons_iff.mp hy with heq | hy
    · obtain ⟨rfl, rfl⟩ := List.cons.inj heq
      have hapart := h.not_similar_of_find? hl hturn.mem (h.looks y hturn.mem) hfind
      refine ⟨u.reps, [], (List.append_nil _).symm, fun p hp => ⟨hapart p hp, fun e he c hc => ?_⟩,
        List.forall_mem_nil _⟩
      rcases h.parts p hp e he c hc with (hzero | hc) | ⟨hmem, -⟩
      · exact .inl hzero
      · exact .inr (.inl hc)
      · exact .inr (.inr hmem)
    · exact h.entered y rest hy

end Circling

/-! ### The discipline -/

/-- A visited type is on a cycle with the type whose turn it is, if that is made of it. -/
theorem Turn.cyclic (hturn : Turn t₀ D vs id e) (ha : a ∈ e.parts) (hv : a ∈ vs) : t₀.Cyclic a ∧ t₀.Cyclic id := by
  have hida : ReflTransGen t₀.MadeOf id a := .single ⟨e, hturn.entry, ha⟩
  have haid := hturn.way.reaches hv
  have hne : id ≠ a := by
    rintro rfl
    exact hturn.new hv
  exact ⟨⟨id, hne, haid, hida⟩, ⟨a, hne.symm, hida, haid⟩⟩

/-- The visited types lead to the type whose turn it is. -/
theorem Turn.reaches (hturn : Turn t₀ D vs id e) (hy : y ∈ id :: vs) : ReflTransGen t₀.MadeOf y id := by
  rcases List.mem_cons.mp hy with rfl | hy
  · exact .refl
  · exact hturn.way.reaches hy

/-- If another type is built, its components are representatives. -/
theorem Circling.standing_of_built (h : Circling t₀ D src (id :: vs) t u) (hl : Loops t₀ D)
    (hturn : Turn t₀ D vs id e) (hb : Rebuilt (StandsFor (id :: vs) u) t id e built) (hne : built ≠ id)
    (ha : a ∈ e.parts) (hac : StandsFor (id :: vs) u a c) : u.Standing c := by
  obtain ⟨y, -, -, -, hother⟩ := h.rebuilt hl hturn hb
  rcases hac with hknown | ⟨rfl, rfl | hmem⟩
  · exact h.standing_of_known? hknown
  · exact .inl rfl
  · rcases List.mem_cons.mp hmem with rfl | hmem
    · -- only an object is made of itself, and an object is not rebuilt
      obtain ⟨o, rfl⟩ := hl.object hturn.mem hturn.entry ha
      cases hb <;> exact absurd rfl hne
    · exact absurd (.inl (hturn.cyclic ha hmem).2) (hother hne).2.1

/-- **Representatives look like their sources, whatever is unified**, if cycles are not twisted. -/
theorem discipline_circling (hl : Loops t₀ D) :
    Discipline t₀ D fun under t u => ∃ src, Circling t₀ D src under t u where
  lt := hl.lt
  parts ha := fun ⟨x, hx, hb⟩ => hl.parts ha hx _ hb
  underway := fun ⟨_, h⟩ => h.toUnderway
  of_eq := fun ⟨src, h⟩ hc hk => ⟨src, h.of_eq hc hk⟩
  of_enlarges := fun ⟨src, h⟩ hlarge ht hc =>
    ⟨src, h.of_underway (h.toUnderway.of_enlarges hlarge ht hc) hl (fun a ha => (hlarge.like h.tidy h.closed ha).symm)
      fun p hp => hlarge.get?_eq (h.lt_size (.inr hp))⟩
  enter := fun hturn ⟨src, h⟩ hnew hfind => ⟨src, h.entering hl hturn hnew hfind⟩
  change hturn := fun ⟨src, h⟩ hf => by
    refine ⟨src, h.of_underway (h.toUnderway.exchange hturn hf) hl (fun a _ => ?_) fun p hp => ?_⟩
    · refine (Table.like_modifyObject h.tidy (fun o ho => (hf o ho).imp fun a c hac => ?_) a).symm
      rcases hac with rfl | hac
      · exact .refl h.tidy a
      · exact h.like_of_standsFor hac
    · rw [Table.get?_modifyObject, if_neg ?_]
      rintro rfl
      exact h.not_mem_reps List.mem_cons_self hp
  found {vs id e t u rep} hturn := fun ⟨src, h⟩ hnew hfind => by
    have hmore : Underway t₀ (id :: vs) t u :=
      h.toUnderway.mono (List.subset_cons_self _ _) (List.forall_mem_cons.mpr ⟨hnew, h.undone⟩)
    exact ⟨src, h.folded (hmore.folded hturn.ne_zero hturn.new (.inr (mem_reps_of_find? hfind))) (List.suffix_refl _)
      (h.like_of_find? hl hturn.mem (h.looks _ hturn.mem) hfind) fun v hv _ => hv⟩
  kept_found {vs id e t u rep} hturn := fun ⟨src, h⟩ hb hfind => by
    have hrep := mem_reps_of_find? hfind
    have hlike := h.like_of_find? hl hturn.mem (h.looks id hturn.mem) hfind
    refine ⟨src, h.folded (h.toUnderway.folded hturn.ne_zero hturn.new (.inr hrep)) (List.suffix_cons _ _) hlike
      fun v hv hcyclic => (List.mem_cons.mp hv).resolve_left ?_⟩
    rintro rfl
    exact h.not_like_of_cyclic hl List.mem_cons_self hcyclic hrep (hlike.symm.trans (h.looks v hturn.mem))
  kept_chosen {vs id e t u} hturn := fun ⟨src, h⟩ hb hfind => by
    obtain ⟨y, hy, -, hparts, -⟩ := h.rebuilt hl hturn hb
    refine ⟨_, h.withChosen hl (h.toUnderway.withChosen hy hturn.new hfind) (List.suffix_cons _ _)
      (h.undone id List.mem_cons_self) hturn.mem (h.looks id hturn.mem) (fun _ => rfl)
      (fun y hy => hturn.reaches (List.mem_cons_of_mem _ hy)) hfind (fun x hx c hc => ?_)
      fun v hv _ => List.mem_cons.mp hv⟩
    obtain rfl := Option.some.inj (hy.symm.trans hx)
    obtain ⟨a, ha, hknown | ⟨rfl, rfl | hmem⟩⟩ := hparts c hc
    · exact .inl (h.standing_of_known? hknown)
    · exact .inl (.inl rfl)
    · exact .inr ((List.mem_cons.mp hmem).imp_right fun hmem => ⟨hmem, (hturn.cyclic ha hmem).1⟩)
  made hturn := fun ⟨src, h⟩ hb hne => by
    obtain ⟨y, hy, -, hparts, hother⟩ := h.rebuilt hl hturn hb
    obtain ⟨hd, -, hpairs⟩ := hother hne
    refine .inr ⟨y, hy, hd, fun c hc => ?_, hpairs⟩
    obtain ⟨a, ha, hac⟩ := hparts c hc
    exact h.standing_of_built hl hturn hb hne ha hac
  made_found {vs id e t u built rep} hturn := fun ⟨src, h⟩ hb hpos hunder hnew hfind => by
    obtain ⟨y, -, hlike, -, -⟩ := h.rebuilt hl hturn hb
    have hmore : Underway t₀ (built :: id :: vs) t u :=
      h.toUnderway.mono (List.subset_cons_self _ _) (List.forall_mem_cons.mpr ⟨hnew, h.undone⟩)
    exact ⟨src, h.folded (hmore.folded hpos hunder (.inr (mem_reps_of_find? hfind))) (List.suffix_refl _)
      (h.like_of_find? hl hturn.mem hlike hfind) fun v hv _ => hv⟩
  made_chosen {vs id e t u built y} hturn := fun ⟨src, h⟩ hb hunder hnew hy hparts hfind => by
    obtain ⟨_, -, hlike, -, hother⟩ := h.rebuilt hl hturn hb
    have hne : built ≠ id := fun heq => hunder (heq ▸ List.mem_cons_self)
    have hmore : Underway t₀ (built :: id :: vs) t u :=
      h.toUnderway.mono (List.subset_cons_self _ _) (List.forall_mem_cons.mpr ⟨hnew, h.undone⟩)
    refine ⟨_, h.withChosen hl (hmore.withChosen hy hunder hfind) (List.suffix_refl _) hnew hturn.mem hlike
      (fun hs => absurd hs (hother hne).2.1) (fun y hy => hturn.reaches hy) hfind (fun x hx c hc => ?_)
      fun v hv _ => .inr hv⟩
    obtain rfl := Option.some.inj (hy.symm.trans hx)
    exact .inl (hparts c hc)
  passed {vs id e t u built c} hturn := fun ⟨src, h⟩ hb hne hc => by
    obtain ⟨y, -, hlike, -, hother⟩ := h.rebuilt hl hturn hb
    have hsame : t.Like t id c := (h.looks id hturn.mem).trans (hlike.symm.trans (h.like_of_standsFor hc))
    refine ⟨src, h.folded (h.toUnderway.folded hturn.ne_zero hturn.new (h.standing_of_standsFor hc))
      (List.suffix_cons _ _) hsame fun v hv hcyclic => (List.mem_cons.mp hv).resolve_left ?_⟩
    rintro rfl
    exact (hother hne).2.1 (.inl hcyclic)

/-- Before the first type, types look as they are. -/
theorem Circling.empty (h : Underway t [] t u) (hc : u.chosen = []) (hk : u.known = []) (src : TypeId → TypeId) :
    Circling t D src [] t u := by
  have hnone : ∀ p, p ∉ u.reps := fun p => by
    rw [reps, hc, List.map_nil]
    exact List.not_mem_nil
  exact
    { toUnderway := h
      dealt := List.forall_mem_nil _
      nodup := List.nodup_nil
      looks := fun a _ => .refl h.tidy a
      alike := hk ▸ List.forall_mem_nil _
      parts := fun p hp => absurd hp (hnone p)
      mem := fun p hp => absurd hp (hnone p)
      like := fun p hp => absurd hp (hnone p)
      steadfast := fun p hp => absurd hp (hnone p)
      apart_sources := fun p hp => absurd hp (hnone p)
      entered := fun y rest hy => absurd (List.suffix_nil.mp hy) (List.cons_ne_nil _ _) }

/-- In the end, representatives come with all they are made of, and no two of them are equal. -/
theorem Circling.distinct (h : Circling t₀ D src [] t u) (hl : Loops t₀ D) : t.Distinct u.Standing where
  shown _ := h.qualified.fingerprint?_eq _
  parts {p e} hp he c hc := by
    rcases hp with rfl | hp
    · exact absurd he nofun
    · exact (h.parts p hp e he c hc).resolve_right fun hmem => List.not_mem_nil hmem.1
  eq_of_equal {a b} ha hb heq := by
    have hab := Table.equal_iff_similar.mp heq
    rcases ha with hzero | ha
    · exact hab.eq_of_zero (.inl hzero)
    · rcases hb with hzero | hb
      · exact hab.eq_of_zero (.inr hzero)
      · exact h.apart_sources a ha b hb
          ((h.similar_iff hl (h.mem a ha) (h.mem b hb) (h.like a ha) (h.like b hb)).mp hab)

end Unifier

end TypeFlow
