import TypeFlow.Proofs.Inference.Typing
import TypeFlow.Proofs.Overload.Matching
import TypeFlow.Proofs.Types.Narrowed
import TypeFlow.Proofs.Types.Preorder

/-!
# Narrowing to the classes that have a method

The test for a method keeps the classes of a type that see a method of the name, and joins them. What is
kept fits the narrowed type, and nothing is left exactly if no class has the method
(`Inferred.concrete_respondsTo`). But the join replaces classes by the hierarchy of their nearest common
ancestor, so the narrowed type has further classes unless all classes below such an ancestor have the
method. They need not: two classes that declare it bring back the superclass that does not
(`Session.silent_class_kept`).
-/

namespace TypeFlow

namespace Table

variable {t t₁ : Table}

/-! ### Which methods a class sees -/

/-- Whether methods declared on `owner` are found from a type: it looks on itself and on what it inherits
from, and a metaclass on the metaclasses of what its class inherits from. -/
def findsOn (t : Table) (id owner : TypeId) : Bool :=
  match t.get? id with
  | some (.metaclass of) => (t.ancestors of).any fun a => t.get? owner == some (.metaclass a)
  | _ => (t.ancestors id).contains owner

end Table

/-- Whether a type sees a method of a name. -/
def Env.hasMethod (e : Env) (t : Table) (id : TypeId) (name : String) : Bool :=
  e.groups.any fun g => g.key.name == name && t.findsOn id g.owner

/-- The types that declare the methods of a program are known. -/
def Env.Declared (e : Env) (t : Table) : Prop :=
  ∀ g ∈ e.groups, g.owner < t.size

theorem Env.mem_groupsOn {e : Env} {owner : TypeId} {name : String} {g : Group} :
    g ∈ e.groupsOn owner name ↔ g ∈ e.groups ∧ g.owner = owner ∧ g.key.name = name := by
  simp [groupsOn]

namespace Table

/-- Later types change nothing of where known types look. -/
theorem Later.findsOn_eq (h₁ : Later t t₁) (h : WellFormed t) (hl : Linked t) {id owner : TypeId}
    (hid : id < t.size) (howner : owner < t.size) : t₁.findsOn id owner = t.findsOn id owner := by
  unfold findsOn
  rw [h₁.grown.get?_eq hid, h₁.grown.get?_eq howner]
  cases he : t.get? id with
  | none => rw [h₁.grown.ancestors_eq h hl hid]
  | some e =>
    cases e with
    | metaclass of =>
      have hof : of < t.size := Nat.lt_trans (h.links_lt he of (by simp [Entry.links])) hid
      simp only [h₁.grown.ancestors_eq h hl hof]
    | _ => simp only [h₁.grown.ancestors_eq h hl hid]

theorem Later.hasMethod_eq (h₁ : Later t t₁) (h : WellFormed t) (hl : Linked t) {e : Env}
    (he : e.Declared t) {id : TypeId} (hid : id < t.size) (name : String) :
    e.hasMethod t₁ id name = e.hasMethod t id name := by
  rw [Bool.eq_iff_iff]
  simp only [Env.hasMethod, Array.any_eq_true', Bool.and_eq_true]
  refine exists_congr fun g => and_congr_right fun hg => and_congr_right fun _ => ?_
  rw [h₁.findsOn_eq h hl hid (he g hg)]

/-- The types where methods are looked for, as far as they were known. -/
theorem WellFormed.adds_lookupChain (h : WellFormed t) (hl : Linked t) {id : TypeId} (hid : id < t.size) :
    Adds t (lookupChain id) fun _ chain =>
      ∀ owner < t.size, owner ∈ chain ↔ t.findsOn id owner = true := by
  refine Adds.get_bind ?_
  split
  · rename_i of hof
    have hlt : of < t.size := Nat.lt_trans (h.links_lt hof of (by simp [Entry.links])) hid
    refine (Adds.mapM h (S := fun a t' m => t'.get? m = some (.metaclass a)) ?_ ?_).imp ?_
    · exact fun a ha t' h' hg => h'.adds_metaclassOf (hg.lt_size (h.ancestors_lt hl hlt ha).1)
    · exact fun a _ t' t'' m _ _ _ hg hm => hg.get hm
    · rintro t' chain h' hg ⟨hall, hex⟩ owner howner
      simp only [findsOn, hof, List.any_eq_true, beq_iff_eq]
      constructor
      · intro hmem
        obtain ⟨a, ha, hm⟩ := hall owner hmem
        exact ⟨a, ha, hg.get?_eq howner ▸ hm⟩
      · rintro ⟨a, ha, hm⟩
        obtain ⟨m, hmem, hm'⟩ := hex a ha
        -- there is one metaclass of each class
        exact h'.interned (hg.get hm) hm' trivial ▸ hmem
  · rename_i hnot
    refine .pure h fun owner _ => ?_
    unfold findsOn
    split
    · rename_i of hof
      exact absurd hof (hnot of)
    · exact List.contains_iff_mem.symm

theorem WellFormed.adds_respondsTo (h : WellFormed t) (hl : Linked t) {e : Env} (he : e.Declared t)
    {id : TypeId} (hid : id < t.size) (name : String) :
    Adds t (e.respondsTo id name) fun _ b => b = e.hasMethod t id name := by
  have hgroups : Adds t (e.groupsNamed id name) fun _ gs =>
      gs.isEmpty = !e.hasMethod t id name := by
    refine .bind (h.adds_lookupChain hl hid) fun t' chain h' _ hchain => .pure h' ?_
    rw [Bool.eq_iff_iff, Bool.not_eq_true', Bool.eq_false_iff]
    simp only [List.isEmpty_iff, List.flatMap_eq_nil_iff, Env.hasMethod, ne_eq, Array.any_eq_true',
      Bool.and_eq_true, beq_iff_eq, not_exists, not_and]
    constructor
    · intro hnone g hg hname hfinds
      have hlooked := hnone g.owner ((hchain g.owner (he g hg)).mpr hfinds)
      exact List.eq_nil_iff_forall_not_mem.mp hlooked g (Env.mem_groupsOn.mpr ⟨hg, rfl, hname⟩)
    · intro hnone owner howner
      refine List.eq_nil_iff_forall_not_mem.mpr fun g hmem => ?_
      obtain ⟨hg, rfl, hname⟩ := Env.mem_groupsOn.mp hmem
      exact hnone g hg hname ((hchain g.owner (he g hg)).mp howner)
  exact .bind hgroups fun _ gs h' _ hgs => .pure h' (by rw [hgs, Bool.not_not])

/-- A filter that tests one after the other, where no test is changed by the types that others add. -/
theorem Adds.filterM {γ : Type} {p : γ → TableM Bool} {f : γ → Bool} {l : List γ} (h : WellFormed t)
    (hp : ∀ c ∈ l, ∀ t', WellFormed t' → Grown t t' → Adds t' (p c) fun _ b => b = f c) :
    Adds t (l.filterM p) fun _ kept => kept = l.filter f := by
  induction l generalizing t with
  | nil => exact .pure h rfl
  | cons c l ih =>
    rw [Overload.filterM_cons]
    refine .bind (hp c List.mem_cons_self t h (Grown.refl t)) fun t₁ b h₁ hg₁ hb => ?_
    refine .bind (ih h₁ fun d hd t' h' hg => hp d (List.mem_cons_of_mem _ hd) t' h' (hg₁.trans hg))
      fun t₂ kept h₂ _ hkept => .pure h₂ ?_
    rw [List.filter_cons, hb, hkept]

/-! ### What is kept -/

theorem Single.parts_eq {c : TypeId} (hc : Single t c) : t.parts c = {.one c} := by
  rw [parts_of_not_union hc.ne_zero hc.no_union, part_of_not_hierarchy hc.no_hierarchy]

/-- Types that stand for themselves are their own parts. -/
theorem mem_partsOf_singles {cs : List TypeId} (hcs : ∀ c ∈ cs, Single t c) {p : Part} :
    p ∈ t.partsOf cs ↔ ∃ c ∈ cs, p = .one c := by
  refine exists_congr fun c => and_congr_right fun hc => ?_
  rw [(hcs c hc).parts_eq, Set.mem_singleton_iff]

/-- Classes that do not combine are joined as they are. -/
theorem WellFormed.join_singles (h : WellFormed t) {cs : List TypeId} (hcs : ∀ c ∈ cs, Single t c)
    (hn : Builtin.noReturn ∈ cs → ∀ c ∈ cs, c = Builtin.noReturn)
    (hapart : ∀ b ∈ cs, ∀ c ∈ cs, t.topAncestor b ≠ 0 → t.topAncestor b = t.topAncestor c → b = c) :
    t.join (t.partsOf cs) = t.partsOf cs := by
  refine (h.join_eq_self_iff fun hmem p hp => ?_).mpr fun top p hp q hq => ?_
  · obtain ⟨b, hb, hnb⟩ := (mem_partsOf_singles hcs).mp hmem
    obtain ⟨c, hc, rfl⟩ := (mem_partsOf_singles hcs).mp hp
    rw [hn (Part.one.inj hnb ▸ hb) c hc]
    rfl
  · obtain ⟨hp, hcomb, htop⟩ := hp
    obtain ⟨hq, -, htop'⟩ := hq
    obtain ⟨b, hb, rfl⟩ := (mem_partsOf_singles hcs).mp hp
    obtain ⟨c, hc, rfl⟩ := (mem_partsOf_singles hcs).mp hq
    exact congrArg Part.one (hapart b hb c hc hcomb.topAncestor_ne (htop.trans htop'.symm))

/-- The test for a method joins the classes that see one. -/
theorem Shaped.adds_respondsTo (hs : Shaped t) (h : WellFormed t) (hl : Linked t) {e : Env}
    (he : e.Declared t) {id : TypeId} (hid : id < t.size) (name : String) :
    Adds t (Filter.apply e.respondsTo (.respondsTo name) id) fun t' m =>
      t'.parts m = t.join (t.partsOf ((t.concrete id).filter (e.hasMethod t · name))) := by
  have hlt : ∀ c ∈ t.concrete id, c < t.size :=
    fun c hc => (hs.single_of_mem_concrete h hl hid hc).lt_size
  refine .get_bind (.bind (.filterM h (f := (e.hasMethod t · name)) ?_) ?_)
  · intro c hc t' h' hg
    have hlater : Later t t' := ⟨h', hl.of_grown hg, hg⟩
    refine (h'.adds_respondsTo hlater.linked (fun g hg' => hg.lt_size (he g hg'))
      (hg.lt_size (hlt c hc)) name).imp fun _ b _ _ hb => ?_
    rw [hb, hlater.hasMethod_eq h hl he (hlt c hc)]
  · rintro t₁ kept h₁ hg rfl
    have hkept : ∀ c ∈ (t.concrete id).filter (e.hasMethod t · name), c < t.size :=
      fun c hc => hlt c (List.mem_of_mem_filter hc)
    refine (h₁.adds_merge fun c hc => hg.lt_size (hkept c hc)).imp fun t' m _ _ hm => ?_
    rw [hm.2, hg.toExtends.partsOf_eq h hkept, hg.toExtends.join_eq h h₁ (h.known_partsOf hkept)]

/-- **What the test for a method keeps, and what the join adds to it.** Nothing is left exactly if no class
sees a method of the name. A class that sees one fits the narrowed type, and is among its classes as long
as the generic instances above it stand directly below a root. Any other class of the narrowed type stands
below a common ancestor that the join has put in the place of classes that see one, and all classes below
such an ancestor are there. So the classes are exactly those that see a method if no two of them share an
ancestor below a root. -/
theorem Inferred.concrete_respondsTo (h : Inferred t) {e : Env} (he : e.Declared t) {id : TypeId}
    (hid : id < t.size) (name : String) :
    let kept := (t.concrete id).filter (e.hasMethod t · name)
    let narrowed := (Filter.apply e.respondsTo (.respondsTo name) id).run t
    (narrowed.1 = 0 ↔ kept = []) ∧
    (∀ c ∈ kept, narrowed.2.implements c narrowed.1 = true ∧
      ((∀ g, Below t c g → t.IsGenericInstance g → t.depth g ≤ 1 ∨ g = c) →
        c ∈ narrowed.2.concrete narrowed.1)) ∧
    (∀ c ∈ narrowed.2.concrete narrowed.1, c ∉ kept →
      ∃ a, .whole a ∈ t.join (t.partsOf kept) ∧ c ∈ t.subtree a) ∧
    (∀ a, .whole a ∈ t.join (t.partsOf kept) → ∀ c ∈ t.subtree a, c ∈ narrowed.2.concrete narrowed.1) ∧
    ((∀ b ∈ kept, ∀ c ∈ kept, t.topAncestor b ≠ 0 → t.topAncestor b = t.topAncestor c → b = c) →
      narrowed.2.concrete narrowed.1 = kept) := by
  obtain ⟨hwf, hl, hs⟩ := h.invariants
  intro kept narrowed
  obtain ⟨hwf', hg, hparts⟩ := hs.adds_respondsTo hwf hl he hid name
  have hsingle : ∀ c ∈ kept, Single t c :=
    fun c hc => hs.single_of_mem_concrete hwf hl hid (List.mem_of_mem_filter hc)
  have hkept : ∀ c ∈ kept, c < t.size := fun c hc => (hsingle c hc).lt_size
  have hclasses : ∀ c, c ∈ narrowed.2.concrete narrowed.1 ↔
      ∃ p ∈ t.join (t.partsOf kept), c ∈ t.classes p :=
    fun c => hwf.mem_concrete_of_join hl (hwf.known_partsOf hkept) hg hparts
  -- what never yields a value is kept alone
  have hnever : Builtin.noReturn ∈ kept → ∀ c ∈ kept, c = Builtin.noReturn := by
    intro hn c hc
    obtain rfl := hs.eq_noReturn_of_mem_concrete hwf hl (List.mem_of_mem_filter hn)
    have hc := List.mem_of_mem_filter hc
    rwa [(hsingle _ hn).concrete_eq, List.mem_singleton] at hc
  have hexact : (∀ b ∈ kept, ∀ c ∈ kept, t.topAncestor b ≠ 0 →
      t.topAncestor b = t.topAncestor c → b = c) → narrowed.2.concrete narrowed.1 = kept := by
    intro hapart
    refine eq_of_increasing (concrete_increasing _ _) ((t.concrete_increasing id).filter _) fun c => ?_
    rw [hclasses, hwf.join_singles hsingle hnever hapart]
    simp only [mem_partsOf_singles hsingle]
    constructor
    · rintro ⟨_, ⟨b, hb, rfl⟩, hc⟩
      obtain rfl : c = b := by simpa [classes] using hc
      exact hb
    · exact fun hc => ⟨_, ⟨c, hc, rfl⟩, by simp [classes]⟩
  have hfits : ∀ c ∈ kept, narrowed.2.implements c narrowed.1 = true ∧
      ((∀ g, Below t c g → t.IsGenericInstance g → t.depth g ≤ 1 ∨ g = c) →
        c ∈ narrowed.2.concrete narrowed.1) := by
    intro c hc
    by_cases hn : c = Builtin.noReturn
    · have hjoin : t.join (t.partsOf kept) = t.partsOf kept := by
        refine hwf.join_singles hsingle hnever fun a ha b hb _ _ => ?_
        rw [hnever (hn ▸ hc) a ha, hnever (hn ▸ hc) b hb]
      have hpart : .one c ∈ t.join (t.partsOf kept) := by
        rw [hjoin]
        exact (mem_partsOf_singles hsingle).mpr ⟨c, hc, rfl⟩
      refine ⟨hwf'.implements_of_one (hl.of_grown hg) ((hsingle c hc).of_grown hg) (hparts ▸ hpart), ?_⟩
      exact fun _ => (hclasses c).mpr ⟨_, hpart, by simp [classes]⟩
    · have hself : c ∈ t.concrete c := by simp [(hsingle c hc).concrete_eq]
      obtain ⟨hfit, hfound⟩ := hs.fits_join hwf hl hkept hc hself hn hwf' hg hparts
      refine ⟨hfit, fun hway => hfound fun g hcg hgen => (hway g hcg hgen).imp_right fun hsame => ?_⟩
      exact ⟨hsame, by simp [members_of_not_union (hsingle c hc).ne_zero (hsingle c hc).no_union]⟩
  refine ⟨⟨fun hzero => ?_, fun hnil => ?_⟩, hfits, fun c hc hout => ?_, fun a ha c hc => ?_, hexact⟩
  · refine List.eq_nil_iff_forall_not_mem.mpr fun c hc => (hsingle c hc).ne_zero ?_
    have hfit := (hfits c hc).1
    rw [hzero] at hfit
    exact hwf'.implements_zero_right (hl.of_grown hg) (hg.lt_size (hkept c hc)) hfit
  · refine (hwf'.concrete_eq_nil_iff (hl.of_grown hg)).mp ?_
    rw [hexact (by simp [hnil]), hnil]
  · obtain ⟨p, hp, hcp⟩ := (hclasses c).mp hc
    cases p with
    | one b =>
      obtain rfl : c = b := by simpa [classes] using hcp
      obtain ⟨b, hb, heq⟩ := (mem_partsOf_singles hsingle).mp (mem_of_one_mem_join hp)
      exact absurd (Part.one.inj heq ▸ hb) hout
    | whole a => exact ⟨a, hp, hcp⟩
  · exact (hclasses c).mpr ⟨_, ha, hc⟩

/-- Two classes, 15 and 16, below the class 14, and the union 18 of nil with the hierarchy of all three. -/
def performers : Table :=
  Operation.runAll [
    .defineClass "Performer" Builtin.object [],
    .defineClass "Actor" 14 [],
    .defineClass "Dancer" 14 [],
    .merge [Builtin.nil, 15, 16]] initial

/-- A method that nil and one of the two classes have. -/
def bowing : Env :=
  { groups := #[{ key := ⟨"bow", 0, false⟩, owner := Builtin.nil },
      { key := ⟨"bow", 0, false⟩, owner := 16 }] }

/-- Nil and the one class are left, as they share no ancestor below a root. -/
theorem concrete_respondsTo_performers :
    Inferred performers ∧ bowing.Declared performers ∧ 18 < performers.size ∧
    performers.concrete 18 = [Builtin.nil, 14, 15, 16] ∧
    ((Filter.apply bowing.respondsTo (.respondsTo "bow") 18).run performers).1 ≠ 0 ∧
    ((Filter.apply bowing.respondsTo (.respondsTo "bow") 18).run performers).2.concrete
      ((Filter.apply bowing.respondsTo (.respondsTo "bow") 18).run performers).1 = [Builtin.nil, 16] := by
  have hinf : Inferred performers := Inferred.initial.runAll (by decide +kernel)
  have he : bowing.Declared performers := by
    simp only [Env.Declared, bowing]
    decide +kernel
  have hid : 18 < performers.size := by decide +kernel
  have hkept : (performers.concrete 18).filter (bowing.hasMethod performers · "bow") =
      [Builtin.nil, 16] := by decide +kernel
  obtain ⟨hzero, -, -, -, hexact⟩ := hinf.concrete_respondsTo he hid "bow"
  rw [hkept] at hzero hexact
  exact ⟨hinf, he, hid, by decide +kernel, fun h0 => absurd (hzero.mp h0) (by simp),
    hexact (by decide +kernel)⟩

end Table

namespace Session

/-- A class below another one, with a method. -/
def artist (name : String) : Source :=
  .node none (.classDef name (some ⟨none, some ["Performer"], none⟩) none
    (some (.node none (.methodDef "" "perform" none none (some (.node none (.boolLiteral true))) false))))

/-- A variable takes on a new instance of a class. -/
def casting (name : String) : Source :=
  .node none (.assign (some (.node none (.localVar "x" false)))
    (some (.node none (.call (some (.node none (.path (some [name]) none))) "new" none none false))))

/-- What has the method is asked to perform. -/
def audition : Source :=
  .node none (.ifElse (some (.node none (.respondsTo (some (.node none (.localVar "x" false))) "perform")))
    (some (.node none (.call (some (.node none (.localVar "x" false))) "perform" none none false))) none)

/-- Two classes with the method stand below one without, and the variable takes on both. -/
def play : Source :=
  .node none (.expressions (some [.node none (.classDef "Performer" none none none),
    artist "Actor", artist "Dancer", casting "Actor", casting "Dancer", audition]))

/-- The program when this is typed. -/
def played : Program :=
  ((Program.initial .none).run (Program.infer play)).2

/-- **A class without the method is brought back.** The classes 17 and 19 have it and their superclass 15 has
not, but all three are left of the hierarchy 21. So the call in the branch is refused. -/
theorem silent_class_kept :
    Session .none played ∧ played.types.concrete 21 = [15, 17, 19] ∧
    (played.types.concrete 21).filter (played.env.hasMethod played.types · "perform") = [17, 19] ∧
    ((Filter.apply played.env.respondsTo (.respondsTo "perform") 21).run played.types).2.concrete
      ((Filter.apply played.env.respondsTo (.respondsTo "perform") 21).run played.types).1 =
        [15, 17, 19] ∧
    ((Program.initial .none).run (Program.infer play)).1.toOption = none :=
  ⟨.tree .initial _, by decide +kernel⟩

end Session

end TypeFlow
