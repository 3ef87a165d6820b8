import Mathlib.Logic.Relation
import TypeFlow.Inference.Env
import TypeFlow.Proofs.Flow.Run
import TypeFlow.Proofs.Types.Naming
import TypeFlow.Proofs.Types.Widening

/-!
# How a program evolves

Typing changes a program in few ways, which `Program.Change` lists: the table widens, the graph changes,
books are kept, sites are opened and resolved, and dispatches are opened and extended. `Evolves p p'` says
that such changes lead from `p` to `p'`. Whatever survives every change is known of all later states: the
classes of a type (`Evolves.widens`) and what a dispatch has subcalls for (`Evolves.dispatch`).

Methods and instances are among the books there. `Program.Act` looks closer at these: it says what is
declared, filed and instantiated, and under which conditions. `Acts p p'` says that such acts lead from `p`
to `p'`; a method keeps its definition and all that it remembers (`Acts.method`), and an instance what it
was made for and its body (`Acts.inst`).
-/

namespace TypeFlow

/-! ### Slots and associations -/

namespace Slots

variable {α : Type}

theorem get?_modify (s : Slots α) (i j : Nat) (f : α → α) :
    (s.modify i f).get? j = if i = j then (s.get? j).map f else s.get? j := by
  rw [get?, modify, Array.getElem?_modify, get?]
  split
  · cases s.entries[j]? with
    | none => rfl
    | some o => cases o <;> rfl
  · rfl

theorem get?_set (s : Slots α) (i j : Nat) (a : α) :
    (s.set i a).get? j = if i = j then some a else s.get? j := by
  rw [get?, set]
  split
  · rename_i hi
    simp only [Array.getElem?_setIfInBounds, get?, hi, if_true]
    split <;> rfl
  · rename_i hi
    -- the slots between the end and `i` are filled up with empty ones
    simp only [Array.getElem?_push, Array.getElem?_append, Array.getElem?_replicate, get?]
    grind

end Slots

/-- The first entry of a key counts. -/
theorem assoc?_cons {α β : Type} [BEq α] [LawfulBEq α] [DecidableEq α] (k : α) (b : β) (l : List (α × β))
    (key : α) : assoc? ((k, b) :: l) key = if k = key then some b else assoc? l key := by
  unfold assoc?
  rw [List.find?_cons]
  by_cases h : k = key
  · simp [h]
  · simp [h, beq_eq_false_iff_ne.mpr h]

/-- A key that is found stands in the list. -/
theorem mem_of_assoc? {α β : Type} [BEq α] [LawfulBEq α] {l : List (α × β)} {key : α} {b : β}
    (h : assoc? l key = some b) : (key, b) ∈ l := by
  obtain ⟨⟨k, b'⟩, hfind, rfl⟩ := Option.map_eq_some_iff.mp h
  obtain rfl : k = key := by simpa using List.find?_some hfind
  exact List.mem_of_find?_eq_some hfind

/-! ### Notes -/

namespace Env

variable (e : Env) (occ : Nat) (f : Note → Note)

theorem getElem?_openNotes (notes : Array Note) (size o : Nat) :
    ((openNotes notes size)[o]?).getD {} = (notes[o]?).getD {} := by
  rw [openNotes, Array.getElem?_append]
  split
  · rfl
  · rename_i hsize
    rw [Array.getElem?_replicate, Array.getElem?_eq_none (Nat.not_lt.mp hsize)]
    split <;> rfl

/-- The notes about other occurrences stay. -/
theorem note_changeNote (o : Nat) :
    (e.changeNote occ f).note o = if occ = o then f (e.note occ) else e.note o := by
  rw [note, changeNote, Array.getElem?_modify]
  split
  · rename_i ho
    subst ho
    have hopen : occ < (openNotes e.notes (occ + 1)).size := by
      rw [openNotes, Array.size_append, Array.size_replicate]
      omega
    have hnote := getElem?_openNotes e.notes (occ + 1) occ
    rw [Array.getElem?_eq_getElem hopen] at hnote ⊢
    exact congrArg f hnote
  · exact getElem?_openNotes _ _ _

theorem size_changeNote : e.notes.size ≤ (e.changeNote occ f).notes.size := by
  rw [changeNote, Array.size_modify, openNotes, Array.size_append]
  exact Nat.le_add_right _ _

variable {e occ f}

theorem note_of_getElem? {o : Nat} {n : Note} (h : e.notes[o]? = some n) : e.note o = n := by
  rw [note, h]
  rfl

/-- A note is an empty one, or one of those that are there. -/
theorem note_cases (e : Env) (o : Nat) : e.note o = {} ∨ e.notes[o]? = some (e.note o) := by
  rw [note]
  cases e.notes[o]? with
  | none => exact .inl rfl
  | some n => exact .inr rfl

/-- What holds of the empty note and of all notes holds of all notes after a change that keeps it. -/
theorem forall_changeNote {P : Note → Prop} (hempty : P {}) (hnotes : ∀ n ∈ e.notes, P n)
    (hf : P (e.note occ) → P (f (e.note occ))) : ∀ n ∈ (e.changeNote occ f).notes, P n := by
  have hnote : ∀ o, P (e.note o) := fun o =>
    (note_cases e o).elim (fun h => h ▸ hempty) fun h => hnotes _ (Array.mem_of_getElem? h)
  intro n hn
  obtain ⟨o, ho⟩ := Array.mem_iff_getElem?.mp hn
  rw [← note_of_getElem? ho, note_changeNote]
  split
  · exact hf (hnote occ)
  · exact hnote o

end Env

/-! ### Changes -/

/-- One change that typing makes to a program. -/
inductive Program.Change (p : Program) : Program → Prop
  /-- The table widens. -/
  | types {t : Table} (h : p.types.Widens t) : Change p { p with types := t }
  /-- The graph changes. -/
  | graph (g : Graph) : Change p { p with graph := g }
  /-- Something changes that concerns neither sites nor dispatches. -/
  | books {e : Env} (hs : e.sites = p.env.sites) (hd : e.dispatches = p.env.dispatches) :
    Change p { p with env := e }
  /-- Sites are opened or change, but keep their dispatches. -/
  | sites {s : Slots Site}
    (h : ∀ x y, s.get? x = some y → y.dispatch = none ∨
      ∃ z, p.env.sites.get? x = some z ∧ z.dispatch = y.dispatch) :
    Change p { p with env := { p.env with sites := s } }
  /-- The site at a node gets a dispatch. -/
  | opened (x : NodeId) (name : String) (node : NodeId) :
    Change p { p with env := { p.env with
      dispatches := p.env.dispatches.push { name, node }
      sites := p.env.sites.modify x fun s => { s with dispatch := some p.env.dispatches.size } } }
  /-- A combination is noted. -/
  | shape (d : Nat) (shape : List TypeId) :
    Change p { p with env := { p.env with
      dispatches := p.env.dispatches.modify d fun d => { d with shapes := shape :: d.shapes } } }
  /-- A subcall is added. -/
  | subcall (d : Nat) (call : Placed) :
    Change p { p with env := { p.env with
      dispatches := p.env.dispatches.modify d fun d => { d with subcalls := d.subcalls ++ [call] } } }

/-- Changes lead from a program to a later one. -/
abbrev Evolves : Program → Program → Prop :=
  Relation.ReflTransGen Program.Change

/-- A dispatch that has been extended. -/
structure Dispatch.Extends (d d' : Dispatch) : Prop where
  name : d'.name = d.name
  node : d'.node = d.node
  subcalls : d.subcalls <+: d'.subcalls
  shapes : d.shapes <:+ d'.shapes

namespace Dispatch.Extends

theorem refl (d : Dispatch) : d.Extends d :=
  ⟨rfl, rfl, List.prefix_refl _, List.suffix_refl _⟩

theorem trans {d d' d'' : Dispatch} (h : d.Extends d') (h' : d'.Extends d'') : d.Extends d'' :=
  ⟨h'.name.trans h.name, h'.node.trans h.node, h.subcalls.trans h'.subcalls, h.shapes.trans h'.shapes⟩

end Dispatch.Extends

namespace Program.Change

variable {p p' : Program}

theorem widens (h : Change p p') : p.types.Widens p'.types := by
  cases h with
  | types h => exact h
  | _ => exact .refl _

theorem dispatch (h : Change p p') {i : Nat} {d : Dispatch} (hd : p.env.dispatches[i]? = some d) :
    ∃ d', p'.env.dispatches[i]? = some d' ∧ d.Extends d' := by
  have hmodify : ∀ (j : Nat) (f : Dispatch → Dispatch), d.Extends (f d) →
      ∃ d', (p.env.dispatches.modify j f)[i]? = some d' ∧ d.Extends d' := by
    intro j f hf
    rw [Array.getElem?_modify, hd]
    split
    · exact ⟨f d, rfl, hf⟩
    · exact ⟨d, rfl, .refl d⟩
  cases h with
  | types _ | graph _ | sites _ => exact ⟨d, hd, .refl d⟩
  | books _ heq => exact ⟨d, heq ▸ hd, .refl d⟩
  | opened x name node =>
    -- a new dispatch gets a number of its own, so `i` is an old one
    refine ⟨d, ?_, .refl d⟩
    simp only [Array.getElem?_push]
    rw [if_neg (Nat.ne_of_lt (Array.getElem?_eq_some_iff.mp hd).1), hd]
  | shape j shape => exact hmodify j _ ⟨rfl, rfl, List.prefix_refl _, List.suffix_cons _ _⟩
  | subcall j call => exact hmodify j _ ⟨rfl, rfl, List.prefix_append _ _, List.suffix_refl _⟩

end Program.Change

namespace Evolves

variable {p p' : Program}

theorem widens (h : Evolves p p') : p.types.Widens p'.types := by
  induction h with
  | refl => exact .refl _
  | tail _ hc ih => exact ih.trans hc.widens

/-- **A dispatch is never taken back**, nor is anything that it has a subcall for. -/
theorem dispatch (h : Evolves p p') {i : Nat} {d : Dispatch} (hd : p.env.dispatches[i]? = some d) :
    ∃ d', p'.env.dispatches[i]? = some d' ∧ d.Extends d' := by
  induction h with
  | refl => exact ⟨d, hd, .refl d⟩
  | tail _ hc ih =>
    obtain ⟨d₁, hd₁, hx₁⟩ := ih
    obtain ⟨d₂, hd₂, hx₂⟩ := hc.dispatch hd₁
    exact ⟨d₂, hd₂, hx₁.trans hx₂⟩

end Evolves

/-- Whether a method is a foreign function. -/
def Method.isForeign (m : Method) : Bool :=
  match m.kind with
  | .external _ => true
  | _ => false

/-- A later state of a method: it has the same definition and remembers at least as much. -/
structure Method.Extends (m m' : Method) : Prop where
  definition : m'.definition = m.definition
  kind : m'.kind = m.kind
  memo : ∀ key i, assoc? m.memo key = some i → assoc? m'.memo key = some i
  external : ∀ i, m.external = some i → m'.external = some i

namespace Method.Extends

theorem refl (m : Method) : m.Extends m :=
  ⟨rfl, rfl, fun _ _ h => h, fun _ h => h⟩

theorem trans {m m' m'' : Method} (h : m.Extends m') (h' : m'.Extends m'') : m.Extends m'' :=
  ⟨h'.definition.trans h.definition, h'.kind.trans h.kind, fun key i hi => h'.memo key i (h.memo key i hi),
    fun i hi => h'.external i (h.external i hi)⟩

theorem isForeign {m m' : Method} (h : m.Extends m') : m'.isForeign = m.isForeign := by
  rw [Method.isForeign, Method.isForeign, h.kind]

end Method.Extends

/-- What an instance is made for: a method, a receiver type and argument types. -/
def Instance.purpose (a : Instance) : MethodId × TypeId × List TypeId :=
  (a.method, a.owner, a.args)

/-- A later state of an instance: it was made for the same, has the same result, and keeps its body once it has
one. -/
structure Instance.Extends (a a' : Instance) : Prop where
  purpose : a'.purpose = a.purpose
  result : a'.result = a.result
  body : ∀ b, a.body = some b → a'.body = some b

namespace Instance.Extends

theorem refl (a : Instance) : a.Extends a :=
  ⟨rfl, rfl, fun _ h => h⟩

theorem trans {a a' a'' : Instance} (h : a.Extends a') (h' : a'.Extends a'') : a.Extends a'' :=
  ⟨h'.purpose.trans h.purpose, h'.result.trans h.result, fun b hb => h'.body b (h.body b hb)⟩

/-- An instance that has no body yet gets one. -/
theorem written {a : Instance} (h : a.body = none) (b : Placed) : a.Extends { a with body := some b } :=
  ⟨rfl, rfl, fun b' hb' => by rw [h] at hb'; cases hb'⟩

end Instance.Extends

/-- The methods, how they are found, and their instances. -/
def Env.catalogue (e : Env) :
    Array Method × Array Group × List ((TypeId × String) × MethodId) × Array Instance :=
  (e.methods, e.groups, e.funs, e.instances)

namespace Program

/-- A number is that of a foreign function. -/
def Imports (p : Program) (id : MethodId) : Prop :=
  ∃ m, p.env.methods[id]? = some m ∧ m.isForeign = true

/-- A number is that of a method that is no foreign function, and expects a block or does not. -/
def Expects (p : Program) (id : MethodId) (yields : Bool) : Prop :=
  ∃ m, p.env.methods[id]? = some m ∧ m.isForeign = false ∧ m.definition.yields = yields

/-- A method is among the candidates of a group for calls with a block, or for calls without one. -/
def Offers (p : Program) (id : MethodId) (yields : Bool) : Prop :=
  ∃ g ∈ p.env.groups, g.key.yields = yields ∧ ∃ c ∈ g.candidates, c.id = id

/-- A number is filed as that of a foreign function. -/
def Names (p : Program) (id : MethodId) : Prop :=
  ∃ key, (key, id) ∈ p.env.funs

/-- One thing that typing does to a program, as far as methods and instances are concerned. -/
inductive Act (p : Program) : Program → Prop
  /-- Something else changes. -/
  | change {p' : Program} (h : p.Change p') (hsame : p'.env.catalogue = p.env.catalogue) : Act p p'
  /-- A method is declared. -/
  | declare (m : Method) (hmemo : m.memo = []) (hext : m.external = none) :
    Act p { p with env := { p.env with methods := p.env.methods.push m } }
  /-- Groups change. A candidate that a group did not have is a method that suits it. -/
  | file {gs : Array Group}
    (h : ∀ g ∈ gs, ∀ c ∈ g.candidates, p.Offers c.id g.key.yields ∨ p.Expects c.id g.key.yields) :
    Act p { p with env := { p.env with groups := gs } }
  /-- A foreign function is filed under its library and name. -/
  | name (key : TypeId × String) {id : MethodId} (h : p.Imports id) :
    Act p { p with env := { p.env with funs := (key, id) :: p.env.funs } }
  /-- An instance changes, but not what it is made for, nor its body. -/
  | edit (i : InstanceId) {f : Instance → Instance}
    (h : ∀ a, p.env.instances[i]? = some a → a.Extends (f a)) :
    Act p { p with env := { p.env with instances := p.env.instances.modify i f } }
  /-- An instance is made for a call with a block. -/
  | yielding (a : Instance) (h : p.Offers a.method true) :
    Act p { p with env := { p.env with instances := p.env.instances.push a } }
  /-- An instance is made for a call without block, and remembered. The method does not remember one for
  the same types yet. -/
  | memoised (a : Instance) (h : p.Offers a.method false)
    (hnew : ∀ m, p.env.methods[a.method]? = some m → assoc? m.memo (a.owner :: a.args) = none) :
    Act p { p with env := { p.env with
      instances := p.env.instances.push a
      methods := p.env.methods.modify a.method fun m =>
        { m with memo := (a.owner :: a.args, p.env.instances.size) :: m.memo } } }
  /-- The instance of a foreign function is made, which has none yet. -/
  | foreign (a : Instance) (h : p.Names a.method)
    (hnew : ∀ m, p.env.methods[a.method]? = some m → m.external = none) :
    Act p { p with env := { p.env with
      instances := p.env.instances.push a
      methods := p.env.methods.modify a.method fun m =>
        { m with external := some p.env.instances.size } } }

end Program

/-- Acts lead from a program to a later one. -/
abbrev Acts : Program → Program → Prop :=
  Relation.ReflTransGen Program.Act

namespace Program.Act

variable {p p' : Program}

/-- Seen from afar, acts are changes. -/
theorem evolves (h : Act p p') : Evolves p p' := by
  cases h with
  | change h _ => exact .single h
  | _ => exact .single (.books rfl rfl)

theorem method (h : Act p p') {id : MethodId} {m : Method} (hm : p.env.methods[id]? = some m) :
    ∃ m', p'.env.methods[id]? = some m' ∧ m.Extends m' := by
  have hmodify : ∀ (j : MethodId) (f : Method → Method), (j = id → m.Extends (f m)) →
      ∃ m', (p.env.methods.modify j f)[id]? = some m' ∧ m.Extends m' := by
    intro j f hf
    rw [Array.getElem?_modify, hm]
    split
    · rename_i hj
      exact ⟨f m, rfl, hf hj⟩
    · exact ⟨m, rfl, .refl m⟩
  cases h with
  | change _ hsame =>
    have hmethods : p'.env.methods = p.env.methods := congrArg Prod.fst hsame
    exact ⟨m, hmethods ▸ hm, .refl m⟩
  | file _ | name _ _ | edit _ _ | yielding _ _ => exact ⟨m, hm, .refl m⟩
  | declare m₀ _ _ =>
    refine ⟨m, ?_, .refl m⟩
    simp only [Array.getElem?_push]
    rw [if_neg (Nat.ne_of_lt (Array.getElem?_eq_some_iff.mp hm).1), hm]
  | memoised a _ hnew =>
    refine hmodify _ _ fun hid => ⟨rfl, rfl, fun key i hi => ?_, fun _ h => h⟩
    have hne : a.owner :: a.args ≠ key := by
      rintro rfl
      rw [hnew m (hid ▸ hm)] at hi
      cases hi
    rw [assoc?_cons, if_neg hne, hi]
  | foreign a _ hnew =>
    refine hmodify _ _ fun hid => ⟨rfl, rfl, fun _ _ h => h, fun i hi => ?_⟩
    -- there is nothing that the new instance could take the place of
    rw [hnew m (hid ▸ hm)] at hi
    cases hi

theorem inst (h : Act p p') {i : InstanceId} {a : Instance} (ha : p.env.instances[i]? = some a) :
    ∃ a', p'.env.instances[i]? = some a' ∧ a.Extends a' := by
  have hpush : ∀ b, (p.env.instances.push b)[i]? = some a := by
    intro b
    rw [Array.getElem?_push, if_neg (Nat.ne_of_lt (Array.getElem?_eq_some_iff.mp ha).1), ha]
  cases h with
  | change _ hsame =>
    have hinstances : p'.env.instances = p.env.instances := congrArg (·.2.2.2) hsame
    exact ⟨a, hinstances ▸ ha, .refl a⟩
  | file _ | name _ _ | declare _ _ _ => exact ⟨a, ha, .refl a⟩
  | edit j hkeep =>
    simp only [Array.getElem?_modify, ha]
    split
    · rename_i hj
      exact ⟨_, rfl, hkeep a (hj ▸ ha)⟩
    · exact ⟨a, rfl, .refl a⟩
  | yielding b _ | memoised b _ _ | foreign b _ _ => exact ⟨a, hpush b, .refl a⟩

theorem names (h : Act p p') {id : MethodId} (hid : p.Names id) : p'.Names id := by
  obtain ⟨key, hkey⟩ := hid
  cases h with
  | change _ hsame =>
    have hfuns : p'.env.funs = p.env.funs := congrArg (·.2.2.1) hsame
    exact ⟨key, hfuns ▸ hkey⟩
  | name _ _ => exact ⟨key, List.mem_cons_of_mem _ hkey⟩
  | _ => exact ⟨key, hkey⟩

end Program.Act

namespace Acts

variable {p p' : Program}

theorem evolves (h : Acts p p') : Evolves p p' := by
  induction h with
  | refl => exact .refl
  | tail _ ha ih => exact ih.trans ha.evolves

/-- **A method is never taken back**, nor is an instance that it remembers. -/
theorem method (h : Acts p p') {id : MethodId} {m : Method} (hm : p.env.methods[id]? = some m) :
    ∃ m', p'.env.methods[id]? = some m' ∧ m.Extends m' := by
  induction h with
  | refl => exact ⟨m, hm, .refl m⟩
  | tail _ ha ih =>
    obtain ⟨m₁, hm₁, hx₁⟩ := ih
    obtain ⟨m₂, hm₂, hx₂⟩ := ha.method hm₁
    exact ⟨m₂, hm₂, hx₁.trans hx₂⟩

/-- **An instance keeps what it is made for**, and its body. -/
theorem inst (h : Acts p p') {i : InstanceId} {a : Instance} (ha : p.env.instances[i]? = some a) :
    ∃ a', p'.env.instances[i]? = some a' ∧ a.Extends a' := by
  induction h with
  | refl => exact ⟨a, ha, .refl a⟩
  | tail _ hact ih =>
    obtain ⟨a₁, ha₁, hx₁⟩ := ih
    obtain ⟨a₂, ha₂, hx₂⟩ := hact.inst ha₁
    exact ⟨a₂, ha₂, hx₁.trans hx₂⟩

theorem names (h : Acts p p') {id : MethodId} (hid : p.Names id) : p'.Names id := by
  induction h with
  | refl => exact hid
  | tail _ ha ih => exact ha.names ih

theorem expects (h : Acts p p') {id : MethodId} {yields : Bool} (hid : p.Expects id yields) :
    p'.Expects id yields := by
  obtain ⟨m, hm, hforeign, hyields⟩ := hid
  obtain ⟨m', hm', hx⟩ := h.method hm
  exact ⟨m', hm', hx.isForeign.trans hforeign, hx.definition ▸ hyields⟩

theorem imports (h : Acts p p') {id : MethodId} (hid : p.Imports id) : p'.Imports id := by
  obtain ⟨m, hm, hforeign⟩ := hid
  obtain ⟨m', hm', hx⟩ := h.method hm
  exact ⟨m', hm', hx.isForeign.trans hforeign⟩

end Acts

end TypeFlow
