import TypeFlow.Overload.Resolution
import TypeFlow.Proofs.Overload.Cover
import TypeFlow.Proofs.Overload.Settled

/-!
# Runs of matching computations

Matching an argument carries bindings of free type variables besides the table. Run on some bindings it
is a computation on the table, and each step of matching is one equation about such runs. With these
equations the rules for computations that add types (`Table.Adds`) apply to matching as they stand.
-/

namespace TypeFlow

/-- The restrictions of the parameters of a candidate. -/
def Candidate.restrictions {ι : Type} (c : Candidate ι) : List (Option TypeExpr) :=
  c.signature.params.map Prod.snd

namespace Matches

variable {ι : Type} {m : Matches ι}

theorem found_of_no_cover (h : m.cover = none) : m.found = true ↔ m.list ≠ [] := by
  simp [found, h]

theorem found_of_cover {c : Cover} (h : m.cover = some c) :
    m.found = true ↔ m.list ≠ [] ∧ c.all = true := by
  simp [found, h]

end Matches

namespace Cover

variable {ι : Type} (t : Table) (args : List TypeId) (list : List (Match ι))

theorem dims_marked :
    (list.foldl (fun c m => c.mark t m.argTypes) (ofArgs t args)).dims = args.map t.concrete :=
  dims_foldl_mark t Match.argTypes list (ofArgs t args)

/-- The cover of matches records the combinations within one of them. -/
theorem records_marked : (list.foldl (fun c m => c.mark t m.argTypes) (ofArgs t args)).Records
    fun xs => list.any fun m => within (m.argTypes.map t.concrete) xs := by
  simpa using (records_ofArgs t args).foldl_mark t Match.argTypes list

end Cover

namespace Overload

open Table

variable {r : Resolver} {owner arg : TypeId} {b : Bindings}

/-! ### Restrictions -/

theorem run_getThe (b : Bindings) : (getThe Table : Matching Table).run b =
    (do let t ← get
        return (t, b) : TableM (Table × Bindings)) :=
  rfl

theorem run_restrict_self : (restrict r owner arg .self).run b =
    (do let t ← get
        let m ← Table.restrict arg (t.selfType owner)
        return (m, b) : TableM (TypeId × Bindings)) := by
  rw [restrict]
  rfl

theorem run_restrict_union (alternatives : List TypeExpr) :
    (restrict r owner arg (.union alternatives)).run b =
    (do let p ← (restrictEach r owner arg alternatives).run b
        let m ← Table.unionOf (p.1.filter (· ≠ 0))
        return (m, p.2) : TableM (TypeId × Bindings)) := by
  rw [restrict]
  rfl

theorem run_restrictEach_nil : (restrictEach r owner arg []).run b = pure ([], b) := by
  rw [restrictEach]
  rfl

theorem run_restrictEach_cons (e : TypeExpr) (rest : List TypeExpr) :
    (restrictEach r owner arg (e :: rest)).run b =
    (do let p ← (restrict r owner arg e).run b
        let q ← (restrictEach r owner arg rest).run p.2
        return (p.1 :: q.1, q.2) : TableM (List TypeId × Bindings)) := by
  rw [restrictEach]
  rfl

/-- A name that is bound restricts to what it is bound to. -/
theorem run_restrict_bound {names : List String} {bound : TypeId}
    (h : (freeName? names).bind b.get? = some bound) :
    (restrict r owner arg (.named names [])).run b =
    (do let m ← Table.restrict arg bound
        return (m, b) : TableM (TypeId × Bindings)) := by
  rw [restrict, restrictName]
  simp only [List.isEmpty_nil, if_true, StateT.run_bind, StateT.run_get, pure_bind, h]
  rfl

/-- A name that is not bound restricts to what it stands for, or is bound if it stands for nothing. -/
theorem run_restrict_unbound {names : List String} (h : (freeName? names).bind b.get? = none) :
    (restrict r owner arg (.named names [])).run b =
    (do let t ← get
        match r t owner names, freeName? names with
        | some target, _ => do
          let m ← Table.restrict arg target
          return (m, b)
        | none, some name => return (arg, (name, arg) :: b)
        | none, none => return (0, b) : TableM (TypeId × Bindings)) := by
  rw [restrict, restrictName]
  simp only [List.isEmpty_nil, if_true, StateT.run_bind, StateT.run_get, pure_bind, h, run_getThe,
    bind_assoc]
  refine congrArg (get >>= ·) (funext fun t => ?_)
  cases r t owner names <;> cases freeName? names <;> rfl

/-! ### Generic restrictions -/

/-- Whether a member is an instance with arguments that the written ones admit. -/
def keeps (r : Resolver) (owner : TypeId) (args : List TypeExpr) (template m : TypeId) :
    Matching Bool := do
  let given := instanceArgs (← getThe Table) m template
  if given.length ≠ args.length then return false
  else agree r owner given args

theorem run_restrict_generic (names : List String) {args : List TypeExpr} (hargs : args ≠ []) :
    (restrict r owner arg (.named names args)).run b =
    (do let t ← get
        match r t owner names with
        | none => return (0, b)
        | some template => do
          let p ← ((t.members arg).filterM (keeps r owner args template)).run b
          let m ← Table.unionOf p.1
          return (m, p.2) : TableM (TypeId × Bindings)) := by
  rw [restrict, if_neg (by simpa using hargs)]
  simp only [StateT.run_bind, run_getThe, bind_assoc, pure_bind]
  refine congrArg (get >>= ·) (funext fun t => ?_)
  cases r t owner names <;> rfl

theorem run_keeps {args : List TypeExpr} {template m : TypeId} :
    (keeps r owner args template m).run b =
    (do let t ← get
        if (instanceArgs t m template).length ≠ args.length then return (false, b)
        else (agree r owner (instanceArgs t m template) args).run b : TableM (Bool × Bindings)) := by
  rw [keeps, StateT.run_bind, run_getThe, bind_assoc]
  refine congrArg (get >>= ·) (funext fun t => ?_)
  simp only [pure_bind]
  split <;> rfl

theorem run_agree_cons (t : TypeId) (more : List TypeId) (e : TypeExpr) (rest : List TypeExpr) :
    (agree r owner (t :: more) (e :: rest)).run b =
    (do let p ← (restrict r owner t e).run b
        if p.1 = t then (agree r owner more rest).run p.2
        else return (false, p.2) : TableM (Bool × Bindings)) := by
  rw [agree, StateT.run_bind]
  refine bind_congr fun p => ?_
  split <;> rfl

section FilterM

variable {m : Type → Type} [Monad m] [LawfulMonad m] {α : Type}

theorem filterAuxM_eq (p : α → m Bool) (l acc : List α) :
    l.filterAuxM p acc = (do let kept ← l.filterAuxM p []; return kept ++ acc) := by
  induction l generalizing acc with
  | nil => simp [List.filterAuxM]
  | cons x l ih =>
    simp only [List.filterAuxM, bind_assoc]
    refine bind_congr fun keep => ?_
    cases keep
    · exact ih acc
    · simp only [cond_true]
      rw [ih (x :: acc), ih [x]]
      simp

/-- A filter keeps the first element or not, and then filters the others. -/
theorem filterM_cons (p : α → m Bool) (x : α) (l : List α) :
    (x :: l).filterM p = (do
      let keep ← p x
      let kept ← l.filterM p
      return if keep then x :: kept else kept) := by
  simp only [List.filterM, List.filterAuxM, bind_assoc]
  refine bind_congr fun keep => ?_
  cases keep
  · simp
  · simp only [cond_true]
    rw [filterAuxM_eq p l [x]]
    simp

end FilterM

/-! ### Arguments and candidates -/

theorem run_restrictArgs_cons {e : Option TypeExpr} {args : List TypeId}
    {params : List (Option TypeExpr)} :
    (restrictArgs r owner (arg :: args) (e :: params)).run b =
    (do let p ← (restrictParam r owner arg e).run b
        if p.1 = 0 then return (none, p.2)
        else do
          let q ← (restrictArgs r owner args params).run p.2
          return (q.1.map (p.1 :: ·), q.2) : TableM (Option (List TypeId) × Bindings)) := by
  rw [restrictArgs, StateT.run_bind]
  refine bind_congr fun p => ?_
  split <;> rfl

/-- A type stands for several classes if it is a union or a hierarchy. -/
theorem isSeveral_iff {t : Table} {id : TypeId} : isSeveral t id = true ↔
    (∃ ms, t.get? id = some (.union ms)) ∨ ∃ base, t.get? id = some (.hierarchy base) := by
  unfold isSeveral kind?
  cases t.get? id with
  | none => simp
  | some e => cases e <;> simp [Entry.kind]

end Overload

end TypeFlow
