import TypeFlow.Proofs.Inference.Memo
import TypeFlow.Proofs.Inference.NewCalls
import TypeFlow.Proofs.Inference.Pointing

/-!
# Arguments that are left out

A call may leave out the arguments of a method's last parameters, whose defaults are assigned to them ahead of
the body. The numbers of arguments that the method accepts count from the first parameter with a default on, so
a parameter without one behind it can be left out, too, and then there is nothing to assign. This is the only
case: `Definition.fills_iff_defaultsLast`. There is a body for an instance exactly if there is something to assign
everywhere (`Infer.isSome_bodyFor?_iff`).

A call is only ever matched with methods that accept its number of arguments, whatever program it is in and
however its group was found or made (`Infer.matchCall_accepted`). So where defaults stand last, the instance that is
made for a call gets a body that assigns all that the call leaves out (`Engine.instantiate_fills`);
`Session.gapped_defaults` is a program where a parameter that is left out has no default.
-/

namespace TypeFlow

variable {x : Expander} {p p' : Program} {site : Site} {recv owner : TypeId} {args : List TypeId}
  {ms : Matches MethodId}

namespace Definition

variable {d : Definition} {n : Nat}

/-- What a call with `n` arguments leaves out, there are defaults for. -/
def Fills (d : Definition) (n : Nat) : Prop :=
  ∀ x ∈ d.params.drop n, x.fallback.isSome

/-- No parameter with a default comes before one without. -/
def DefaultsLast (d : Definition) : Prop :=
  d.params.Pairwise fun x y => x.fallback.isSome → y.fallback.isSome

instance (d : Definition) (n : Nat) : Decidable (d.Fills n) :=
  inferInstanceAs (Decidable (∀ x ∈ d.params.drop n, x.fallback.isSome))

instance (d : Definition) : Decidable d.DefaultsLast :=
  inferInstanceAs (Decidable (d.params.Pairwise _))

/-- Who leaves out fewer arguments needs no more defaults. -/
theorem Fills.mono {k : Nat} (h : d.Fills k) (hkn : k ≤ n) : d.Fills n := fun x hx =>
  h x (List.drop_subset_drop_left d.params hkn hx)

theorem required_le : d.required ≤ d.params.length := by
  unfold required
  cases hfind : d.params.findIdx? (·.fallback.isSome) with
  | none => exact le_rfl
  | some i => exact Nat.le_of_lt (List.findIdx?_eq_some_iff_findIdx_eq.mp hfind).1

/-- Parameters that are required come before all defaults, and a default comes next. -/
theorem fills_required_iff : d.Fills d.required ↔ d.DefaultsLast := by
  unfold Fills required DefaultsLast
  generalize d.params = xs
  induction xs with
  | nil => simp
  | cons x xs ih =>
    rw [List.findIdx?_cons, List.pairwise_cons]
    cases hx : x.fallback.isSome with
    | true =>
      simp only [if_true, Option.getD_some, List.drop_zero, List.forall_mem_cons, hx, true_and, true_imp_iff]
      refine ⟨fun h => ⟨h, ?_⟩, And.left⟩
      exact List.pairwise_of_forall_mem_list fun _ _ y hy _ => h y hy
    | false =>
      have hskip : ((xs.findIdx? (·.fallback.isSome)).map (· + 1)).getD (x :: xs).length =
          (xs.findIdx? (·.fallback.isSome)).getD xs.length + 1 := by
        cases xs.findIdx? (·.fallback.isSome) <;> rfl
      simp only [Bool.false_eq_true, if_false, hskip, List.drop_succ_cons, false_imp_iff, implies_true, true_and]
      exact ih

/-- **Defaults fill up every call that a method accepts exactly if they stand last.** -/
theorem fills_iff_defaultsLast : (∀ n ∈ d.arities, d.Fills n) ↔ d.DefaultsLast := by
  rw [← fills_required_iff]
  refine ⟨fun h => h _ (mem_arities.mpr ⟨le_rfl, required_le⟩), fun h n hn => ?_⟩
  exact h.mono (mem_arities.mp hn).1

end Definition

namespace Infer

variable {d : Definition} {n : Nat}

/-- A tree assigns its default to a parameter. -/
def Assigns (x : Param Source) (s : Source) : Prop :=
  ∃ value, x.fallback = some value ∧
    s = .node value.mark (.assign (some (.node none (.localVar x.name false))) (some value))

/-- A tree is the body of a definition, filled up for a call with `n` arguments: ahead of the body, every parameter
that is left out is assigned its default, in order. -/
def FillsUp (d : Definition) (n : Nat) (s : Source) : Prop :=
  ∃ defaults, List.Forall₂ Assigns (d.params.drop n) defaults ∧
    s = if n < d.params.length then
        .node d.loc (.expressions (some (defaults ++ [d.body.getD (.node d.loc .nilLiteral)])))
      else d.body.getD (.node d.loc .nilLiteral)

theorem assigns_iff {x : Param Source} {s : Source} : Assigns x s ↔ defaultFor? x = some s := by
  simp only [Assigns, defaultFor?, Option.map_eq_some_iff, eq_comm (a := s)]

/-- The body that an instance gets is the definition's, filled up. -/
theorem fillsUp_iff {s : Source} : FillsUp d n s ↔ bodyFor? d n = some s := by
  have hdefaults : ∀ defaults, List.Forall₂ Assigns (d.params.drop n) defaults ↔
      (d.params.drop n).mapM defaultFor? = some defaults := by
    intro defaults
    simp only [mapM_eq_some_iff, ← assigns_iff]
  unfold bodyFor?
  by_cases hn : n < d.params.length
  · simp only [FillsUp, hdefaults, if_pos hn, Option.map_eq_some_iff, eq_comm (a := s)]
  · have hnone : d.params.drop n = [] := List.drop_eq_nil_of_le (Nat.le_of_not_lt hn)
    simp only [FillsUp, if_neg hn, hnone, List.forall₂_nil_left_iff, exists_eq_left, Option.some.injEq, eq_comm (a := s)]

/-- There is such a body exactly if what is left out has defaults. -/
theorem isSome_bodyFor?_iff : (bodyFor? d n).isSome ↔ d.Fills n := by
  have hall : ∀ xs : List (Param Source), (xs.mapM defaultFor?).isSome ↔ ∀ x ∈ xs, x.fallback.isSome := by
    intro xs
    induction xs with
    | nil => simp
    | cons x xs ih =>
      rw [List.mapM_cons, List.forall_mem_cons, ← ih, defaultFor?]
      cases x.fallback <;> cases xs.mapM defaultFor? <;> simp
  unfold bodyFor?
  by_cases hn : n < d.params.length
  · rw [if_pos hn, Option.isSome_map, hall, Definition.Fills]
  · rw [if_neg hn, Definition.Fills, List.drop_eq_nil_of_le (Nat.le_of_not_lt hn)]
    simp

/-- **A call is matched with methods that accept its number of arguments**, and has a type for each of them. -/
theorem matchCall_accepted (h : Advances (.initial x) p)
    (hrun : (matchCall site recv args).run.run p = (.ok (owner, ms), p')) {m : Match MethodId} (hm : m ∈ ms.list) :
    ∃ method, p'.env.methods[m.candidate.id]? = some method ∧ args.length ∈ method.definition.arities ∧
      m.argTypes.length = args.length := by
  have hlater : Advances (.initial x) p' := h.trans ((evolving_matchCall _ _ _).advances hrun)
  obtain ⟨g, name, ⟨hmem, hkey⟩, hms⟩ := group_of_matchCall hrun
  obtain ⟨hcandidate, hlength⟩ := hms m hm
  obtain ⟨method, hmethod, -, harity⟩ := (wellFiled_of_advances hlater g hmem).2 _ hcandidate
  rw [hkey] at harity
  exact ⟨method, hmethod, harity, hlength⟩

/-- An instance gets the body that its definition has for it, and nothing else happens to instances; without such a
body it gets none, and that is a failure. -/
theorem run_writeBody (id : InstanceId) (d : Definition) (n : Nat) (p : Program) :
    match bodyFor? d n with
    | some s => ∃ b p', (writeBody id d n).run.run p = (.ok b, p') ∧ Placed.source b = s ∧
        p'.env.instances = p.env.instances.modify id fun a => { a with body := some b }
    | none => (writeBody id d n).run.run p = (.error (Failure.absent.locate d.loc), p) := by
  unfold writeBody
  cases bodyFor? d n with
  | none => rfl
  | some s => exact ⟨(s.place.run p.env.notes.size).1, _, rfl, Source.shows_place s p.env.notes.size, rfl⟩

end Infer

namespace Engine

open Infer

variable {e : Engine} {i : InstanceId} {a : Instance} {method : Method} {node : NodeId} {loc : Option Location}

/-- Typing the body of an instance begins with what it is filled up to. Where a default is absent, it ends there. -/
theorem run_typeBody (he : e.Tame) (ha : p.env.instances[i]? = some a)
    (hmethod : p.env.methods[a.method]? = some method) {r : Except Failure Unit}
    (hrun : (e.typeBody node i).run.run p = (r, p')) :
    match bodyFor? method.definition a.args.length with
    | some s => ∃ a' b, p'.env.instances[i]? = some a' ∧ a'.body = some b ∧ Placed.source b = s
    | none => r = .error (Failure.absent.locate method.definition.loc) ∧ p' = p := by
  have hinst : (instanceOf i).run.run p = (.ok a, p) := by
    rw [instanceOf, run_env_bind, ha]
    rfl
  have hwrite := run_writeBody i method.definition a.args.length p
  rw [typeBody, Flow.run_bind_of_ok hinst, Flow.run_bind_of_ok (run_method hmethod)] at hrun
  cases hbody : bodyFor? method.definition a.args.length with
  | none =>
    rw [hbody] at hwrite
    rw [Flow.run_bind_of_error hwrite] at hrun
    cases hrun
    exact ⟨rfl, rfl⟩
  | some s =>
    rw [hbody] at hwrite
    obtain ⟨b, q, hwrite, hsource, hq⟩ := hwrite
    rw [Flow.run_bind_of_ok hwrite] at hrun
    have hwritten : q.env.instances[i]? = some { a with body := some b } := by
      rw [hq, Array.getElem?_modify, if_pos rfl, ha]
      rfl
    -- what is typed after that leaves the body alone
    obtain ⟨a', ha', hx⟩ := ((he.typeWritten node i a method.definition b).acts hrun).inst hwritten
    exact ⟨a', b, ha', hx.body b rfl, hsource⟩


/-- The same holds of the instance whose body is typed one level deeper. Its failure names the instance. -/
theorem run_typeNested (he : e.Tame) (ha : p.env.instances[i]? = some a)
    (hmethod : p.env.methods[a.method]? = some method) {r : Except Failure Unit}
    (hrun : (e.typeNested node loc i).run.run p = (r, p')) :
    match bodyFor? method.definition a.args.length with
    | some s => ∃ a' b, p'.env.instances[i]? = some a' ∧ a'.body = some b ∧ Placed.source b = s
    | none => r = .error (.instantiating loc a.signature (Failure.absent.locate method.definition.loc)) ∧
        p'.env.instances = p.env.instances := by
  let deeper : Program := { p with env := { p.env with depth := p.env.depth + 1 } }
  rcases hbody : (e.typeBody node i).run.run deeper with ⟨outcome, q⟩
  have htyped := run_typeBody (p := deeper) he ha hmethod hbody
  have hdeeper : (changeEnv fun env => { env with depth := env.depth + 1 }).run.run p = (.ok (), deeper) := rfl
  have hattempt : (Flow.attempt (e.typeBody node i)).run.run deeper = (.ok outcome, q) := by
    have hsplit : (Flow.attempt (e.typeBody node i)).run.run deeper =
        (.ok ((e.typeBody node i).run.run deeper).1, ((e.typeBody node i).run.run deeper).2) := rfl
    rw [hsplit, hbody]
  have hback : (changeEnv fun env => { env with depth := env.depth - 1 }).run.run q =
      (.ok (), { q with env := { q.env with depth := q.env.depth - 1 } }) := rfl
  rw [typeNested, Flow.run_bind_of_ok hdeeper, Flow.run_bind_of_ok hattempt, Flow.run_bind_of_ok hback] at hrun
  cases hsource : bodyFor? method.definition a.args.length with
  | none =>
    rw [hsource] at htyped
    obtain ⟨rfl, rfl⟩ := htyped
    have hsignature : (instanceOf i).run.run { deeper with env := { deeper.env with depth := deeper.env.depth - 1 } } =
        (.ok a, { deeper with env := { deeper.env with depth := deeper.env.depth - 1 } }) := by
      rw [instanceOf, run_env_bind, ha]
      rfl
    rw [Flow.run_bind_of_ok hsignature] at hrun
    cases hrun
    exact ⟨rfl, rfl⟩
  | some s =>
    rw [hsource] at htyped
    obtain ⟨a', b, ha', hwritten⟩ := htyped
    refine ⟨a', b, ?_, hwritten⟩
    cases outcome <;> (cases hrun; exact ha')

/-- Only the bodies of declared methods are typed. -/
theorem typeInstance_of_hasBody {kind : MethodKind} (h : kind.HasBody) :
    e.typeInstance site i kind = e.typeNested site.node site.call.mark.loc i := by
  cases kind with
  | user => rfl
  | external _ => rfl
  | primitive => exact h.elim
  | getter _ => exact h.elim
  | setter _ => exact h.elim

/-- **What a call leaves out, there are defaults for**, if they stand last in the method that it is matched with: the
instance that is typed for the match gets a body, which assigns every parameter that is left out its default, and it
keeps this body whatever is typed later. Where the call leaves out a parameter without default, the instance gets no
body, and typing it ends there. -/
theorem instantiate_fills (h : Advances (.initial x) p)
    (hrun : (matchCall site recv args).run.run p = (.ok (owner, ms), p')) {m : Match MethodId}
    (hm : m ∈ ms.list) {fuel : Nat} {r : Except Failure InstanceId} {w : Program}
    (hmake : ((engine fuel).instantiate site owner m).run.run p' = (r, w)) {a : Instance}
    (ha : w.env.instances[p'.env.instances.size]? = some a) :
    ∃ method, w.env.methods[a.method]? = some method ∧ a.args.length = args.length ∧
      args.length ∈ method.definition.arities ∧
      (method.definition.DefaultsLast → method.definition.Fills args.length) ∧
      (method.kind.HasBody → method.definition.Fills args.length →
        ∃ b, FillsUp method.definition args.length (Placed.source b) ∧
          ∀ q, Acts w q → ∃ a', q.env.instances[p'.env.instances.size]? = some a' ∧ a'.body = some b) ∧
      (method.kind.HasBody → ¬ method.definition.Fills args.length →
        a.body = none ∧ r = .error (.instantiating site.call.mark.loc a.signature
          (Failure.absent.locate method.definition.loc))) := by
  obtain ⟨method, hmethod, harity, hlength⟩ := matchCall_accepted h hrun hm
  have hoffers := offers_of_matchCall hrun hm
  rcases exists_of_instantiate hmethod hmake with ⟨rfl, -⟩ | ⟨q, method', hq, hmethod', hdefinition, hkind, htyped⟩
  · exact absurd (Array.getElem?_eq_some_iff.mp ha).1 (Nat.lt_irrefl _)
  have hnew : q.env.instances[p'.env.instances.size]? = some (created m.candidate.id owner m.argTypes m.free p') :=
    hq ▸ Array.getElem?_push_size
  have hlater : Acts q w := by
    have hevolving : EvolvingFrom (Unwritten p'.env.instances.size)
        ((engine fuel).typeInstance site p'.env.instances.size method.kind >>= fun _ =>
          (pure p'.env.instances.size : Infer InstanceId)) :=
      ((engine_tame fuel).typeInstance _ _ _).andThen (Q := fun _ _ => True) (fun _ _ _ _ _ => trivial)
        fun _ => (Evolving.pure _).from _
    exact hevolving.acts (unwritten_of_push hq rfl) htyped
  obtain ⟨a', ha', hx⟩ := hlater.inst hnew
  obtain rfl := Option.some.inj (ha.symm.trans ha')
  obtain ⟨hsame, -, hargs⟩ : a.method = m.candidate.id ∧ a.owner = owner ∧ a.args = m.argTypes := by
    simpa only [Instance.purpose, created, Prod.mk.injEq] using hx.purpose
  obtain ⟨method'', hmethod'', hextends⟩ := hlater.method hmethod'
  have hd : method''.definition = method.definition := hextends.definition.trans hdefinition
  have hk : method''.kind = method.kind := hextends.kind.trans hkind
  have hbody : method''.kind.HasBody → match bodyFor? method''.definition args.length with
      | some s => ∃ b, a.body = some b ∧ Placed.source b = s
      | none => a.body = none ∧ r = .error (.instantiating site.call.mark.loc a.signature
          (Failure.absent.locate method''.definition.loc)) := by
    intro hbody
    rw [typeInstance_of_hasBody (hk ▸ hbody)] at htyped
    rcases hnested : ((engine fuel).typeNested site.node site.call.mark.loc p'.env.instances.size).run.run q with ⟨o, w'⟩
    have hwritten := run_typeNested (engine_tame fuel) hnew hmethod' hnested
    rw [show (created m.candidate.id owner m.argTypes m.free p').args.length = args.length from hlength, hdefinition,
      ← hd] at hwritten
    have hw : w' = w := by
      cases o with
      | ok _ => exact congrArg Prod.snd ((Flow.run_bind_of_ok hnested _).symm.trans htyped)
      | error f => exact congrArg Prod.snd ((Flow.run_bind_of_error hnested _).symm.trans htyped)
    subst hw
    cases hsource : bodyFor? method''.definition args.length with
    | some s =>
      rw [hsource] at hwritten
      obtain ⟨a', b, ha', hb, hs⟩ := hwritten
      obtain rfl := Option.some.inj (ha.symm.trans ha')
      exact ⟨b, hb, hs⟩
    | none =>
      rw [hsource] at hwritten
      obtain ⟨rfl, hinstances⟩ := hwritten
      obtain rfl := Option.some.inj (ha.symm.trans (hinstances ▸ hnew))
      exact ⟨rfl, (congrArg Prod.fst ((Flow.run_bind_of_error hnested _).symm.trans htyped)).symm⟩
  refine ⟨method'', hsame ▸ hmethod'', hargs ▸ hlength, hd ▸ harity, fun hlast => ?_, fun hkind hfills => ?_,
    fun hkind hfills => ?_⟩
  · exact Definition.fills_iff_defaultsLast.mpr hlast _ (hd ▸ harity)
  · obtain ⟨s, hs⟩ := Option.isSome_iff_exists.mp (isSome_bodyFor?_iff.mpr hfills)
    have hfilled := hbody hkind
    rw [hs] at hfilled
    obtain ⟨b, hb, hsource⟩ := hfilled
    refine ⟨b, fillsUp_iff.mpr (hsource ▸ hs), fun q hq => ?_⟩
    obtain ⟨a', ha', hx⟩ := hq.inst ha
    exact ⟨a', ha', hx.body b hb⟩
  · have hnone := Option.not_isSome_iff_eq_none.mp (isSome_bodyFor?_iff.not.mpr hfills)
    have hfailed := hbody hkind
    rwa [hnone] at hfailed

/-- A method of two parameters, of which `loud` comes with a default. -/
def welcoming (params : List (Param Source)) : Source :=
  .node none (.methodDef "" "welcome" (some params) none (some (.node none (.localVar "loud" false))) false)

/-- The parameter that has a default. -/
def loud : Param Source :=
  ⟨"loud", none, some (.node none (.boolLiteral true)), false⟩

/-- The parameter that has none. -/
def who : Param Source :=
  ⟨"who", none, none, false⟩

/-- The program in which whom to welcome comes first. -/
def welcomed : Program :=
  ((Program.initial .none).run (Program.infer (welcoming [who, loud]))).2

/-- A call of this method. -/
def welcome : Site :=
  { call := ⟨⟨none, 0⟩, none, "welcome", [], none, true⟩, scope := 0, node := 2 }

/-- Someone is welcomed without saying how, and the instance for it is typed: its body begins with the default of
`loud`. -/
theorem instantiate_fills_welcoming :
    Session .none welcomed ∧ ∃ owner ms m p' r w a method b,
      (matchCall welcome Builtin.program [Builtin.string]).run.run welcomed = (.ok (owner, ms), p') ∧
      m ∈ ms.list ∧ ((engine 9).instantiate welcome owner m).run.run p' = (r, w) ∧
      w.env.instances[p'.env.instances.size]? = some a ∧ w.env.methods[a.method]? = some method ∧
      method.definition.DefaultsLast ∧ 1 < method.definition.params.length ∧ a.body = some b ∧
      FillsUp method.definition 1 (Placed.source b) := by
  have hsession : Session .none welcomed := .tree .initial _
  let run := (matchCall welcome Builtin.program [Builtin.string]).run.run welcomed
  have hrun : run = (run.1, run.2) := rfl
  have htyped : run.1.toOption.any (fun found => found.2.list.any fun m =>
      let w := (((engine 9).instantiate welcome found.1 m).run.run run.2).2
      (w.env.instances[run.2.env.instances.size]?).any fun a => (w.env.methods[a.method]?).any fun method =>
        decide (method.kind.HasBody ∧ method.definition.DefaultsLast ∧ 1 < method.definition.params.length)) = true := by
    decide +kernel
  cases hfound : run.1 with
  | error f =>
    rw [hfound] at htyped
    cases htyped
  | ok found =>
    obtain ⟨owner, ms⟩ := found
    rw [hfound] at htyped hrun
    obtain ⟨m, hm, htyped⟩ := List.any_eq_true.mp htyped
    obtain ⟨a, ha, htyped⟩ := (Option.any_eq_true _ _).mp htyped
    obtain ⟨method, hmethod, htyped⟩ := (Option.any_eq_true _ _).mp htyped
    obtain ⟨hbody, hlast, hmore⟩ := of_decide_eq_true htyped
    have hmake : ((engine 9).instantiate welcome owner m).run.run run.2 =
        ((((engine 9).instantiate welcome owner m).run.run run.2).1,
          (((engine 9).instantiate welcome owner m).run.run run.2).2) := rfl
    obtain ⟨method', hmethod', -, -, hdefaults, hfills, -⟩ := instantiate_fills hsession.advances hrun hm hmake ha
    obtain rfl := Option.some.inj (hmethod.symm.trans hmethod')
    obtain ⟨b, hfilled, hkept⟩ := hfills hbody (hdefaults hlast)
    obtain ⟨a', ha', hb⟩ := hkept _ .refl
    obtain rfl := Option.some.inj (ha.symm.trans ha')
    exact ⟨hsession, owner, ms, m, run.2, _, _, a, method, b, hrun, hm, hmake, ha, hmethod, hlast, hmore, hb, hfilled⟩

end Engine

namespace Session

open Engine

/-- The program in which a default comes first. -/
def gapped : Program :=
  ((Program.initial .none).run (Program.infer (welcoming [loud, who]))).2

/-- **A parameter without a default can be left out.** The method is filed for calls without arguments, as its first
parameter has a default, and a call without arguments is matched with it. For its second parameter there is
nothing to assign, and typing the instance ends there. -/
theorem gapped_defaults :
    Session .none gapped ∧
    let run := (Infer.matchCall welcome Builtin.program []).run.run gapped
    run.1.toOption.any (fun found => found.2.list.any fun m =>
      (gapped.env.methods[m.candidate.id]?).any (fun method =>
        decide (0 ∈ method.definition.arities ∧ ¬ method.definition.Fills 0)) &&
      match (((engine 9).instantiate welcome found.1 m).run.run run.2).1 with
      | .error (.instantiating _ _ f) => f.message == Failure.absent.message
      | _ => false) = true :=
  ⟨.tree .initial _, by decide +kernel⟩

end Session

end TypeFlow
