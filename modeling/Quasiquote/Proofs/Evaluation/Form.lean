import Quasiquote.Proofs.Evaluation.Congruence

namespace Quasiquote.Evaluation

open Stateful

/-- A form that would be a clause of a `try` around it. -/
def IsClause (v : Value) : Prop :=
  ∃ args, v = .list (.sym .handler :: args) ∨ v = .list (.sym .cleanup :: args)

/-- The arguments of a `try` are forms, among which a handler and a cleanup clause may stand, one of each
at most, in any place. -/
inductive Arranges : List Value → List Value → Option (Symbol × List Value) → Option (List Value) → Prop
  | nil : Arranges [] [] none none
  | form {v : Value} {args body : List Value} {handler : Option (Symbol × List Value)}
      {cleanup : Option (List Value)} : ¬IsClause v → Arranges args body handler cleanup →
      Arranges (v :: args) (v :: body) handler cleanup
  | handler {name : Symbol} {args body forms : List Value} {cleanup : Option (List Value)} :
      name.isQualified = false → Arranges args body none cleanup →
      Arranges (.list (.sym .handler :: .sym name :: forms) :: args) body (some (name, forms)) cleanup
  | cleanup {args body forms : List Value} {handler : Option (Symbol × List Value)} :
      Arranges args body handler none →
      Arranges (.list (.sym .cleanup :: forms) :: args) body handler (some forms)

/-- Whether an argument of a `try` is one of the forms that may fail. -/
def isBody (v : Value) : Bool := (clause? .handler v).isNone && (clause? .cleanup v).isNone

theorem clause?_cases (v : Value) :
    (∃ contents, v = .list (.sym .handler :: contents)) ∨
      (∃ contents, v = .list (.sym .cleanup :: contents)) ∨
      ¬IsClause v ∧ clause? .handler v = none ∧ clause? .cleanup v = none := by
  by_cases h : IsClause v
  · obtain ⟨contents, rfl | rfl⟩ := h
    · exact .inl ⟨contents, rfl⟩
    · exact .inr (.inl ⟨contents, rfl⟩)
  · refine .inr (.inr ⟨h, ?_, ?_⟩)
    · refine Option.eq_none_iff_forall_ne_some.mpr fun contents hclause => ?_
      exact h ⟨contents, .inl (eq_of_clause? hclause)⟩
    · refine Option.eq_none_iff_forall_ne_some.mpr fun contents hclause => ?_
      exact h ⟨contents, .inr (eq_of_clause? hclause)⟩

/-- The parts of an arrangement are what the arguments are sorted into. -/
theorem arranges_iff {args body : List Value} {handler : Option (Symbol × List Value)}
    {cleanup : Option (List Value)} :
    Arranges args body handler cleanup ↔
      args.filter isBody = body ∧
      args.filterMap (clause? .handler) = handler.toList.map (fun p => .sym p.1 :: p.2) ∧
      args.filterMap (clause? .cleanup) = cleanup.toList ∧
      ∀ p ∈ handler, p.1.isQualified = false := by
  constructor
  · intro h
    induction h with
    | nil => exact ⟨rfl, rfl, rfl, nofun⟩
    | @form v _ _ _ _ hv _ ih =>
        obtain ⟨hbody, hhandler, hcleanup, hname⟩ := ih
        rcases clause?_cases v with ⟨_, rfl⟩ | ⟨_, rfl⟩ | ⟨-, hh, hc⟩
        · exact absurd ⟨_, .inl rfl⟩ hv
        · exact absurd ⟨_, .inr rfl⟩ hv
        · rw [List.filterMap_cons_none hh, List.filterMap_cons_none hc,
            List.filter_cons_of_pos (by rw [isBody, hh, hc]; rfl), hbody]
          exact ⟨rfl, hhandler, hcleanup, hname⟩
    | handler hname _ ih =>
        obtain ⟨hbody, hhandler, hcleanup, -⟩ := ih
        refine ⟨hbody, ?_, hcleanup, fun p hp => ?_⟩
        · exact congrArg (_ :: ·) hhandler
        · cases hp
          exact hname
    | cleanup _ ih =>
        obtain ⟨hbody, hhandler, hcleanup, hname⟩ := ih
        exact ⟨hbody, hhandler, congrArg (_ :: ·) hcleanup, hname⟩
  · rintro ⟨rfl, hhandler, hcleanup, hname⟩
    induction args generalizing handler cleanup with
    | nil =>
        cases handler with
        | some p => exact nomatch hhandler
        | none =>
            cases cleanup with
            | some forms => exact nomatch hcleanup
            | none => exact .nil
    | cons v args ih =>
        rcases clause?_cases v with ⟨contents, rfl⟩ | ⟨contents, rfl⟩ | ⟨hv, hh, hc⟩
        · cases handler with
          | none => exact nomatch hhandler
          | some p =>
              obtain ⟨rfl, hrest⟩ := List.cons.inj hhandler
              have harranges : Arranges args (args.filter isBody) none cleanup :=
                ih hrest hcleanup nofun
              exact .handler (hname p rfl) harranges
        · cases cleanup with
          | none => exact nomatch hcleanup
          | some forms =>
              obtain ⟨rfl, hrest⟩ := List.cons.inj hcleanup
              have harranges : Arranges args (args.filter isBody) handler none :=
                ih hhandler hrest hname
              exact .cleanup harranges
        · rw [List.filterMap_cons_none hh] at hhandler
          rw [List.filterMap_cons_none hc] at hcleanup
          rw [List.filter_cons_of_pos (by rw [isBody, hh, hc]; rfl)]
          exact .form hv (ih hhandler hcleanup hname)

theorem ofArguments_of_handler {args contents : List Value} {cleanup : Option (List Value)}
    (hhandler : args.filterMap (clause? .handler) = [contents])
    (hcleanup : args.filterMap (clause? .cleanup) = cleanup.toList) :
    Attempt.ofArguments args = handlerOf contents >>= fun handler =>
      pure ⟨args.filter isBody, some handler, cleanup.getD []⟩ := by
  unfold Attempt.ofArguments
  rw [hhandler, hcleanup]
  cases cleanup <;> rfl

theorem ofArguments_of_no_handler {args : List Value} {cleanup : Option (List Value)}
    (hhandler : args.filterMap (clause? .handler) = [])
    (hcleanup : args.filterMap (clause? .cleanup) = cleanup.toList) :
    Attempt.ofArguments args = .ok ⟨args.filter isBody, none, cleanup.getD []⟩ := by
  unfold Attempt.ofArguments
  rw [hhandler, hcleanup]
  cases cleanup <;> rfl

theorem Arranges.ofArguments_eq {args body : List Value} {handler : Option (Symbol × List Value)}
    {cleanup : Option (List Value)} (h : Arranges args body handler cleanup) :
    Attempt.ofArguments args = .ok ⟨body, handler, cleanup.getD []⟩ := by
  obtain ⟨rfl, hhandler, hcleanup, hname⟩ := arranges_iff.mp h
  cases handler with
  | none => exact ofArguments_of_no_handler hhandler hcleanup
  | some p =>
      rw [ofArguments_of_handler hhandler hcleanup, handlerOf, hname p rfl]
      rfl

theorem handlerOf_cases (contents : List Value) :
    (∃ name forms, contents = .sym name :: forms ∧ name.isQualified = false) ∨
      ∃ fault, handlerOf contents = .error (.malformed fault) := by
  unfold handlerOf
  split
  · rename_i name forms
    by_cases hname : name.isQualified = true
    · exact .inr ⟨_, if_pos hname⟩
    · exact .inl ⟨name, forms, rfl, eq_false_of_ne_true hname⟩
  · exact .inr ⟨_, rfl⟩

theorem exists_toList_eq {α : Type} {as : List α} (h : ¬1 < as.length) :
    ∃ a : Option α, as = a.toList := by
  rcases as with _ | ⟨a, _ | ⟨_, _⟩⟩
  · exact ⟨none, rfl⟩
  · exact ⟨some a, rfl⟩
  · simp at h

theorem arranges_or_malformed (args : List Value) :
    (∃ body handler cleanup, Arranges args body handler cleanup) ∨
      ∃ fault, Attempt.ofArguments args = .error (.malformed fault) := by
  by_cases hmany : 1 < (args.filterMap (clause? .handler)).length ∨
      1 < (args.filterMap (clause? .cleanup)).length
  · refine .inr ⟨.tryClauses, ?_⟩
    unfold Attempt.ofArguments
    dsimp only
    rw [if_pos (by simpa using hmany)]
    rfl
  obtain ⟨hhandlers, hcleanups⟩ := not_or.mp hmany
  obtain ⟨cleanup, hcleanup⟩ := exists_toList_eq hcleanups
  obtain ⟨_ | contents, hhandler⟩ := exists_toList_eq hhandlers
  · exact .inl ⟨_, none, cleanup, arranges_iff.mpr ⟨rfl, hhandler, hcleanup, nofun⟩⟩
  · rcases handlerOf_cases contents with ⟨name, forms, rfl, hname⟩ | ⟨fault, hfault⟩
    · refine .inl ⟨_, some (name, forms), cleanup, arranges_iff.mpr ⟨rfl, hhandler, hcleanup, ?_⟩⟩
      rintro p ⟨⟩
      exact hname
    · refine .inr ⟨fault, ?_⟩
      rw [ofArguments_of_handler hhandler hcleanup, hfault]
      rfl

variable {ev : Evaluator} {locals : List Frame} {s t u w : Session} {args : List Value}
variable {r : Except Failure Value}

section

variable {form : Value} {name : Symbol} {forms : List Value}

theorem ofArguments_handler (hform : ¬IsClause form) (hname : name.isQualified = false) :
    Attempt.ofArguments [form, .list (.sym .handler :: .sym name :: forms)] =
      .ok ⟨[form], some (name, forms), []⟩ :=
  (Arranges.form hform (.handler hname .nil)).ofArguments_eq

theorem gives_evalAttempt_ok {v : Value} (hform : ¬IsClause form) (hname : name.isQualified = false)
    (h : Gives (m := StateT Session Option) (ev locals form) s (.ok v) t) :
    Gives (m := StateT Session Option)
      (evalAttempt ev locals [form, .list (.sym .handler :: .sym name :: forms)]) s (.ok v) t := by
  unfold evalAttempt
  rw [ofArguments_handler hform hname, ofExcept_ok, pure_bind]
  exact gives_bind.mpr (.inr ⟨.ok v, t, Evaluating.gives_outcome.mpr ⟨_, h, rfl⟩,
    gives_pure.mpr ⟨rfl, rfl⟩⟩)

theorem gives_evalAttempt_error {f : Failure} {err : Value} (hform : ¬IsClause form)
    (hname : name.isQualified = false)
    (h : Gives (m := StateT Session Option) (ev locals form) s (.error f) t)
    (hcaught : Gives (m := StateT Session Option) (Evaluating.caughtValue f) t (.ok err) u)
    (hforms : Gives (m := StateT Session Option)
      (evalSequence ev (Table.empty.insert name err :: locals) forms) u r w) :
    Gives (m := StateT Session Option)
      (evalAttempt ev locals [form, .list (.sym .handler :: .sym name :: forms)]) s r w := by
  unfold evalAttempt
  rw [ofArguments_handler hform hname, ofExcept_ok, pure_bind]
  refine gives_bind.mpr (.inr ⟨.error f, t, Evaluating.gives_outcome.mpr ⟨_, h, rfl⟩, ?_⟩)
  refine gives_bind.mpr (.inr ⟨r, w, Evaluating.gives_outcome.mpr ⟨_, ?_, rfl⟩, ?_⟩)
  · exact gives_bind.mpr (.inr ⟨err, u, hcaught, hforms⟩)
  · exact gives_ofExcept.mpr ⟨rfl, rfl⟩

end

theorem evalScope_one {x : Symbol} (hx : x.isQualified = false) (form : Value) (body : List Value) :
    evalScope ev locals (.list [.sym x, form] :: body) =
      ev (Table.empty :: locals) form >>= fun v =>
        evalSequence ev (Table.empty.insert x v :: locals) body := by
  simp [evalScope, bindAll, hx]

theorem gives_call_log {level : LogLevel} {text : String}
    (h : Primitive.displayed " " args = .ok text) :
    Gives (m := StateT Session Option) (Evaluating.call (.log level) args) s (.ok .nil)
      ({ s with identities := s.identities + 1 }.record (.message level text)) := by
  have hcall : Primitive.call s.tallied s.identities args (.log level) =
      .ok (.nil, .log (.message level text)) := by
    rw [Primitive.call, h]
    rfl
  unfold Evaluating.call
  rw [freshIdentity_eq]
  simp only [bind_assoc, pure_bind, Evaluating.gives_get_bind, Evaluating.gives_modify_bind]
  rw [hcall, ofExcept_ok, pure_bind, Evaluating.gives_modify_bind]
  exact gives_pure.mpr ⟨rfl, rfl⟩

theorem gives_evalTree_symbol {x : Symbol} {v : Value} {ns : Option Namespace}
    (hns : ns = some s.currentNamespace)
    (h : (Environment.mk locals s.globals).lookup ns x = .ok v) (n : Nat) :
    Gives (m := StateT Session Option) (evalTree (n + 1) locals (.sym x)) s (.ok v) s := by
  change Gives (m := StateT Session Option) (Evaluating.lookup locals x) s (.ok v) s
  unfold Evaluating.lookup
  rw [Evaluating.gives_get_bind, ← hns, h]
  exact gives_pure.mpr ⟨rfl, rfl⟩

theorem gives_evalTree_local {x : Symbol} {v : Value} (hx : x.isQualified = false)
    (h : (Environment.mk locals s.globals).find? x = some v) (n : Nat) :
    Gives (m := StateT Session Option) (evalTree (n + 1) locals (.sym x)) s (.ok v) s := by
  refine gives_evalTree_symbol rfl ?_ n
  unfold Environment.lookup
  simp only [hx, h, Bool.false_eq_true, if_false]
  rfl

theorem gives_evalTree_global {x : Symbol} {v : Value} (hx : x.isQualified = true)
    (h : s.globals.find? (s.currentNamespace.resolve x) = some v) (n : Nat) :
    Gives (m := StateT Session Option) (evalTree (n + 1) locals (.sym x)) s (.ok v) s := by
  refine gives_evalTree_symbol rfl ?_ n
  unfold Environment.lookup
  simp only [hx, h, if_true]
  rfl

theorem gives_evalTree_call {n : Nat} {head : Value} {f : Primitive} {vs : List Value} {w : Session}
    (hspecial : special? head = none)
    (hm : s.expander.macroFor (some s.currentNamespace) (.list (head :: args)) = none)
    (hhead : Gives (m := StateT Session Option) (evalTree n locals head) s (.ok (.fn f)) t)
    (hargs : Gives (m := StateT Session Option) (args.mapM (evalTree n locals)) t (.ok vs) u)
    (hcall : Gives (m := StateT Session Option) (Evaluating.call f vs) u r w) :
    Gives (m := StateT Session Option) (evalTree (n + 1) locals (.list (head :: args))) s r w := by
  rw [evalTree_succ]
  unfold evalLevel evalLevelBy
  dsimp only
  rw [hspecial]
  dsimp only
  rw [Evaluating.gives_get_bind, hm]
  exact gives_bind.mpr (.inr ⟨_, t, hhead, gives_bind.mpr (.inr ⟨vs, u, hargs, hcall⟩)⟩)


end Quasiquote.Evaluation
