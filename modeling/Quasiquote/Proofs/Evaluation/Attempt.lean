import Quasiquote.Proofs.Evaluation.Form
import Quasiquote.Proofs.Evaluation.Unbounded

namespace Quasiquote

open Stateful

/-- The failure that a `throw` of a value is. A caught failure fails again, and a value that cannot be
written is not thrown. -/
def Value.raised : Value → Failure
  | .error id f => .again id f
  | v => if v.isWritable then .thrown v else .unwritable

namespace Evaluation

variable {call : Calling} {locals : List Frame} {s t u : Session} {r : Except Failure Value}

/-- A failure is caught as a value: as the one that was thrown, as the caught failure that it was before
it failed again, or as a caught failure with a new number. -/
inductive Catches : Failure → Value → Session → Session → Prop
  | thrown {v : Value} {s : Session} : Catches (.thrown v) v s s
  | rethrown {id : Nat} {v : Value} {s : Session} : Catches (.again id (.thrown v)) v s s
  | again {id : Nat} {f : Failure} {s : Session} : (∀ v, f ≠ .thrown v) →
      Catches (.again id f) (.error id f) s s
  | fresh {f : Failure} {s : Session} : (∀ v, f ≠ .thrown v) → (∀ id g, f ≠ .again id g) →
      Catches f (.error s.identities f) s { s with identities := s.identities + 1 }

/-- What comes of the result of the body of a `try`: a handler is evaluated after a failure, in a new
frame that binds its name. -/
inductive Handles (call : Calling) (locals : List Frame) : Option (Symbol × List Value) →
    Except Failure Value → Session → Except Failure Value → Session → Prop
  | value {handler : Option (Symbol × List Value)} {v : Value} {s : Session} :
      Handles call locals handler (.ok v) s (.ok v) s
  | unhandled {f : Failure} {s : Session} : Handles call locals none (.error f) s (.error f) s
  | handled {name : Symbol} {forms : List Value} {f : Failure} {v : Value} {s t u : Session}
      {r : Except Failure Value} : Catches f v s t →
      Runs call (Table.empty.insert name v :: locals) forms t r u →
      Handles call locals (some (name, forms)) (.error f) s r u

/-- The course of a `try`: its body, perhaps its handler, and its cleanup forms. A failure of the last
ones goes before all else. -/
inductive Attempts (call : Calling) (locals : List Frame) (body : List Value)
    (handler : Option (Symbol × List Value)) (cleanup : List Value) :
    Session → Except Failure Value → Session → Prop
  | intro {s t u w : Session} {first second last : Except Failure Value} :
      Runs call locals body s first t → Handles call locals handler first t second u →
      Runs call locals cleanup u last w →
      Attempts call locals body handler cleanup s (last >>= fun _ => second) w

theorem gives_caughtValue_iff {f : Failure} {v : Value} :
    Gives (m := StateT Session Option) (Evaluating.caughtValue f) s (.ok v) t ↔
      Catches f v s t := by
  constructor
  · intro h
    cases f with
    | thrown w =>
        cases h
        exact .thrown
    | again id f =>
        cases f with
        | thrown w =>
            cases h
            exact .rethrown
        | _ =>
            cases h
            exact .again nofun
    | _ =>
        cases h
        exact .fresh nofun nofun
  · intro h
    cases h with
    | thrown => rfl
    | rethrown => rfl
    | @again id f _ hf =>
        cases f with
        | thrown v => exact absurd rfl (hf v)
        | _ => rfl
    | fresh hf hagain =>
        cases f with
        | thrown v => exact absurd rfl (hf v)
        | again id g => exact absurd rfl (hagain id g)
        | _ => rfl

theorem not_gives_caughtValue_error {f g : Failure} :
    ¬Gives (m := StateT Session Option) (Evaluating.caughtValue f) s (.error g) t := by
  intro h
  cases f with
  | again id f => cases f <;> exact nomatch h
  | _ => exact nomatch h

/-- The evaluation of the handler of a `try`, if there is a failure to handle. -/
noncomputable def evalHandler (call : Calling) (locals : List Frame) :
    Option (Symbol × List Value) → Except Failure Value → Evaluating Value
  | some (name, forms), .error f => do
      let v ← Evaluating.caughtValue f
      evalSequence (evalUnbounded call) (Table.empty.insert name v :: locals) forms
  | _, first => MonadExcept.ofExcept first

theorem gives_evalHandler_iff {handler : Option (Symbol × List Value)} {first : Except Failure Value} :
    Gives (m := StateT Session Option) (evalHandler call locals handler first) s r t ↔
      Handles call locals handler first s r t := by
  cases first with
  | ok v =>
      have heq : evalHandler call locals handler (.ok v) = pure v := by cases handler <;> rfl
      rw [heq, gives_pure]
      constructor
      · rintro ⟨rfl, rfl⟩
        exact .value
      · intro h
        cases h
        exact ⟨rfl, rfl⟩
  | error f =>
      rcases handler with _ | ⟨name, forms⟩
      · have heq : evalHandler call locals none (.error f) = throw f := rfl
        rw [heq, gives_throw]
        constructor
        · rintro ⟨rfl, rfl⟩
          exact .unhandled
        · intro h
          cases h
          exact ⟨rfl, rfl⟩
      · rw [evalHandler, gives_bind]
        simp only [gives_caughtValue_iff, not_gives_caughtValue_error, false_and, exists_false,
          false_or, gives_evalSequence_iff]
        constructor
        · rintro ⟨v, u, hv, hforms⟩
          exact .handled hv hforms
        · intro h
          cases h with
          | handled hv hforms => exact ⟨_, _, hv, hforms⟩

theorem evalAttempt_eq {args body : List Value} {handler : Option (Symbol × List Value)}
    {cleanup : Option (List Value)} (h : Arranges args body handler cleanup) :
    evalAttempt (evalUnbounded call) locals args =
      (evalSequence (evalUnbounded call) locals body).outcome >>= fun first =>
        (evalHandler call locals handler first).outcome >>= fun second =>
          evalSequence (evalUnbounded call) locals (cleanup.getD []) >>= fun _ =>
            MonadExcept.ofExcept second := by
  unfold evalAttempt
  rw [h.ofArguments_eq, ofExcept_ok, pure_bind]
  refine congrArg _ (funext fun first => ?_)
  cases first <;> cases handler <;> rfl

theorem gives_evalAttempt_iff {args body : List Value} {handler : Option (Symbol × List Value)}
    {cleanup : Option (List Value)} (h : Arranges args body handler cleanup) :
    Gives (m := StateT Session Option) (evalAttempt (evalUnbounded call) locals args) s r t ↔
      Attempts call locals body handler (cleanup.getD []) s r t := by
  rw [evalAttempt_eq h]
  simp only [Evaluating.gives_outcome_bind, gives_bind_ofExcept, gives_evalHandler_iff,
    gives_evalSequence_iff]
  constructor
  · rintro ⟨first, u, hbody, second, w, hhandler, last, hcleanup, rfl⟩
    exact .intro hbody hhandler hcleanup
  · rintro ⟨hbody, hhandler, hcleanup⟩
    exact ⟨_, _, hbody, _, _, hhandler, _, hcleanup, rfl⟩

/-- A `try` whose arguments are arranged takes its course. -/
theorem evaluatesTo_attempt_iff {args body : List Value} {handler : Option (Symbol × List Value)}
    {cleanup : Option (List Value)} (head : SpecialForm.attempt.Head)
    (h : Arranges args body handler cleanup) :
    EvaluatesTo call locals (.list (.sym head :: args)) s r t ↔
      Attempts call locals body handler (cleanup.getD []) s r t := by
  rw [← gives_evalUnbounded, evalUnbounded_head]
  exact gives_evalAttempt_iff h

theorem evaluatesTo_attempt_malformed {args : List Value} {f : Failure}
    (head : SpecialForm.attempt.Head) (h : Attempt.ofArguments args = .error f) :
    EvaluatesTo call locals (.list (.sym head :: args)) s r t ↔ r = .error f ∧ t = s := by
  rw [← gives_evalUnbounded, evalUnbounded_head]
  change Gives (m := StateT Session Option) (evalAttempt (evalUnbounded call) locals args) s r t ↔ _
  unfold evalAttempt
  rw [h]
  exact gives_throw

theorem written_bind_throw (v : Value) :
    (Evaluating.written v id >>= fun w => throw (.thrown w) : Evaluating Value) =
      throw (if v.isWritable then .thrown v else .unwritable) := by
  unfold Evaluating.written Value.written
  split <;> rfl

theorem evaluatesTo_raise_iff {form : Value} (head : SpecialForm.raise.Head) :
    EvaluatesTo call locals (.list [.sym head, form]) s r t ↔
      ∃ r', EvaluatesTo call locals form s r' t ∧ r = r' >>= fun v => .error v.raised := by
  have heq : evalThrow (evalUnbounded call) locals [form] =
      evalUnbounded call locals form >>= fun v =>
        MonadExcept.ofExcept (.error v.raised : Except Failure Value) := by
    unfold evalThrow only
    rw [pure_bind]
    refine congrArg _ (funext fun v => ?_)
    cases v with
    | error id f => rfl
    | _ => exact written_bind_throw _
  rw [← gives_evalUnbounded, evalUnbounded_head]
  change Gives (m := StateT Session Option) (evalThrow (evalUnbounded call) locals [form]) s r t ↔ _
  rw [heq, gives_bind_ofExcept]
  simp only [gives_evalUnbounded]

/-- A form in nested `try` forms, in each of which a handler throws again what it has caught. -/
def rethrowing (attempt : SpecialForm.attempt.Head) (raise : SpecialForm.raise.Head) (form : Value) :
    List String → Value
  | [] => form
  | name :: names => .list [.sym attempt, rethrowing attempt raise form names,
      .list [.sym .handler, .bare name, .list [.sym raise, .bare name]]]

theorem raised_of_ne_error {v : Value} (h : ∀ id f, v ≠ .error id f) :
    v.raised = if v.isWritable then .thrown v else .unwritable := by
  cases v with
  | error id f => exact absurd rfl (h id f)
  | _ => rfl

theorem catches_raised_iff {v w : Value} (hv : v.isWritable = true)
    (hthrown : ∀ id w, v ≠ .error id (.thrown w)) : Catches v.raised w s t ↔ w = v ∧ t = s := by
  have hraised : Catches v.raised v s s := by
    by_cases h : ∃ id f, v = .error id f
    · obtain ⟨id, f, rfl⟩ := h
      exact .again fun w hf => hthrown id w (by rw [hf])
    · rw [raised_of_ne_error fun id f heq => h ⟨id, f, heq⟩, if_pos hv]
      exact .thrown
  constructor
  · intro h
    obtain ⟨heq, rfl⟩ := Evaluating.gives_unique (gives_caughtValue_iff.mpr hraised)
      (gives_caughtValue_iff.mpr h)
    cases heq
    exact ⟨rfl, rfl⟩
  · rintro ⟨rfl, rfl⟩
    exact hraised

theorem evaluatesTo_local {frame : Frame} {name : String} {v : Value}
    (h : frame.find? ⟨name, none⟩ = some v) :
    EvaluatesTo call (frame :: locals) (.bare name) s (.ok v) s := by
  refine ⟨1, gives_evalTree_local rfl ?_ 0⟩
  simp [Environment.find?, Environment.frames, h]

theorem evaluatesTo_handled {form v : Value} {f : Failure} {forms : List Value} {w : Session}
    (attempt : SpecialForm.attempt.Head) (hclause : ¬IsClause form) (name : String)
    (hform : EvaluatesTo call locals form s (.error f) t) (hcatches : Catches f v t u)
    (hforms : Runs call (Table.empty.insert ⟨name, none⟩ v :: locals) forms u r w) :
    EvaluatesTo call locals
      (.list [.sym attempt, form, .list (.sym .handler :: .bare name :: forms)]) s r w :=
  (evaluatesTo_attempt_iff attempt (.form hclause (.handler rfl .nil))).mpr
    (.intro (.last hform) (.handled hcatches hforms) .none)

theorem evaluatesTo_rethrow {form v : Value} {f : Failure} (attempt : SpecialForm.attempt.Head)
    (raise : SpecialForm.raise.Head) (hclause : ¬IsClause form)
    (hform : EvaluatesTo call locals form s (.error f) t) (hcatches : Catches f v t u)
    (name : String) :
    EvaluatesTo call locals (.list [.sym attempt, form,
      .list [.sym .handler, .bare name, .list [.sym raise, .bare name]]]) s (.error v.raised) u := by
  refine evaluatesTo_handled attempt hclause name hform hcatches (.last ?_)
  refine (evaluatesTo_raise_iff raise).mpr ⟨.ok v, evaluatesTo_local ?_, rfl⟩
  rw [Table.find?_insert_self]

theorem not_isClause {s : Symbol} (hhandler : s ≠ .handler) (hcleanup : s ≠ .cleanup)
    (args : List Value) : ¬IsClause (.list (.sym s :: args)) := by
  rintro ⟨contents, h | h⟩
  · exact hhandler (Value.sym.inj (List.cons.inj (Value.list.inj h)).1)
  · exact hcleanup (Value.sym.inj (List.cons.inj (Value.list.inj h)).1)

theorem not_isClause_head {form : SpecialForm} (head : form.Head) (args : List Value) :
    ¬IsClause (.list (.sym head :: args)) := by
  refine not_isClause (fun h => ?_) (fun h => ?_) args
  · exact nomatch (congrArg SpecialForm.ofSymbol? h).symm.trans head.2
  · exact nomatch (congrArg SpecialForm.ofSymbol? h).symm.trans head.2

/-- A failure that handlers catch and throw again is in the end the failure that a throw of the caught
value is. -/
theorem evaluatesTo_rethrowing {form v : Value} {f : Failure} (attempt : SpecialForm.attempt.Head)
    (raise : SpecialForm.raise.Head) (hclause : ¬IsClause form)
    (hform : EvaluatesTo call locals form s (.error f) t) (hcatches : Catches f v t u)
    (hv : v.isWritable = true) (hthrown : ∀ id w, v ≠ .error id (.thrown w)) (name : String)
    (names : List String) :
    EvaluatesTo call locals (rethrowing attempt raise form (name :: names)) s (.error v.raised) u := by
  induction names generalizing name with
  | nil => exact evaluatesTo_rethrow attempt raise hclause hform hcatches name
  | cons next names ih =>
      exact evaluatesTo_rethrow attempt raise (not_isClause_head attempt _) (ih next)
        ((catches_raised_iff hv hthrown).mpr ⟨rfl, rfl⟩) name

/-- A `try` whose arguments are arranged takes its course, and any other fails before anything is
evaluated. A `throw` fails with what its argument comes to. A value that can be written is what a handler
catches after the throw, and what handlers that throw it again hand on, however many there are. -/
theorem attempt_course (call : Calling) (locals : List Frame) (attempt : SpecialForm.attempt.Head)
    (raise : SpecialForm.raise.Head) (s : Session) :
    (∀ args body handler cleanup, Arranges args body handler cleanup → ∀ r t,
      EvaluatesTo call locals (.list (.sym attempt :: args)) s r t ↔
        Attempts call locals body handler (cleanup.getD []) s r t) ∧
    (∀ args, (∀ body handler cleanup, ¬Arranges args body handler cleanup) →
      ∃ f : Failure, f.kind = "SynquoteSyntaxError" ∧ ∀ r t,
        EvaluatesTo call locals (.list (.sym attempt :: args)) s r t ↔ r = .error f ∧ t = s) ∧
    (∀ form r t, EvaluatesTo call locals (.list [.sym raise, form]) s r t ↔
      ∃ r', EvaluatesTo call locals form s r' t ∧ r = r' >>= fun v => .error v.raised) ∧
    ∀ v : Value, v.isWritable = true → (∀ id w, v ≠ .error id (.thrown w)) →
      (∀ w t u, Catches v.raised w t u ↔ w = v ∧ u = t) ∧
      ∀ form f t u name names, ¬IsClause form → EvaluatesTo call locals form s (.error f) t →
        Catches f v t u →
        EvaluatesTo call locals (rethrowing attempt raise form (name :: names)) s
          (.error v.raised) u := by
  refine ⟨fun args body handler cleanup h r t => evaluatesTo_attempt_iff attempt h,
    fun args h => ?_, fun form r t => evaluatesTo_raise_iff raise, fun v hv hthrown => ⟨?_, ?_⟩⟩
  · rcases arranges_or_malformed args with ⟨body, handler, cleanup, harranges⟩ | ⟨fault, hfault⟩
    · exact absurd harranges (h body handler cleanup)
    · exact ⟨.malformed fault, rfl, fun r t => evaluatesTo_attempt_malformed attempt hfault⟩
  · exact fun w t u => catches_raised_iff hv hthrown
  · intro form f t u name names hclause hform hcatches
    exact evaluatesTo_rethrowing attempt raise hclause hform hcatches hv hthrown name names

theorem evaluates_attempt_iff {args body : List Value} {handler : Option (Symbol × List Value)}
    {cleanup : Option (List Value)} (head : SpecialForm.attempt.Head)
    (h : Arranges args body handler cleanup) :
    Evaluates locals (.list (.sym head :: args)) s r t ↔
      Attempts (fun _ => Evaluating.call) locals body handler (cleanup.getD []) s r t :=
  evaluatesTo_call_iff.symm.trans (evaluatesTo_attempt_iff head h)

theorem evaluates_attempt_malformed {args : List Value} {f : Failure}
    (head : SpecialForm.attempt.Head) (h : Attempt.ofArguments args = .error f) :
    Evaluates locals (.list (.sym head :: args)) s r t ↔ r = .error f ∧ t = s :=
  evaluatesTo_call_iff.symm.trans (evaluatesTo_attempt_malformed head h)

theorem evaluates_raise_iff {form : Value} (head : SpecialForm.raise.Head) :
    Evaluates locals (.list [.sym head, form]) s r t ↔
      ∃ r', Evaluates locals form s r' t ∧ r = r' >>= fun v => .error v.raised := by
  simp only [← evaluatesTo_call_iff]
  exact evaluatesTo_raise_iff head

theorem evaluates_rethrowing {form v : Value} {f : Failure} (attempt : SpecialForm.attempt.Head)
    (raise : SpecialForm.raise.Head) (hclause : ¬IsClause form)
    (hform : Evaluates locals form s (.error f) t) (hcatches : Catches f v t u)
    (hv : v.isWritable = true) (hthrown : ∀ id w, v ≠ .error id (.thrown w)) (name : String)
    (names : List String) :
    Evaluates locals (rethrowing attempt raise form (name :: names)) s (.error v.raised) u :=
  evaluatesTo_call_iff.mp (evaluatesTo_rethrowing attempt raise hclause
    (evaluatesTo_call_iff.mpr hform) hcatches hv hthrown name names)

def tryHead : SpecialForm.attempt.Head := ⟨.attempt, rfl⟩

def throwHead : SpecialForm.raise.Head := ⟨⟨"throw", none⟩, rfl⟩

def freshSession : Session := Session.start "user" 100 4 {}

theorem attempt_course_keyword :
    EvaluatesTo (fun _ => Evaluating.call) []
      (.list [.sym tryHead, .list [.sym .cleanup, .nil], .list [.sym throwHead, .kw "k"],
        .list [.sym .handler, .bare "e", .bare "e"]]) freshSession (.ok (.kw "k")) freshSession ∧
    (∃ f : Failure, f.kind = "SynquoteSyntaxError" ∧ EvaluatesTo (fun _ => Evaluating.call) []
      (.list [.sym tryHead, .list [.sym .handler]]) freshSession (.error f) freshSession) ∧
    EvaluatesTo (fun _ => Evaluating.call) []
      (rethrowing tryHead throwHead (.list [.sym throwHead, .kw "k"]) ["a", "b"]) freshSession
      (.error (.thrown (.kw "k"))) freshSession := by
  obtain ⟨hcourse, hmalformed, hraise, hvalue⟩ :=
    attempt_course (fun _ => Evaluating.call) [] tryHead throwHead freshSession
  obtain ⟨-, hrethrowing⟩ := hvalue (.kw "k") rfl nofun
  have hthrow : EvaluatesTo (fun _ => Evaluating.call) [] (.list [.sym throwHead, .kw "k"])
      freshSession (.error (.thrown (.kw "k"))) freshSession :=
    (hraise _ _ _).mpr ⟨.ok (.kw "k"), ⟨1, rfl⟩, rfl⟩
  have hclause := not_isClause_head throwHead [.kw "k"]
  refine ⟨?_, ?_, hrethrowing _ _ _ _ "a" ["b"] hclause hthrow .thrown⟩
  · refine (hcourse _ _ _ _ (.cleanup (.form hclause (.handler rfl .nil))) _ _).mpr ?_
    have hhandler : Handles (fun _ => Evaluating.call) [] (some (⟨"e", none⟩, [.bare "e"]))
        (.error (.thrown (.kw "k"))) freshSession (.ok (.kw "k")) freshSession :=
      .handled .thrown (.last (evaluatesTo_local rfl))
    have hcleanup : Runs (fun _ => Evaluating.call) [] [.nil] freshSession (.ok .nil) freshSession :=
      .last ⟨1, rfl⟩
    exact .intro (.last hthrow) hhandler hcleanup
  · obtain ⟨f, hkind, hf⟩ := hmalformed [.list [.sym .handler]] fun body handler cleanup h => by
      obtain ⟨-, hhandler, -⟩ := arranges_iff.mp h
      cases handler <;> exact nomatch hhandler
    exact ⟨f, hkind, (hf _ _).mpr ⟨rfl, rfl⟩⟩

/-- The form `(try form (catch e e))`. -/
def catching (form : Value) : Value :=
  .list [.sym tryHead, form, .list [.sym .handler, .bare "e", .bare "e"]]

theorem evaluatesTo_catching {form v : Value} {f : Failure} (hclause : ¬IsClause form)
    (hform : EvaluatesTo call locals form s (.error f) t) (hcatches : Catches f v t u) :
    EvaluatesTo call locals (catching form) s (.ok v) u := by
  refine evaluatesTo_handled tryHead hclause "e" hform hcatches (.last (evaluatesTo_local ?_))
  rw [Table.find?_insert_self]

/-- A value with an integer that is too large to be written is not thrown. -/
theorem not_evaluatesTo_catching :
    ¬∀ (v : Value) (s : Session), (∀ id f, v ≠ .error id f) →
      EvaluatesTo (fun _ => Evaluating.call) [Table.empty.insert ⟨"n", none⟩ v]
        (catching (.list [.sym throwHead, .bare "n"])) s (.ok v) s := by
  intro h
  have hnumber : ∀ (n : Number) (id : Nat) (f : Failure), Value.num n ≠ .error id f := nofun
  have hvalue : ∀ id f, Value.int Number.textBound ≠ .error id f := hnumber _
  have hraised : (Value.int Number.textBound).raised = .unwritable := by
    rw [raised_of_ne_error hvalue, Value.isWritable_int]
    exact if_neg (by rw [decide_eq_true_eq]; exact Nat.lt_irrefl _)
  have hthrow : EvaluatesTo (fun _ => Evaluating.call)
      [Table.empty.insert ⟨"n", none⟩ (.int Number.textBound)] (.list [.sym throwHead, .bare "n"])
      freshSession (.error .unwritable) freshSession := by
    refine (evaluatesTo_raise_iff throwHead).mpr
      ⟨.ok (.int Number.textBound), evaluatesTo_local (Table.find?_insert_self _ _ _), ?_⟩
    exact congrArg Except.error hraised.symm
  have hcaught := evaluatesTo_catching (not_isClause_head throwHead _) hthrow
    (.fresh nofun nofun)
  obtain ⟨hresult, -⟩ := hcaught.unique (h (.int Number.textBound) freshSession hvalue)
  exact hvalue _ _ (Except.ok.inj hresult)

end Evaluation

end Quasiquote
