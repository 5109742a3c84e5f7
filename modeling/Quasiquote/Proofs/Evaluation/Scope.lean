import Quasiquote.Proofs.Evaluation.Form
import Quasiquote.Proofs.Evaluation.Locality
import Quasiquote.Proofs.Evaluation.Unbounded

namespace Quasiquote.Evaluation

open Stateful

variable {call : Primitive → List Value → Evaluating Value}
variable {locals locals' : List Frame} {s t : Session} {r : Except Failure Value}

/-- Bare names stand for the same values in two lists of frames. -/
def LooksAlike (locals locals' : List Frame) : Prop :=
  ∀ x : Symbol, x.isQualified = false →
    (locals.findSome? fun frame => frame.find? x) = locals'.findSome? fun frame => frame.find? x

theorem LooksAlike.append (h : LooksAlike locals locals') (inner : List Frame) :
    LooksAlike (inner ++ locals) (inner ++ locals') := by
  intro x hx
  rw [List.findSome?_append, List.findSome?_append, h x hx]

theorem LooksAlike.empty_cons (h : LooksAlike locals locals') :
    LooksAlike locals (Table.empty :: locals') := by
  intro x hx
  rw [List.findSome?_cons, Table.find?_empty]
  exact h x hx

theorem LooksAlike.insert {frame : Frame} (h : LooksAlike (frame :: locals) locals') (x : Symbol)
    (v : Value) : LooksAlike (frame.insert x v :: locals) (Table.empty.insert x v :: locals') := by
  intro y hy
  have hframes := h y hy
  rw [List.findSome?_cons] at hframes
  rw [List.findSome?_cons, List.findSome?_cons, Table.find?_insert, Table.find?_insert]
  by_cases hyx : y = x
  · rw [if_pos hyx, if_pos hyx]
  · rw [if_neg hyx, if_neg hyx, Table.find?_empty]
    exact hframes

theorem LooksAlike.lookup_eq (h : LooksAlike locals locals') (x : Symbol) :
    Evaluating.lookup locals x = Evaluating.lookup locals' x := by
  funext s
  have hroot : x.isQualified = false →
      (Environment.mk locals s.globals).find? x = (Environment.mk locals' s.globals).find? x := by
    intro hx
    rw [find?_locals, find?_locals, h x hx]
  have hlookup : (Environment.mk locals s.globals).lookup (some s.currentNamespace) x =
      (Environment.mk locals' s.globals).lookup (some s.currentNamespace) x := lookup_congr hroot []
  unfold Evaluating.lookup
  change (MonadExcept.ofExcept _ : Evaluating Value) s = (MonadExcept.ofExcept _ : Evaluating Value) s
  rw [hlookup]

/-- If functions cannot see the frames, evaluation is the same in frames in which bare names stand for
the same values. -/
theorem LooksAlike.evalTreeBy_eq (h : LooksAlike locals locals') (n : Nat) (tree : Value) :
    evalTreeBy (fun _ => call) exhausted n locals tree =
      evalTreeBy (fun _ => call) exhausted n locals' tree := by
  induction n generalizing locals locals' tree with
  | zero => rfl
  | succ n ih =>
      exact evalLevelBy_of_fresh closed_agrees (fun _ => rfl) (fun _ => call)
        (fun _ => evalTreeBy (fun _ => call) exhausted n)
        (fun _ locals tree => expanded tree >>= evalTreeBy (fun _ => call) exhausted n locals)
        (fun b => cond b locals locals') tree (fun form _ => form.changesBy_true)
        (fun x _ => h.lookup_eq x) (fun inner _ w _ => ih (h.append inner) w) (fun _ _ => rfl)
        (congrArg (expanded tree >>= ·) (funext (ih h)))

theorem LooksAlike.evaluatesTo_iff (h : LooksAlike locals locals') {tree : Value} :
    EvaluatesTo (fun _ => call) locals tree s r t ↔ EvaluatesTo (fun _ => call) locals' tree s r t :=
  exists_congr fun n => by rw [h.evalTreeBy_eq n tree]

theorem LooksAlike.evalUnbounded_eq (h : LooksAlike locals locals') :
    evalUnbounded (fun _ => call) locals = evalUnbounded (fun _ => call) locals' := by
  funext tree
  refine ext_gives fun s r t => ?_
  rw [gives_evalUnbounded, gives_evalUnbounded, h.evaluatesTo_iff]

/-- A `let` with some bindings. -/
def scopeForm (head : SpecialForm.scope.Head) (bindings : List (String × Value)) (body : List Value) :
    Value :=
  .list (.sym head :: .list (bindings.flatMap fun b => [.bare b.1, b.2]) :: body)

/-- A `let` for each binding. The next one is all that stands in the body of the one before. -/
def nestedForm (head : SpecialForm.scope.Head) (first : String × Value) :
    List (String × Value) → List Value → Value
  | [], body => scopeForm head [first] body
  | next :: more, body => scopeForm head [first] [nestedForm head next more body]

/-- Values are evaluated one after the other and bound in a frame, and then forms inside of it. A value
that fails ends it all. -/
inductive Scoping (call : Calling) (locals : List Frame) (body : List Value) :
    Frame → List (String × Value) → Session → Except Failure Value → Session → Prop
  | body {frame : Frame} {s t : Session} {r : Except Failure Value} :
      Runs call (frame :: locals) body s r t → Scoping call locals body frame [] s r t
  | failed {frame : Frame} {name : String} {form : Value} {more : List (String × Value)}
      {s t : Session} {f : Failure} : EvaluatesTo call (frame :: locals) form s (.error f) t →
      Scoping call locals body frame ((name, form) :: more) s (.error f) t
  | bound {frame : Frame} {name : String} {form v : Value} {more : List (String × Value)}
      {s t u : Session} {r : Except Failure Value} :
      EvaluatesTo call (frame :: locals) form s (.ok v) t →
      Scoping call locals body (frame.insert ⟨name, none⟩ v) more t r u →
      Scoping call locals body frame ((name, form) :: more) s r u

theorem bindAll_cons (ev : Evaluator) (locals : List Frame) (frame : Frame) (name : String)
    (form : Value) (more : List Value) :
    bindAll ev locals frame (.bare name :: form :: more) =
      ev (frame :: locals) form >>= fun v =>
        bindAll ev locals (frame.insert ⟨name, none⟩ v) more :=
  rfl

theorem gives_bindAll_iff {call : Calling} {bindings : List (String × Value)} {frame : Frame}
    {body : List Value} :
    Gives (m := StateT Session Option)
        (bindAll (evalUnbounded call) locals frame
            (bindings.flatMap fun b => [.bare b.1, b.2]) >>= fun frame =>
          evalSequence (evalUnbounded call) (frame :: locals) body) s r t ↔
      Scoping call locals body frame bindings s r t := by
  induction bindings generalizing frame s with
  | nil =>
      rw [List.flatMap_nil, bindAll.eq_def]
      dsimp only
      rw [pure_bind, gives_evalSequence_iff]
      constructor
      · exact .body
      · intro h
        cases h
        assumption
  | cons b more ih =>
      rw [List.flatMap_cons, List.cons_append, List.cons_append, List.nil_append, bindAll_cons,
        bind_assoc, gives_bind]
      simp only [gives_evalUnbounded, ih]
      constructor
      · rintro (⟨f, hf, rfl⟩ | ⟨v, u, hv, hrest⟩)
        · exact .failed hf
        · exact .bound hv hrest
      · intro h
        cases h with
        | failed hf => exact .inl ⟨_, hf, rfl⟩
        | bound hv hrest => exact .inr ⟨_, _, hv, hrest⟩

theorem length_flatMap_bindings (bindings : List (String × Value)) :
    (bindings.flatMap fun b => [Value.bare b.1, b.2]).length % 2 = 0 := by
  induction bindings with
  | nil => rfl
  | cons b more ih =>
      rw [List.flatMap_cons, List.length_append]
      exact (Nat.add_mod_left 2 _).trans ih

theorem evalUnbounded_scopeForm (call : Calling) (locals : List Frame)
    (head : SpecialForm.scope.Head) (bindings : List (String × Value)) (body : List Value) :
    evalUnbounded call locals (scopeForm head bindings body) =
      bindAll (evalUnbounded call) locals Table.empty
          (bindings.flatMap fun b => [.bare b.1, b.2]) >>= fun frame =>
        evalSequence (evalUnbounded call) (frame :: locals) body := by
  rw [scopeForm, evalUnbounded_head]
  exact evalScope_even (length_flatMap_bindings bindings) body

theorem evalSequence_congr {ev : Evaluator} (h : ev locals = ev locals') (forms : List Value) :
    evalSequence ev locals forms = evalSequence ev locals' forms := by
  induction forms with
  | nil => rfl
  | cons form forms ih =>
      cases forms with
      | nil => exact congrFun h form
      | cons next forms =>
          change ev locals form >>= _ = ev locals' form >>= _
          rw [h, ih]

theorem LooksAlike.evalUnbounded_nestedForm {frame : Frame}
    (h : LooksAlike (frame :: locals) locals') (head : SpecialForm.scope.Head)
    (first : String × Value) (more : List (String × Value)) (body : List Value) :
    evalUnbounded (fun _ => call) locals' (nestedForm head first more body) =
      bindAll (evalUnbounded fun _ => call) locals frame
          ((first :: more).flatMap fun b => [.bare b.1, b.2]) >>= fun frame =>
        evalSequence (evalUnbounded fun _ => call) (frame :: locals) body := by
  induction more generalizing frame locals' first with
  | nil =>
      rw [nestedForm, evalUnbounded_scopeForm, List.flatMap_singleton, bindAll_cons, bindAll_cons,
        ← h.empty_cons.evalUnbounded_eq, bind_assoc, bind_assoc]
      congr 1
      funext v
      exact (evalSequence_congr (h.insert _ v).evalUnbounded_eq body).symm
  | cons next more ih =>
      rw [nestedForm, evalUnbounded_scopeForm, List.flatMap_singleton, List.flatMap_cons,
        List.cons_append, List.cons_append, List.nil_append, bindAll_cons, bindAll_cons,
        ← h.empty_cons.evalUnbounded_eq, bind_assoc, bind_assoc]
      congr 1
      funext v
      exact ih (h.insert _ v) next

theorem evaluatesTo_nestedForm_iff (head : SpecialForm.scope.Head) (first : String × Value)
    (more : List (String × Value)) (body : List Value) :
    EvaluatesTo (fun _ => call) locals (scopeForm head (first :: more) body) s r t ↔
      EvaluatesTo (fun _ => call) locals (nestedForm head first more body) s r t := by
  have hempty : LooksAlike (Table.empty :: locals) locals := fun x _ => by
    rw [List.findSome?_cons, Table.find?_empty]
  rw [← gives_evalUnbounded, ← gives_evalUnbounded,
    hempty.evalUnbounded_nestedForm head first more body, evalUnbounded_scopeForm]

theorem evaluatesTo_scopeForm_iff_scoping {call : Calling} (head : SpecialForm.scope.Head)
    (bindings : List (String × Value)) (body : List Value) :
    EvaluatesTo call locals (scopeForm head bindings body) s r t ↔
      Scoping call locals body Table.empty bindings s r t := by
  rw [← gives_evalUnbounded, ← gives_bindAll_iff, evalUnbounded_scopeForm]

/-- A `let` with many bindings and nested ones with one binding each come to the same outcome, and to
none if there is none. It is what comes of binding the values one by one. -/
theorem evaluatesTo_scopeForm_iff (call : Primitive → List Value → Evaluating Value)
    (locals : List Frame) (head : SpecialForm.scope.Head) (first : String × Value)
    (more : List (String × Value)) (body : List Value) (s : Session) (r : Except Failure Value)
    (t : Session) :
    (EvaluatesTo (fun _ => call) locals (scopeForm head (first :: more) body) s r t ↔
      EvaluatesTo (fun _ => call) locals (nestedForm head first more body) s r t) ∧
    (EvaluatesTo (fun _ => call) locals (scopeForm head (first :: more) body) s r t ↔
      Scoping (fun _ => call) locals body Table.empty (first :: more) s r t) :=
  ⟨evaluatesTo_nestedForm_iff head first more body,
    evaluatesTo_scopeForm_iff_scoping head (first :: more) body⟩

/-- The evaluator of trees does not tell a `let` with many bindings from nested ones. -/
theorem evaluates_scopeForm_iff (head : SpecialForm.scope.Head) (first : String × Value)
    (more : List (String × Value)) (body : List Value) :
    Evaluates locals (scopeForm head (first :: more) body) s r t ↔
      Evaluates locals (nestedForm head first more body) s r t := by
  rw [← evaluatesTo_call_iff, ← evaluatesTo_call_iff]
  exact evaluatesTo_nestedForm_iff head first more body

theorem evaluates_scopeForm_iff_scoping (head : SpecialForm.scope.Head)
    (bindings : List (String × Value)) (body : List Value) :
    Evaluates locals (scopeForm head bindings body) s r t ↔
      Scoping (fun _ => Evaluating.call) locals body Table.empty bindings s r t :=
  evaluatesTo_call_iff.symm.trans (evaluatesTo_scopeForm_iff_scoping head bindings body)

end Quasiquote.Evaluation
