import Mathlib.Order.WellFounded
import Quasiquote.Interpreter
import Quasiquote.Proofs.Evaluation.Rounds

namespace Quasiquote.Evaluation

open Stateful

/-- A tree that is to be evaluated in a session, inside some frames. -/
structure Call where
  locals : List Frame
  tree : Value
  session : Session

namespace Call

/-- An evaluator answers a call with a result, and leaves a session. -/
def Answered (c : Call) (ev : Evaluator) (r : Except Failure Value) (t : Session) : Prop :=
  Gives (m := StateT Session Option) (ev c.locals c.tree) c.session r t

/-- Whether the head of a call names a macro. -/
def IsMacro (c : Call) : Prop :=
  (c.session.expander.macroFor (some c.session.currentNamespace) c.tree).isSome = true

/-- The evaluation of a call never ends. -/
def Diverges (c : Call) : Prop := ∀ n r t, ¬c.Answered (evaluate n) r t

end Call

/-- An evaluator is right about the calls that it answers and that evaluation answers. -/
def Agrees (ev : Evaluator) : Prop :=
  ∀ (c : Call) n r t r' t', c.Answered (evaluate n) r t → c.Answered ev r' t' → r' = r ∧ t' = t

/-- A computation that leaves calls to an evaluator cannot end as long as the given one has no answer,
whatever else has one. -/
def Waits {α : Type} (x : Evaluator → Evaluating α) (s : Session) (c : Call) : Prop :=
  ∀ again, Agrees again → (∀ r t, ¬c.Answered again r t) →
    ∀ r t, ¬Gives (m := StateT Session Option) (x again) s r t

/-- The call of a macro is met in the round of another call. -/
def Meets (c c' : Call) : Prop :=
  c'.IsMacro ∧ Waits (fun again => evaluateRound again c.locals c.tree) c.session c'

theorem Call.answered_unique {c : Call} {m n : Nat} {r r' : Except Failure Value} {t t' : Session}
    (h : c.Answered (evaluate m) r t) (h' : c.Answered (evaluate n) r' t') : r' = r ∧ t' = t :=
  Evaluating.gives_unique
    (refines_evaluate (Nat.le_max_left m n) c.locals c.tree c.session r t h)
    (refines_evaluate (Nat.le_max_right m n) c.locals c.tree c.session r' t' h')

theorem agrees_of_answered {ev : Evaluator}
    (h : ∀ (c : Call) r t, c.Answered ev r t → ∃ n, c.Answered (evaluate n) r t) : Agrees ev := by
  intro c n r t r' t' hr hr'
  obtain ⟨n', h'⟩ := h c r' t' hr'
  exact Call.answered_unique hr h'

def Call.Outcome (c : Call) (p : Except Failure Value × Session) : Prop :=
  ∃ n, c.Answered (evaluate n) p.1 p.2

open Classical in
/-- Evaluation with as many steps as it takes. -/
noncomputable def settled : Evaluator := fun locals tree => ExceptT.mk fun s =>
  if h : ∃ p, Call.Outcome ⟨locals, tree, s⟩ p then some h.choose else none

open Classical in
theorem answered_settled_iff {c : Call} {r : Except Failure Value} {t : Session} :
    c.Answered settled r t ↔ c.Outcome (r, t) := by
  have hsettled : c.Answered settled r t ↔
      (if h : ∃ p, c.Outcome p then some h.choose else none) = some (r, t) := Iff.rfl
  rw [hsettled]
  constructor
  · intro h
    split at h
    · rename_i hex
      rw [← Option.some.inj h]
      exact hex.choose_spec
    · exact nomatch h
  · rintro ⟨n, hn⟩
    have hex : ∃ p, c.Outcome p := ⟨(r, t), n, hn⟩
    rw [dif_pos hex]
    obtain ⟨n', hn'⟩ := hex.choose_spec
    obtain ⟨hr, ht⟩ := Call.answered_unique hn hn'
    exact congrArg some (Prod.ext hr ht)

theorem approaches_settled (locals : List Frame) (tree : Value) :
    Approaches (evaluate · locals tree) (settled locals tree) :=
  ⟨fun hmn => refines_evaluate hmn locals tree,
    fun {s _ _} h => answered_settled_iff (c := ⟨locals, tree, s⟩).mp h⟩

/-- With the answers of evaluation, a computation ends, and with other answers that agree with them
it does not end otherwise; or it waits for a call of a macro that diverges. -/
def Sequential {α : Type} (x : Evaluator → Evaluating α) : Prop :=
  ∀ s, (∃ r t, Gives (m := StateT Session Option) (x settled) s r t ∧
      ∀ again, Agrees again → ∀ r' t', Gives (m := StateT Session Option) (x again) s r' t' →
        r' = r ∧ t' = t) ∨
    ∃ c : Call, c.IsMacro ∧ c.Diverges ∧ Waits x s c

theorem sequential_const {α : Type} {x : Evaluating α} (hx : Ends x) : Sequential fun _ => x := by
  intro s
  obtain ⟨r, t, h⟩ := hx s
  exact .inl ⟨r, t, h, fun _ _ _ _ h' => Evaluating.gives_unique h h'⟩

theorem sequential_bind {α β : Type} {x : Evaluator → Evaluating α}
    {f : Evaluator → α → Evaluating β} (hx : Sequential x)
    (hf : ∀ a, Sequential fun again => f again a) : Sequential fun again => x again >>= f again := by
  intro s
  rcases hx s with ⟨r, t, h, hunique⟩ | ⟨c, hc, hdiverges, hwaits⟩
  · cases r with
    | error e =>
        refine .inl ⟨.error e, t, gives_bind.mpr (.inl ⟨e, h, rfl⟩), fun again ha r' t' h' => ?_⟩
        rcases gives_bind.mp h' with ⟨e', he', rfl⟩ | ⟨a, u, ha', -⟩
        · obtain ⟨he, rfl⟩ := hunique again ha _ _ he'
          cases he
          exact ⟨rfl, rfl⟩
        · exact nomatch (hunique again ha _ _ ha').1
    | ok a =>
        have step {again : Evaluator} (ha : Agrees again) {r' : Except Failure β} {t' : Session}
            (h' : Gives (m := StateT Session Option) (x again >>= f again) s r' t') :
            Gives (m := StateT Session Option) (f again a) t r' t' := by
          rcases gives_bind.mp h' with ⟨e, he, -⟩ | ⟨a', u, ha', hrest⟩
          · exact nomatch (hunique again ha _ _ he).1
          · obtain ⟨hok, rfl⟩ := hunique again ha _ _ ha'
            cases hok
            exact hrest
        rcases hf a t with ⟨r', u, h', hunique'⟩ | ⟨c, hc, hdiverges, hwaits⟩
        · exact .inl ⟨r', u, gives_bind.mpr (.inr ⟨a, t, h, h'⟩),
            fun again ha r'' t'' h'' => hunique' again ha r'' t'' (step ha h'')⟩
        · exact .inr ⟨c, hc, hdiverges,
            fun again ha hnone r'' t'' h'' => hwaits again ha hnone r'' t'' (step ha h'')⟩
  · refine .inr ⟨c, hc, hdiverges, fun again ha hnone r t h => ?_⟩
    rcases gives_bind.mp h with ⟨e, he, -⟩ | ⟨a, u, ha', -⟩
    · exact hwaits again ha hnone _ _ he
    · exact hwaits again ha hnone _ _ ha'

theorem sequential_outcome {α : Type} {x : Evaluator → Evaluating α} (hx : Sequential x) :
    Sequential fun again => (x again).outcome := by
  intro s
  rcases hx s with ⟨r, t, h, hunique⟩ | ⟨c, hc, hdiverges, hwaits⟩
  · refine .inl ⟨.ok r, t, Evaluating.gives_outcome.mpr ⟨r, h, rfl⟩, fun again ha r' t' h' => ?_⟩
    obtain ⟨r'', h'', rfl⟩ := Evaluating.gives_outcome.mp h'
    obtain ⟨rfl, rfl⟩ := hunique again ha r'' t' h''
    exact ⟨rfl, rfl⟩
  · refine .inr ⟨c, hc, hdiverges, fun again ha hnone r t h => ?_⟩
    obtain ⟨r', h', -⟩ := Evaluating.gives_outcome.mp h
    exact hwaits again ha hnone r' t h'

theorem closed_sequential :
    Closed (fun _ => True) fun (α : Type) (x : Evaluator → Evaluating α) => Sequential x where
  pure a := sequential_const (closed_ends.pure a)
  throw f := sequential_const (closed_ends.throw f)
  bind := sequential_bind
  get := sequential_const closed_ends.get
  modify f hf := sequential_const (closed_ends.modify f hf)
  identified := trivial
  performed _ := trivial
  outcome := sequential_outcome
  expandOnce tree := sequential_const (closed_ends.expandOnce tree)
  expandAll tree := sequential_const (closed_ends.expandAll tree)

theorem sequential_guarded (locals : List Frame) (tree : Value) :
    Sequential fun again => guarded again locals tree := by
  intro s
  by_cases hfound : (s.expander.macroFor (some s.currentNamespace) tree).isSome = true
  · have answered {again : Evaluator} {r : Except Failure Value} {t : Session} :
        Gives (m := StateT Session Option) (guarded again locals tree) s r t ↔
          Call.Answered ⟨locals, tree, s⟩ again r t := by
      unfold guarded
      rw [Evaluating.gives_get_bind, if_pos hfound]
      exact Iff.rfl
    by_cases hc : ∃ p, Call.Outcome ⟨locals, tree, s⟩ p
    · obtain ⟨⟨r, t⟩, n, hn⟩ := hc
      exact .inl ⟨r, t, answered.mpr (answered_settled_iff.mpr ⟨n, hn⟩),
        fun again ha r' t' h' => ha _ n r t r' t' hn (answered.mp h')⟩
    · exact .inr ⟨⟨locals, tree, s⟩, hfound, fun n r t h => hc ⟨(r, t), n, h⟩,
        fun again _ hnone r t h => hnone r t (answered.mp h)⟩
  · have skipped {again : Evaluator} {r : Except Failure Value} {t : Session} :
        Gives (m := StateT Session Option) (guarded again locals tree) s r t ↔
          r = .ok .nil ∧ t = s := by
      unfold guarded
      rw [Evaluating.gives_get_bind, if_neg hfound]
      exact gives_pure
    exact .inl ⟨.ok .nil, s, skipped.mpr ⟨rfl, rfl⟩, fun _ _ _ _ h => skipped.mp h⟩

theorem sequential_evalRound (n : Nat) (locals : List Frame) (tree : Value) (hn : sizeOf tree ≤ n) :
    Sequential fun again => evalRound again n locals tree := by
  induction n generalizing locals tree with
  | zero =>
      have := Value.sizeOf_pos tree
      omega
  | succ n ih =>
      have hlevel := evalLevel_of_smaller closed_sequential
        (fun lead => sequential_const (ends_fresh lead)) (fun again => evalRound again n)
        guarded SpecialForm.changesBy_true (fun locals form hform => ih locals form (by omega))
        (sequential_guarded locals tree)
      simp only [evalLevel_guarded] at hlevel
      exact hlevel

theorem sequential_evaluateRound (locals : List Frame) (tree : Value) :
    Sequential fun again => evaluateRound again locals tree :=
  sequential_bind (sequential_const (closed_ends.expanded tree)) fun tree =>
    sequential_evalRound _ locals tree (Nat.le_refl _)

/-- In the round of a call that diverges, another call that diverges is met. -/
theorem exists_meets_of_diverges {c : Call} (h : c.Diverges) : ∃ c', Meets c c' ∧ c'.Diverges := by
  rcases sequential_evaluateRound c.locals c.tree c.session with
    ⟨r, t, hr, -⟩ | ⟨c', hc', hdiverges, hwaits⟩
  · obtain ⟨n, hn⟩ := (approaches_evaluateRound approaches_settled c.locals c.tree).attains hr
    exact absurd hn (h n r t)
  · exact ⟨c', ⟨hc', hwaits⟩, hdiverges⟩

theorem not_acc_of_diverges {c : Call} (h : c.Diverges) : ¬Acc (fun c' c => Meets c c') c := by
  intro hacc
  induction hacc with
  | intro c _ ih =>
      obtain ⟨c', hmeets, hdiverges⟩ := exists_meets_of_diverges h
      exact ih c' hmeets hdiverges

theorem agrees_evaluateWithin (k : Nat) : Agrees (evaluateWithin exhausted k) :=
  agrees_of_answered fun c _ _ h => (approaches_evaluateWithin k c.locals c.tree).attains h

theorem not_answered_of_meets {calls : Nat → Call} (h : ∀ i, Meets (calls i) (calls (i + 1)))
    (k i : Nat) (r : Except Failure Value) (t : Session) :
    ¬(calls i).Answered (evaluateWithin exhausted k) r t := by
  induction k generalizing i r t with
  | zero => exact fun h => nomatch h
  | succ k ih => exact (h i).2 _ (agrees_evaluateWithin k) (ih (i + 1)) r t

/-- With any bound on the nesting of rounds evaluation ends, if it ends when the bound is reached.
Without a bound, an evaluation diverges exactly if it is the first of an infinite sequence, in which
each meets the next in its round. -/
theorem diverges_iff_exists_meets (c : Call) :
    (∀ last : Evaluator, (∀ locals tree, Ends (last locals tree)) →
      ∀ k, ∃ r t, c.Answered (evaluateWithin last k) r t) ∧
    (c.Diverges ↔ ∃ calls : Nat → Call, calls 0 = c ∧ ∀ i, Meets (calls i) (calls (i + 1))) := by
  refine ⟨fun last hlast k => ends_evaluateWithin hlast k c.locals c.tree c.session, ?_, ?_⟩
  · intro h
    exact not_acc_iff_exists_descending_chain.mp (not_acc_of_diverges h)
  · rintro ⟨calls, rfl, hcalls⟩ n r t h
    obtain ⟨k, hk⟩ := gives_evaluate_iff_evaluateWithin.mp ⟨n, h⟩
    exact not_answered_of_meets hcalls k 0 r t hk

/-- The form `(do (defmacro k [] 1) (k))`, which calls a macro that it has just defined. -/
def definingForm : Value :=
  .list [.sym .sequence, .list [.bare "defmacro", .bare "k", .list [], .int 1],
    .list [.bare "k"]]

theorem diverges_iff_exists_meets_definingForm :
    ¬∃ calls : Nat → Call, calls 0 = ⟨[], definingForm, .start "user" 100 4 {}⟩ ∧
      ∀ i, Meets (calls i) (calls (i + 1)) := by
  have hends : ∃ t, Call.Answered ⟨[], definingForm, .start "user" 100 4 {}⟩ (evaluate 4)
      (.ok (.int 1)) t := ⟨_, rfl⟩
  obtain ⟨t, h⟩ := hends
  rw [← (diverges_iff_exists_meets _).2]
  exact fun hdiverges => hdiverges 4 _ t h

theorem gives_evalTree_of_gives_evaluate {n : Nat} {locals : List Frame} {tree tree' : Value}
    {s t u : Session} {r : Except Failure Value}
    (he : Gives (m := StateT Session Option) (expanded tree) s (.ok tree') u)
    (h : Gives (m := StateT Session Option) (evaluate n locals tree) s r t) :
    Gives (m := StateT Session Option) (evalTree n locals tree') u r t := by
  rcases gives_bind.mp h with ⟨e, h, -⟩ | ⟨v, w, hv, hrest⟩
  · cases (Evaluating.gives_unique he h).1
  · obtain ⟨hok, rfl⟩ := Evaluating.gives_unique he hv
    cases hok
    exact hrest

theorem gives_evalLevel_of_isMacro {ev again : Evaluator} {locals : List Frame} {head : Value}
    {args : List Value} {s t : Session} {r : Except Failure Value} (hhead : special? head = none)
    (hfound : Call.IsMacro ⟨locals, .list (head :: args), s⟩) :
    Gives (m := StateT Session Option) (evalLevel ev again locals (.list (head :: args))) s r t ↔
      Gives (m := StateT Session Option) (again locals (.list (head :: args))) s r t := by
  unfold Call.IsMacro at hfound
  unfold evalLevel evalLevelBy
  dsimp only at hfound ⊢
  rw [hhead]
  dsimp only
  rw [Evaluating.gives_get_bind, if_pos hfound]

theorem diverges_of_expanded {locals : List Frame} {head : Value} {args : List Value} {s : Session}
    (hhead : special? head = none) (hfound : Call.IsMacro ⟨locals, .list (head :: args), s⟩)
    (he : Gives (m := StateT Session Option) (expanded (.list (head :: args))) s
      (.ok (.list (head :: args))) s) : Call.Diverges ⟨locals, .list (head :: args), s⟩ := by
  intro n
  induction n with
  | zero => exact fun r t h => nomatch gives_evalTree_of_gives_evaluate he h
  | succ n ih =>
      intro r t h
      have htree := gives_evalTree_of_gives_evaluate he h
      rw [evalTree_succ, gives_evalLevel_of_isMacro hhead hfound] at htree
      exact ih r t htree

theorem evaluate_defineMacro (n : Nat) (locals : List Frame) (args : List Value) :
    evaluate (n + 1) locals (.list (.bare "defmacro" :: args)) = evalDefineMacro args :=
  rfl

/-- A text after which the call `(m)` expands to `((h))`, and then to itself. -/
def alternatingText : List Char := "(defmacro h [] 'm) (defmacro m [] '((h)))".toList

def quoting (s : Session) (name : String) (tree : Value) : Session :=
  (s.unrefer name).defineMacro ⟨name, ⟨[], none, List.nodup_nil⟩, .list [.sym .quote, tree], s.current⟩

/-- The session in which the text has been evaluated. -/
def alternatingSession : Session :=
  quoting (quoting (Session.start "user" 100 4 {}) "h" (.bare "m")) "m" (.list [.list [.bare "h"]])

theorem gives_evalForm {tree v : Value} {s t : Session}
    (h : Gives (m := StateT Session Option) (evaluate Interpreter.stepBound [] tree) s (.ok v) t) :
    Gives (m := StateT Session Option) (Interpreter.evalForm tree) s (.ok v) t :=
  gives_bind.mpr (.inr ⟨.ok v, t, Evaluating.gives_outcome.mpr ⟨.ok v, h, rfl⟩,
    gives_pure.mpr ⟨rfl, rfl⟩⟩)

theorem gives_evalText_alternatingText :
    Gives (m := StateT Session Option) (Interpreter.evalText alternatingText)
      (Session.start "user" 100 4 {}) (.ok (.sym ⟨"m", some "user"⟩)) alternatingSession := by
  have hread : Reader.readAll alternatingText = .ok
      [.list [.bare "defmacro", .bare "h", .list [], .list [.sym .quote, .bare "m"]],
        .list [.bare "defmacro", .bare "m", .list [],
          .list [.sym .quote, .list [.list [.bare "h"]]]]] := rfl
  unfold Interpreter.evalText
  rw [hread, ofExcept_ok, pure_bind]
  refine gives_bind.mpr (.inr ⟨_, quoting (Session.start "user" 100 4 {}) "h" (.bare "m"),
    gives_evalForm (v := .sym ⟨"h", some "user"⟩) ?_, gives_evalForm ?_⟩)
  · rw [Interpreter.stepBound, evaluate_defineMacro 999]
    rfl
  · rw [Interpreter.stepBound, evaluate_defineMacro 999]
    rfl

theorem diverges_alternatingSession : Call.Diverges ⟨[], .list [.bare "m"], alternatingSession⟩ := by
  have he : Gives (m := StateT Session Option) (expanded (.list [.bare "m"])) alternatingSession
      (.ok (.list [.bare "m"])) alternatingSession := rfl
  exact diverges_of_expanded rfl rfl he

theorem not_ends_alternatingText :
    ¬∀ (text : List Char) (v : Except Failure Value) (s : Session),
      Gives (m := StateT Session Option) (Interpreter.evalText text)
        (Session.start "user" 100 4 {}) v s →
      ∀ tree, ∃ n r t, Gives (m := StateT Session Option) (evaluate n [] tree) s r t := by
  intro h
  obtain ⟨n, r, t, hgives⟩ := h alternatingText _ _ gives_evalText_alternatingText
    (.list [.bare "m"])
  exact diverges_alternatingSession n r t hgives

end Quasiquote.Evaluation
