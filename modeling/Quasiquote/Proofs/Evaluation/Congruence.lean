import Quasiquote.Evaluation.Tree
import Quasiquote.Proofs.Evaluation.Subform
import Quasiquote.Proofs.Outcome

/-!
What holds of the evaluator because of how it is put together. `Closed Change P` says that a predicate
on families of computations is kept by all that special forms are made of, if they change a session
only in the given ways. Main statement: such a predicate holds of a tree if it holds of the evaluation
of all code below it.
-/

namespace Quasiquote

/-- No name that a frame binds is qualified. -/
def Frame.IsBare (frame : Frame) : Prop := ∀ name ∈ frame.keys, name.isQualified = false

namespace Frame

instance (frame : Frame) : Decidable (IsBare frame) :=
  inferInstanceAs (Decidable (∀ name ∈ frame.keys, _))

theorem isBare_empty : IsBare Table.empty :=
  nofun

theorem IsBare.insert {frame : Frame} (h : IsBare frame) {name : Symbol}
    (hname : name.isQualified = false) (v : Value) : IsBare (Table.insert frame name v) := by
  intro other hother
  rw [Table.keys_insert] at hother
  split at hother
  · exact h other hother
  · rcases List.mem_append.mp hother with hother | hother
    · exact h other hother
    · rwa [List.mem_singleton.mp hother]

end Frame

/-- All that a form does to the session, besides the evaluation of its arguments, is a change of the
given kind. -/
def SpecialForm.ChangesBy (Change : (Session → Session) → Prop) : SpecialForm → Prop
  | .define => (∀ name, Change fun s => s.unrefer name) ∧
      ∀ name ns v, Change fun s => s.setGlobal ⟨name, some ns⟩ v
  | .defineMacro => ∀ m : Macro, Change fun s => (s.unrefer m.name).defineMacro m
  | .enterNamespace => ∀ name, Change fun s => s.enter name
  | .aliasNamespace => ∀ short full, Change fun s => s.addAlias short full
  | _ => True

theorem SpecialForm.changesBy_true (form : SpecialForm) : form.ChangesBy fun _ => True := by
  cases form <;> simp [ChangesBy]

namespace Evaluation

theorem ofExcept_ok {α : Type} (a : α) :
    (MonadExcept.ofExcept (.ok a) : Evaluating α) = pure a :=
  rfl

theorem throw_bind {α β : Type} (f : Failure) (k : α → Evaluating β) :
    (throw f : Evaluating α) >>= k = throw f :=
  rfl

theorem eq_of_clause? {head : Symbol} {v : Value} {contents : List Value}
    (h : clause? head v = some contents) : v = .list (.sym head :: contents) := by
  unfold clause? at h
  split at h
  · split at h
    · cases h
      simp [*]
    · exact nomatch h
  · exact nomatch h

theorem mem_of_filterMap_clause? {head : Symbol} {args contents : List Value}
    {rest : List (List Value)} (h : args.filterMap (clause? head) = contents :: rest) :
    Value.list (.sym head :: contents) ∈ args := by
  obtain ⟨v, hv, hclause⟩ := List.mem_filterMap.mp (h ▸ List.mem_cons_self)
  exact eq_of_clause? hclause ▸ hv

theorem eq_of_handlerOf {contents forms : List Value} {name : Symbol}
    (h : handlerOf contents = .ok (name, forms)) :
    contents = .sym name :: forms ∧ name.isQualified = false := by
  unfold handlerOf at h
  split at h
  · split at h
    · exact nomatch h
    · cases h
      exact ⟨rfl, eq_false_of_ne_true ‹_›⟩
  · exact nomatch h

theorem mem_clausePositions_of_clause?_eq_none {v : Value} (hhandler : clause? .handler v = none)
    (hcleanup : clause? .cleanup v = none) : v ∈ v.clausePositions.forms := by
  rcases v.clausePositions_cases with ⟨args, rfl⟩ | ⟨args, rfl⟩ | hv
  · exact nomatch hhandler
  · exact nomatch hcleanup
  · rw [hv]
    exact List.mem_singleton_self v

/-- What stands in the arguments of a `try` where code is. -/
def clauseForms (args : List Value) : List Value :=
  args.flatMap fun c => c.clausePositions.forms

theorem Attempt.subset_of_ofArguments {args : List Value} {parts : Attempt}
    (h : Attempt.ofArguments args = .ok parts) :
    parts.body ⊆ clauseForms args ∧
      (∀ handler, parts.handler = some handler →
        handler.1.isQualified = false ∧ handler.2 ⊆ clauseForms args) ∧
      parts.cleanup ⊆ clauseForms args := by
  unfold Attempt.ofArguments at h
  dsimp only at h
  split at h
  · exact nomatch h
  have body : (args.filter fun v => (clause? .handler v).isNone && (clause? .cleanup v).isNone) ⊆
      clauseForms args := by
    intro v hv
    obtain ⟨hv, hclause⟩ := List.mem_filter.mp hv
    simp only [Bool.and_eq_true, Option.isNone_iff_eq_none] at hclause
    exact List.mem_flatMap.mpr
      ⟨v, hv, mem_clausePositions_of_clause?_eq_none hclause.1 hclause.2⟩
  have cleanup : (args.filterMap (clause? .cleanup)).headD [] ⊆ clauseForms args := by
    cases hclauses : args.filterMap (clause? .cleanup) with
    | nil => exact List.nil_subset _
    | cons contents rest =>
        exact fun v hv => List.mem_flatMap.mpr ⟨_, mem_of_filterMap_clause? hclauses, hv⟩
  split at h
  · cases h
    exact ⟨body, nofun, cleanup⟩
  · rename_i contents rest hclauses
    obtain ⟨⟨name, forms⟩, hfound, h⟩ := bind_eq_ok.mp h
    cases h
    refine ⟨body, fun handler hh => ?_, cleanup⟩
    cases hh
    obtain ⟨rfl, hname⟩ := eq_of_handlerOf hfound
    exact ⟨hname, fun v hv => List.mem_flatMap.mpr ⟨_, mem_of_filterMap_clause? hclauses, hv⟩⟩

/-- A predicate on families of computations that all steps of the evaluator keep. Sessions are
changed in the given ways only, apart from expansions and templates. -/
structure Closed {ι : Type} (Change : (Session → Session) → Prop)
    (P : ∀ α : Type, (ι → Evaluating α) → Prop) : Prop where
  pure {α : Type} (a : α) : P α fun _ => pure a
  throw {α : Type} (f : Failure) : P α fun _ => throw f
  bind {α β : Type} {x : ι → Evaluating α} {f : ι → α → Evaluating β} :
    P α x → (∀ a, P β fun i => f i a) → P β fun i => x i >>= f i
  get : P Session fun _ => get
  modify (f : Session → Session) : Change f → P PUnit fun _ => modify f
  identified : Change fun s => { s with identities := s.identities + 1 }
  performed (effect : Effect) : Change fun s => s.perform effect
  outcome {α : Type} {x : ι → Evaluating α} : P α x → P (Except Failure α) fun i => (x i).outcome
  expandOnce (tree : Value) : P Value fun _ =>
    Evaluating.expanding fun e caller => e.expandOnceIfCall caller tree
  expandAll (tree : Value) : P Value fun _ =>
    Evaluating.expanding fun e caller => e.expandAll caller tree

theorem closed_moves {R : Session → Session → Prop}
    [IsPreorder (Stateful.State (StateT Session Option)) R] {Change : (Session → Session) → Prop}
    (hchange : ∀ f, Change f → ∀ s, R s (f s))
    (hidentified : Change fun s => { s with identities := s.identities + 1 })
    (hperformed : ∀ effect : Effect, Change fun s => s.perform effect)
    (honce : ∀ tree, Moves (m := StateT Session Option) R
      (Evaluating.expanding fun e caller => e.expandOnceIfCall caller tree))
    (hall : ∀ tree, Moves (m := StateT Session Option) R
      (Evaluating.expanding fun e caller => e.expandAll caller tree)) :
    Closed Change fun (α : Type) (x : Unit → Evaluating α) =>
      Moves (m := StateT Session Option) R (x ()) where
  pure a := moves_pure (m := StateT Session Option) a
  throw f := moves_throw (m := StateT Session Option) f
  bind hx hf := moves_bind (m := StateT Session Option) hx hf
  get s r t h := by
    obtain ⟨-, rfl⟩ := Evaluating.gives_get.mp h
    exact refl_of R t
  modify f hf s r t h := by
    obtain ⟨-, rfl⟩ := Evaluating.gives_modify.mp h
    exact hchange f hf s
  identified := hidentified
  performed := hperformed
  outcome hx s r t h := by
    obtain ⟨r', h, -⟩ := Evaluating.gives_outcome.mp h
    exact hx h
  expandOnce := honce
  expandAll := hall

variable {ι : Type} {Change : (Session → Session) → Prop}
variable {P : ∀ α : Type, (ι → Evaluating α) → Prop}

theorem family_ite {α : Type} {c : Prop} [Decidable c] {x y : ι → Evaluating α} (hx : P α x)
    (hy : P α y) : P α fun i => if c then x i else y i := by
  by_cases h : c
  · simpa only [if_pos h] using hx
  · simpa only [if_neg h] using hy

theorem freshIdentity_eq : Evaluating.freshIdentity = (do
    let s ← get
    modify fun s => { s with identities := s.identities + 1 }
    pure s.identities) :=
  rfl

/-- What a definition of a symbol does. -/
def defineSymbol (ev : Evaluator) (locals : List Frame) (s : Symbol) (form : Option Value) :
    Evaluating Value := do
  let ns := (← get).current
  if s.isQualified && s.ns != some ns then throw (.malformed (.defElsewhere s))
  modify fun session => session.unrefer s.name
  let v ← match form with
    | some form => ev locals form
    | none => pure .nil
  let qualified : Symbol := ⟨s.name, some ns⟩
  modify fun session => session.setGlobal qualified v
  pure (.sym qualified)

namespace Closed

variable (hP : Closed Change P)
include hP

theorem ofExcept {α : Type} (r : Except Failure α) : P α fun _ => MonadExcept.ofExcept r := by
  cases r with
  | ok a => exact hP.pure a
  | error f => exact hP.throw f

theorem written {α : Type} (v : Value) (text : Value → α) :
    P α fun _ => Evaluating.written v text :=
  hP.ofExcept _

theorem expanded (tree : Value) : P Value fun _ => Evaluation.expanded tree := by
  unfold Evaluation.expanded
  exact family_ite (hP.pure tree) (hP.expandAll tree)

theorem lookup (locals : List Frame) (name : Symbol) :
    P Value fun _ => Evaluating.lookup locals name :=
  hP.bind hP.get fun _ => hP.ofExcept _

theorem freshIdentity : P Nat fun _ => Evaluating.freshIdentity := by
  rw [freshIdentity_eq]
  apply hP.bind hP.get
  intro s
  apply hP.bind (hP.modify _ hP.identified)
  intro _
  exact hP.pure s.identities

theorem caughtValue (f : Failure) : P Value fun _ => Evaluating.caughtValue f := by
  cases f with
  | thrown v => exact hP.pure v
  | again id f => cases f <;> exact hP.pure _
  | _ => exact hP.bind hP.freshIdentity fun _ => hP.pure _

theorem call (f : Primitive) (args : List Value) : P Value fun _ => Evaluating.call f args := by
  apply hP.bind hP.freshIdentity
  intro id
  apply hP.bind hP.get
  intro s
  apply hP.bind (hP.ofExcept _)
  intro result
  apply hP.bind (hP.modify _ (hP.performed result.2))
  intro _
  exact hP.pure result.1

theorem only (form : String) (args : List Value) : P Value fun _ => Evaluation.only form args := by
  rcases args with _ | ⟨v, _ | ⟨w, args⟩⟩
  · exact hP.throw _
  · exact hP.pure v
  · exact hP.throw _

variable {ev : ι → Evaluator} {locals : ι → List Frame}

theorem mapM {args : List Value} (h : ∀ v ∈ args, P Value fun i => ev i (locals i) v) :
    P (List Value) fun i => args.mapM (ev i (locals i)) := by
  induction args with
  | nil => exact hP.pure []
  | cons v vs ih =>
      simp only [List.mapM_cons]
      apply hP.bind (h v (by simp))
      intro a
      apply hP.bind (ih fun w hw => h w (by simp [hw]))
      intro as
      exact hP.pure (a :: as)

theorem evalSequence (locals : ι → List Frame) {forms : List Value}
    (h : ∀ v ∈ forms, P Value fun i => ev i (locals i) v) :
    P Value fun i => Evaluation.evalSequence (ev i) (locals i) forms := by
  induction forms with
  | nil => exact hP.pure _
  | cons form rest ih =>
      cases rest with
      | nil => exact h form (by simp)
      | cons form' rest =>
          exact hP.bind (h form (by simp)) fun _ => ih fun w hw => h w (List.mem_cons_of_mem _ hw)

theorem evalTemplate {args : List Value}
    (h : ∀ t, args = [t] → P Value fun i => Evaluation.evalTemplate (ev i) (locals i) [t]) :
    P Value fun i => Evaluation.evalTemplate (ev i) (locals i) args := by
  rcases args with _ | ⟨t, _ | ⟨w, args⟩⟩
  · exact hP.throw _
  · exact h t rfl
  · exact hP.throw _

theorem bindAll (ev : ι → Evaluator) (locals : ι → List Frame) {β : Type}
    {f : ι → Frame → Evaluating β}
    (hf : ∀ frame, Frame.IsBare frame → P β fun i => f i frame) :
    ∀ {forms : List Value} {frame : Frame}, Frame.IsBare frame →
      (∀ frame, Frame.IsBare frame → ∀ v ∈ forms, P Value fun i => ev i (frame :: locals i) v) →
        P β fun i => Evaluation.bindAll (ev i) (locals i) frame forms >>= f i
  | [], frame, hframe, _ => by
      simp only [Evaluation.bindAll, pure_bind]
      exact hf frame hframe
  | [_], frame, hframe, _ => by
      simp only [Evaluation.bindAll, pure_bind]
      exact hf frame hframe
  | name :: form :: more, frame, hframe, h => by
      cases name with
      | sym s =>
          by_cases hs : s.isQualified = true
          · simp only [Evaluation.bindAll, if_pos hs, throw_bind]
            exact hP.throw _
          · simp only [Evaluation.bindAll, if_neg hs, bind_assoc]
            refine hP.bind (h _ hframe form (by simp)) fun v => ?_
            exact bindAll ev locals hf (hframe.insert (eq_false_of_ne_true hs) v)
              fun frame hframe w hw => h frame hframe w (by simp [hw])
      | _ =>
          simp only [Evaluation.bindAll, bind_assoc, throw_bind]
          exact hP.bind (hP.written _ _) fun _ => hP.throw _

theorem evalScope {args : List Value}
    (h : ∀ bindings body, args = .list bindings :: body → ∀ frame, Frame.IsBare frame →
      ∀ v, v ∈ bindings ∨ v ∈ body → P Value fun i => ev i (frame :: locals i) v) :
    P Value fun i => Evaluation.evalScope (ev i) (locals i) args := by
  rcases args with _ | ⟨v, body⟩
  · exact hP.throw _
  cases v with
  | list bindings =>
      specialize h bindings body rfl
      apply family_ite (hP.throw _)
      refine hP.bindAll ev locals (fun frame hframe => ?_) Frame.isBare_empty
        fun frame hframe v hv => h frame hframe v (.inl hv)
      exact hP.evalSequence (fun i => frame :: locals i) fun v hv => h frame hframe v (.inr hv)
  | _ => exact hP.throw _

theorem evalChoice {args : List Value} (h : ∀ v ∈ args, P Value fun i => ev i (locals i) v) :
    P Value fun i => Evaluation.evalChoice (ev i) (locals i) args := by
  rcases args with _ | ⟨condition, _ | ⟨yes, _ | ⟨no, _ | ⟨w, args⟩⟩⟩⟩
  · exact hP.throw _
  · exact hP.throw _
  · exact hP.bind (h condition (by simp)) fun v => family_ite (h yes (by simp)) (hP.pure _)
  · exact hP.bind (h condition (by simp)) fun v => family_ite (h yes (by simp)) (h no (by simp))
  · exact hP.throw _

theorem handler {forms : List Value} {name : Symbol} (hname : name.isQualified = false) (f : Failure)
    (h : ∀ frame, Frame.IsBare frame → ∀ v ∈ forms, P Value fun i => ev i (frame :: locals i) v) :
    P (Except Failure Value) fun i => Evaluating.outcome (do
      let v ← Evaluating.caughtValue f
      Evaluation.evalSequence (ev i) (Table.empty.insert name v :: locals i) forms) := by
  apply hP.outcome
  apply hP.bind (hP.caughtValue f)
  intro v
  exact hP.evalSequence (fun i => Table.empty.insert name v :: locals i)
    (h _ (Frame.isBare_empty.insert hname v))

theorem evalAttempt {args : List Value}
    (h : ∀ inner : List Frame, (∀ frame ∈ inner, frame.IsBare) → ∀ v ∈ clauseForms args,
      P Value fun i => ev i (inner ++ locals i) v) :
    P Value fun i => Evaluation.evalAttempt (ev i) (locals i) args := by
  unfold Evaluation.evalAttempt
  cases hparts : Attempt.ofArguments args with
  | error f => exact hP.throw f
  | ok parts =>
      obtain ⟨hbody, hhandler, hcleanup⟩ := Attempt.subset_of_ofArguments hparts
      have finish (last : Except Failure Value) : P Value fun i =>
          Evaluation.evalSequence (ev i) (locals i) parts.cleanup >>= fun _ =>
            MonadExcept.ofExcept last :=
        hP.bind (hP.evalSequence locals fun v hv => h [] nofun v (hcleanup hv)) fun _ =>
          hP.ofExcept last
      simp only [ofExcept_ok, pure_bind]
      refine hP.bind (hP.outcome (hP.evalSequence locals fun v hv => h [] nofun v (hbody hv)))
        fun first => ?_
      cases first with
      | ok v => exact finish _
      | error f =>
          cases hh : parts.handler with
          | none => exact finish _
          | some handler =>
              obtain ⟨hname, hforms⟩ := hhandler handler hh
              exact hP.bind (hP.handler hname f fun frame hframe v hv =>
                h [frame] (List.forall_mem_singleton.mpr hframe) v (hforms hv)) finish

theorem evalThrow {args : List Value} (h : ∀ v ∈ args, P Value fun i => ev i (locals i) v) :
    P Value fun i => Evaluation.evalThrow (ev i) (locals i) args := by
  rcases args with _ | ⟨v, _ | ⟨w, args⟩⟩
  · exact hP.throw _
  · simp only [Evaluation.evalThrow, Evaluation.only, pure_bind]
    refine hP.bind (h v (by simp)) fun v => ?_
    cases v with
    | error id f => exact hP.throw _
    | _ => exact hP.bind (hP.written _ _) fun _ => hP.throw _
  · exact hP.throw _

theorem evalDefine_of_symbol (ev : ι → Evaluator) (locals : ι → List Frame) {args : List Value}
    (h : ∀ s form, (∀ v, form = some v → v ∈ args) →
      P Value fun i => defineSymbol (ev i) (locals i) s form) :
    P Value fun i => Evaluation.evalDefine (ev i) (locals i) args := by
  rcases args with _ | ⟨name, _ | ⟨form, _ | ⟨w, args⟩⟩⟩
  · exact hP.throw _
  · simp only [Evaluation.evalDefine, pure_bind]
    cases name with
    | sym s => exact h s none fun v hv => nomatch hv
    | _ => exact hP.bind (hP.written _ _) fun _ => hP.throw _
  · simp only [Evaluation.evalDefine, pure_bind]
    cases name with
    | sym s =>
        refine h s (some form) fun v hv => ?_
        cases hv
        simp
    | _ => exact hP.bind (hP.written _ _) fun _ => hP.throw _
  · exact hP.throw _

theorem evalDefine {args : List Value} (hchange : SpecialForm.define.ChangesBy Change)
    (h : ∀ v ∈ args, P Value fun i => ev i (locals i) v) :
    P Value fun i => Evaluation.evalDefine (ev i) (locals i) args := by
  refine hP.evalDefine_of_symbol ev locals fun s form hform => ?_
  have finish (name ns : String) (v : Value) :=
    hP.bind (hP.modify _ (hchange.2 name ns v)) fun _ => hP.pure (Value.sym ⟨name, some ns⟩)
  apply hP.bind hP.get
  intro session
  apply family_ite (hP.throw _)
  apply hP.bind (hP.modify _ (hchange.1 s.name))
  intro _
  cases form with
  | none => exact hP.bind (hP.pure _) (finish _ _)
  | some form => exact hP.bind (h form (hform form rfl)) (finish _ _)

theorem evalDefineMacro (hchange : SpecialForm.defineMacro.ChangesBy Change) (args : List Value) :
    P Value fun _ => Evaluation.evalDefineMacro args := by
  unfold Evaluation.evalDefineMacro
  split
  · apply family_ite (hP.throw _)
    apply hP.bind (hP.ofExcept _)
    intro parts
    apply hP.bind (hP.ofExcept _)
    intro parameters
    apply hP.bind hP.get
    intro session
    apply hP.bind (hP.modify _ (hchange ⟨_, parameters, parts.2, session.current⟩))
    intro _
    exact hP.pure _
  · exact hP.bind (hP.written _ _) fun _ => hP.throw _
  · exact hP.throw _

theorem namespaceName (form : String) (v : Value) :
    P String fun _ => Evaluation.namespaceName form v := by
  unfold Evaluation.namespaceName
  split
  · exact hP.pure _
  · exact family_ite (hP.throw _) (hP.pure _)
  · exact hP.bind (hP.written _ _) fun _ => hP.throw _

theorem evalEnter {args : List Value} (hchange : SpecialForm.enterNamespace.ChangesBy Change)
    (h : ∀ v ∈ args, P Value fun i => ev i (locals i) v) :
    P Value fun i => Evaluation.evalEnter (ev i) (locals i) args := by
  rcases args with _ | ⟨v, _ | ⟨w, args⟩⟩
  · exact hP.throw _
  · simp only [Evaluation.evalEnter, Evaluation.only, pure_bind]
    apply hP.bind (h v (by simp))
    intro v
    apply hP.bind (hP.namespaceName _ _)
    intro name
    apply hP.bind (hP.modify _ (hchange name))
    intro _
    exact hP.pure _
  · exact hP.throw _

theorem evalAlias {args : List Value} (hchange : SpecialForm.aliasNamespace.ChangesBy Change)
    (h : ∀ v ∈ args, P Value fun i => ev i (locals i) v) :
    P Value fun i => Evaluation.evalAlias (ev i) (locals i) args := by
  rcases args with _ | ⟨short, _ | ⟨full, _ | ⟨w, args⟩⟩⟩
  · exact hP.throw _
  · exact hP.throw _
  · apply hP.bind (h short (by simp))
    intro shortValue
    apply hP.bind (hP.namespaceName _ _)
    intro shortName
    apply hP.bind (h full (by simp))
    intro fullValue
    apply hP.bind (hP.namespaceName _ _)
    intro fullName
    apply hP.bind (hP.modify _ (hchange shortName fullName))
    intro _
    exact hP.pure _
  · exact hP.throw _

theorem evalExpansion {form : String}
    {expand : Expander → Option Namespace → Value → Expanding Value} {args : List Value}
    (h : ∀ v ∈ args, P Value fun i => ev i (locals i) v)
    (he : ∀ tree, P Value fun _ => Evaluating.expanding fun e caller => expand e caller tree) :
    P Value fun i => Evaluation.evalExpansion (ev i) (locals i) form expand args := by
  rcases args with _ | ⟨v, _ | ⟨w, args⟩⟩
  · exact hP.throw _
  · simp only [Evaluation.evalExpansion, Evaluation.only, pure_bind]
    exact hP.bind (h v (by simp)) he
  · exact hP.throw _

theorem evalSpecial {s : Symbol} {args : List Value} {form : SpecialForm}
    (hs : SpecialForm.ofSymbol? s = some form) (hchange : form.ChangesBy Change)
    (h : ∀ inner : List Frame, (∀ frame ∈ inner, frame.IsBare) → ∀ w,
      (Value.list (.sym s :: args)).Encloses w → P Value fun i => ev i (inner ++ locals i) w)
    (ht : form = .syntaxQuote → ∀ t, args = [t] →
      P Value fun i => Evaluation.evalTemplate (ev i) (locals i) [t]) :
    P Value fun i => Evaluation.evalSpecial (ev i) (locals i) args form := by
  have hargs (hform : form.IsPlain) : ∀ v ∈ args, P Value fun i => ev i (locals i) v :=
    fun v hv => h [] nofun v (Value.encloses_of_isPlain (fun _ hs' => by
      rw [hs] at hs'
      exact Option.some.inj hs' ▸ hform) hv)
  cases form with
  | quote => exact hP.only _ _
  | syntaxQuote => exact hP.evalTemplate (ht rfl)
  | unquote => exact hP.throw _
  | unquoteSplicing => exact hP.throw _
  | sequence => exact hP.evalSequence locals (hargs trivial)
  | scope =>
      refine hP.evalScope fun bindings body hbindings frame hframe v hv => ?_
      subst hbindings
      exact h [frame] (List.forall_mem_singleton.mpr hframe) v (Value.encloses_of_scope hs hv)
  | choice => exact hP.evalChoice (hargs trivial)
  | attempt =>
      refine hP.evalAttempt fun inner hinner v hv => ?_
      obtain ⟨c, hc, hv⟩ := List.mem_flatMap.mp hv
      exact h inner hinner v (Value.encloses_of_attempt hs hc hv)
  | raise => exact hP.evalThrow (hargs trivial)
  | define => exact hP.evalDefine hchange (hargs trivial)
  | defineMacro => exact hP.evalDefineMacro hchange args
  | expandOnce => exact hP.evalExpansion (hargs trivial) hP.expandOnce
  | expandAll => exact hP.evalExpansion (hargs trivial) hP.expandAll
  | enterNamespace => exact hP.evalEnter hchange (hargs trivial)
  | aliasNamespace => exact hP.evalAlias hchange (hargs trivial)

end Closed

/-- The special form that a list with the given head is. -/
def special? : Value → Option SpecialForm
  | .sym s => SpecialForm.ofSymbol? s
  | _ => none

/-- What functions do that are called inside some frames. -/
abbrev Calling := List Frame → Primitive → List Value → Evaluating Value

/-- One level of the evaluation of a tree, if functions do what `call` does: a host may define
others than the probes. The trees in it are left to `ev`, and a list whose head names a macro is left
to `again`. -/
def evalLevelBy (call : Calling) (ev again : Evaluator) (locals : List Frame) :
    Value → Evaluating Value
  | .sym s => Evaluating.lookup locals s
  | .list [] => pure (.list [])
  | .list (head :: args) =>
      match special? head with
      | some form => evalSpecial ev locals args form
      | none => do
          let session ← get
          if (session.expander.macroFor (some session.currentNamespace)
              (.list (head :: args))).isSome then
            again locals (.list (head :: args))
          else
            match ← ev locals head with
            | .fn f => do call locals f (← args.mapM (ev locals))
            | v => throw (.typing (.notCallable (← Evaluating.written v Value.quoted)))
  | v => pure v

/-- One level of the evaluation of a tree. -/
def evalLevel : Evaluator → Evaluator → Evaluator :=
  evalLevelBy fun _ => Evaluating.call

theorem evalTree_succ (n : Nat) (locals : List Frame) (tree : Value) :
    evalTree (n + 1) locals tree = evalLevel (evalTree n) (evaluate n) locals tree := by
  cases tree with
  | list items =>
      cases items with
      | nil => rfl
      | cons head args => rfl
  | _ => rfl

/-- An evaluator of calls, which gives nil for a tree whose head names no macro. -/
def guarded (again : Evaluator) : Evaluator := fun locals tree => do
  let session ← get
  if (session.expander.macroFor (some session.currentNamespace) tree).isSome then
    again locals tree
  else pure .nil

-- A level asks whether the head names a macro before it leaves a tree to another evaluator.
theorem evalLevel_guarded (ev again : Evaluator) (locals : List Frame) (tree : Value) :
    evalLevel ev (guarded again) locals tree = evalLevel ev again locals tree := by
  cases tree with
  | list items =>
      cases items with
      | nil => rfl
      | cons head args =>
          unfold evalLevel evalLevelBy
          dsimp only
          cases special? head with
          | some form => rfl
          | none =>
              funext s
              dsimp only
              have get_apply (f : Session → Evaluating Value) : (get >>= f) s = f s s := rfl
              rw [get_apply, get_apply]
              by_cases h : (s.expander.macroFor (some s.currentNamespace)
                (.list (head :: args))).isSome = true
              · rw [if_pos h, if_pos h, guarded, get_apply, if_pos h]
              · rw [if_neg h, if_neg h]
  | _ => rfl

theorem encloses_of_special?_eq_none {head : Value} {args : List Value} (h : special? head = none)
    {v : Value} (hmem : v ∈ head :: args) : (Value.list (head :: args)).Encloses v := by
  rcases List.mem_cons.mp hmem with rfl | hv
  · exact Value.encloses_head v args
  rcases Value.call?_cases (head :: args) with hcall | ⟨s, args', heq⟩
  · refine Value.encloses_of_mem_subforms (Value.mem_subforms_of_mem_parts ?_)
    rw [Value.parts, Value.positions_of_call?_eq_none hcall]
    exact List.mem_cons_of_mem _ hv
  · cases heq
    refine Value.encloses_of_isPlain (fun form hform => ?_) hv
    cases hform.symm.trans h

/-- What holds of the evaluation of all code below a tree, with perhaps some bare frames more, and of
the tree if its head names a macro, holds of the evaluation of the tree. -/
theorem Closed.evalLevelBy (hP : Closed Change P) (call : Calling) (ev again : ι → Evaluator)
    (locals : ι → List Frame) {tree : Value}
    (hchange : ∀ form, SpecialForm.heading? tree = some form → form.ChangesBy Change)
    (hlookup : ∀ s, tree = .sym s → P Value fun i => Evaluating.lookup (locals i) s)
    (h : ∀ inner : List Frame, (∀ frame ∈ inner, frame.IsBare) → ∀ w, tree.Encloses w →
      P Value fun i => ev i (inner ++ locals i) w)
    (hcall : ∀ f args, P Value fun i => call (locals i) f args)
    (ht : ∀ s t, tree = .list [.sym s, t] → SpecialForm.ofSymbol? s = some .syntaxQuote →
      P Value fun i => Evaluation.evalTemplate (ev i) (locals i) [t])
    (ha : P Value fun i => again i (locals i) tree) :
    P Value fun i => Evaluation.evalLevelBy call (ev i) (again i) (locals i) tree := by
  cases tree with
  | sym s => exact hlookup s rfl
  | list items =>
      cases items with
      | nil => exact hP.pure _
      | cons head args =>
          unfold Evaluation.evalLevelBy
          dsimp only
          cases hspecial : special? head with
          | some form =>
              cases head with
              | sym s =>
                  refine hP.evalSpecial hspecial (hchange form hspecial) h fun hform t hargs => ?_
                  subst hform hargs
                  exact ht s t rfl hspecial
              | _ => exact nomatch hspecial
          | none =>
              have hitems {v : Value} (hv : v ∈ head :: args) :
                  P Value fun i => ev i (locals i) v :=
                h [] nofun v (encloses_of_special?_eq_none hspecial hv)
              apply hP.bind hP.get
              intro session
              apply family_ite ha
              apply hP.bind (hitems List.mem_cons_self)
              intro v
              cases v with
              | fn f =>
                  exact hP.bind (hP.mapM fun v hv => hitems (List.mem_cons_of_mem _ hv)) fun _ =>
                    hcall _ _
              | _ => exact hP.bind (hP.written _ _) fun _ => hP.throw _
  | _ => exact hP.pure _

end Evaluation

end Quasiquote
