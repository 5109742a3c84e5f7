import Quasiquote.Interpreter
import Quasiquote.Proofs.Evaluation.Definition
import Quasiquote.Proofs.Evaluation.Frames
import Quasiquote.Proofs.Session.Consistent

/-!
Evaluation keeps a session consistent, however it ends. A definition needs an argument of its own, since
other code is evaluated between its two changes of the session: the namespace stops referring the name,
and then the name becomes a global.
-/

namespace Quasiquote

open Stateful Session

instance : IsPreorder (State (StateT Session Option)) Preserves :=
  inferInstanceAs (IsPreorder Session Preserves)

namespace Evaluation

abbrev Preserving {α : Type} (x : Evaluating α) : Prop :=
  Moves (m := StateT Session Option) Preserves x

theorem preserving_pure {α : Type} (a : α) : Preserving (pure a) :=
  moves_pure (m := StateT Session Option) a

theorem preserving_bind {α β : Type} {x : Evaluating α} {f : α → Evaluating β} (hx : Preserving x)
    (hf : ∀ a, Preserving (f a)) : Preserving (x >>= f) :=
  moves_bind (m := StateT Session Option) hx hf

theorem changesBy_preserves {form : SpecialForm} (hdefine : form ≠ .define)
    (hdefinesMacro : form ≠ .defineMacro) : form.ChangesBy fun f => ∀ s, Preserves s (f s) := by
  cases form with
  | define => exact absurd rfl hdefine
  | defineMacro => exact absurd rfl hdefinesMacro
  | enterNamespace => exact fun name s => preserves_enter s name
  | aliasNamespace => exact fun short full s => preserves_addAlias s short full
  | _ => trivial

theorem preserving_expanding {α : Type} (x : Expander → Option Namespace → Expanding α) :
    Preserving (Evaluating.expanding x) := by
  intro s r t h
  obtain ⟨u, -, rfl⟩ := Evaluating.gives_expanding.mp h
  exact SameTables.preserves ⟨rfl, rfl, rfl, rfl⟩

theorem closed_preserving :
    Closed (fun f => ∀ s, Preserves s (f s)) fun (α : Type) (x : Unit → Evaluating α) =>
      Preserving (x ()) := by
  refine closed_moves (fun f hf => hf) (fun s => SameTables.preserves ⟨rfl, rfl, rfl, rfl⟩)
    (fun effect s => ?_) (fun _ => preserving_expanding _) fun _ => preserving_expanding _
  cases effect <;> exact SameTables.preserves ⟨rfl, rfl, rfl, rfl⟩

theorem preserving_fresh (lead : String) : Preserving (fresh lead : Evaluating String) := by
  intro s r t h
  cases h
  exact SameTables.preserves ⟨rfl, rfl, rfl, rfl⟩

/-- A name that the current namespace has stopped to refer is still not referred when its value is
known, and so it may become a global. -/
theorem preserves_define {s t : Session} {name : String} (h : Preserves (s.unrefer name) t)
    (v : Value) : Preserves s (t.setGlobal ⟨name, some s.current⟩ v) := by
  intro hs
  obtain ⟨hu, hunrefers⟩ := preserves_unrefer s name hs
  obtain ⟨ht, hunrefers'⟩ := h hu
  exact ⟨consistent_setGlobal ht (hunrefers' _ _ (unrefers_unrefer hs name)) v,
    fun ns other hns => hunrefers' ns other (hunrefers ns other hns)⟩

theorem preserving_defineSymbol {ev : Evaluator} {locals : List Frame} {name : Symbol}
    {form : Option Value} (hev : ∀ v, form = some v → Preserving (ev locals v)) :
    Preserving (defineSymbol ev locals name form) := by
  intro s r t h
  have define {x : Evaluating Value} (hx : Preserving x)
      (h : Gives (m := StateT Session Option) (x >>= fun v =>
        modify (fun u => u.setGlobal ⟨name.name, some s.current⟩ v) >>= fun _ =>
          pure (.sym ⟨name.name, some s.current⟩)) (s.unrefer name.name) r t) : Preserves s t := by
    rcases gives_bind.mp h with ⟨e, h, -⟩ | ⟨v, u, hv, h⟩
    · exact trans_of Preserves (preserves_unrefer s name.name) (hx h)
    · rw [Evaluating.gives_modify_bind] at h
      obtain ⟨-, rfl⟩ := gives_pure.mp h
      exact preserves_define (hx hv) v
  unfold defineSymbol at h
  rw [Evaluating.gives_get_bind] at h
  dsimp only at h
  split at h
  · rw [throw_bind] at h
    obtain ⟨-, rfl⟩ := gives_throw.mp h
    exact refl_of Preserves t
  · rw [Evaluating.gives_modify_bind] at h
    cases form with
    | none => exact define (preserving_pure Value.nil) h
    | some form => exact define (hev form rfl) h

theorem preserves_defineMacro {s : Session} {m : Macro} (hm : m.ns = s.current) :
    Preserves s ((s.unrefer m.name).defineMacro m) := by
  intro hs
  obtain ⟨hu, hunrefers⟩ := preserves_unrefer s m.name hs
  exact ⟨consistent_defineMacro hu (hm ▸ hu.current) (hm ▸ unrefers_unrefer hs m.name), hunrefers⟩

theorem preserving_evalDefineMacro (args : List Value) : Preserving (evalDefineMacro args) := by
  intro s r t h
  cases r with
  | ok v =>
      obtain ⟨m, -, hm, -, rfl⟩ := gives_evalDefineMacro_ok.mp h
      exact preserves_defineMacro hm
  | error f =>
      rw [gives_evalDefineMacro_error h]
      exact refl_of Preserves s

/-- No function changes macros, namespaces or globals. -/
def Harmless (call : Calling) : Prop :=
  ∀ locals f args, Moves (m := StateT Session Option) SameTables (call locals f args)

theorem harmless_call : Harmless fun _ => Evaluating.call := by
  intro locals f args s r t h
  unfold Evaluating.call at h
  rw [freshIdentity_eq] at h
  simp only [bind_assoc, pure_bind, Evaluating.gives_get_bind, Evaluating.gives_modify_bind] at h
  rcases gives_bind.mp h with ⟨e, h, -⟩ | ⟨result, u, hu, h⟩
  · obtain ⟨-, rfl⟩ := gives_ofExcept.mp h
    exact ⟨rfl, rfl, rfl, rfl⟩
  · obtain ⟨-, rfl⟩ := gives_ofExcept.mp hu
    rw [Evaluating.gives_modify_bind] at h
    obtain ⟨-, rfl⟩ := gives_pure.mp h
    cases result.2 <;> exact ⟨rfl, rfl, rfl, rfl⟩

theorem preserving_evalTreeBy {call : Calling} (hcall : Harmless call) {last : Evaluator}
    (hlast : ∀ locals tree, Preserving (last locals tree)) (n : Nat) (locals : List Frame)
    (tree : Value) : Preserving (evalTreeBy call last n locals tree) := by
  induction n generalizing locals tree with
  | zero => exact hlast locals tree
  | succ n ih =>
      rw [evalTreeBy]
      by_cases hdefine : SpecialForm.heading? tree = some .define
      · obtain ⟨head, args, rfl⟩ := SpecialForm.exists_head_of_heading? hdefine
        rw [evalLevelBy_head]
        exact closed_preserving.evalDefine_of_symbol (fun _ => evalTreeBy call last n)
          (fun _ => locals) fun _ _ _ => preserving_defineSymbol fun v _ => ih locals v
      by_cases hdefinesMacro : SpecialForm.heading? tree = some .defineMacro
      · obtain ⟨head, args, rfl⟩ := SpecialForm.exists_head_of_heading? hdefinesMacro
        rw [evalLevelBy_head]
        exact preserving_evalDefineMacro args
      · refine evalLevelBy_of_fresh closed_preserving preserving_fresh call
          (fun _ => evalTreeBy call last n)
          (fun _ locals tree => expanded tree >>= evalTreeBy call last n locals) (fun _ => locals)
          tree (fun form hform => changesBy_preserves ?_ ?_)
          (fun x _ => closed_preserving.lookup locals x) (fun inner _ w _ => ih _ w)
          (fun f args _ _ _ h => (hcall locals f args h).preserves)
          (preserving_bind (closed_preserving.expanded tree) fun w => ih locals w)
        · rintro rfl
          exact hdefine hform
        · rintro rfl
          exact hdefinesMacro hform

theorem preserving_evalTree (n : Nat) (locals : List Frame) (tree : Value) :
    Preserving (evalTree n locals tree) := by
  have hexhausted : Preserving (Evaluating.exhausted : Evaluating Value) := by
    intro s r t h
    exact nomatch h
  rw [← evalTreeBy_call_exhausted]
  exact preserving_evalTreeBy harmless_call (fun _ _ => hexhausted) n locals tree

end Evaluation

namespace Interpreter

open Evaluation

theorem preserving_emitDiagnostic (message : String) (node : Option Value) :
    Preserving (emitDiagnostic message node) := by
  unfold emitDiagnostic
  refine preserving_bind closed_preserving.get fun s => ?_
  split
  · exact preserving_bind (closed_preserving.ofExcept _) fun text =>
      closed_preserving.modify _ fun s => SameTables.preserves ⟨rfl, rfl, rfl, rfl⟩
  · have hnode : Preserving (node.mapM fun v => Evaluating.written v id) := by
      cases node with
      | none => exact preserving_pure none
      | some v => exact preserving_bind (closed_preserving.written v id) fun v =>
          preserving_pure (some v)
    exact preserving_bind hnode fun node =>
      closed_preserving.modify _ fun s => SameTables.preserves ⟨rfl, rfl, rfl, rfl⟩

theorem preserving_evalForm (tree : Value) : Preserving (evalForm tree) := by
  have hevaluate : Preserving (evaluate stepBound [] tree) :=
    preserving_bind (closed_preserving.expanded tree) fun _ => preserving_evalTree _ _ _
  unfold evalForm
  refine preserving_bind (closed_preserving.outcome (x := fun _ => evaluate stepBound [] tree)
    hevaluate) fun result => ?_
  cases result with
  | ok v => exact preserving_pure v
  | error f =>
      dsimp only
      split
      · exact preserving_bind (preserving_emitDiagnostic _ _) fun _ => closed_preserving.throw f
      · exact closed_preserving.throw f

theorem preserving_evalForms : ∀ trees, Preserving (evalForms trees)
  | [] => preserving_pure Value.nil
  | [tree] => preserving_evalForm tree
  | tree :: tree' :: trees => preserving_bind (preserving_evalForm tree) fun _ =>
      preserving_evalForms (tree' :: trees)

theorem preserving_evalText (text : List Char) : Preserving (evalText text) :=
  preserving_bind (closed_preserving.ofExcept _) preserving_evalForms

theorem preserving_define (name : String) (p : Probe) : Preserving (define name p) := by
  intro s r t h
  unfold define at h
  rw [freshIdentity_eq] at h
  simp only [bind_assoc, pure_bind, Evaluating.gives_get_bind, Evaluating.gives_modify_bind] at h
  obtain ⟨-, rfl⟩ := gives_pure.mp h
  have hidentified : Preserves s { s with identities := s.identities + 1 } :=
    SameTables.preserves ⟨rfl, rfl, rfl, rfl⟩
  exact trans_of Preserves hidentified (preserves_define (refl_of Preserves (Session.unrefer _ name)) _)

end Interpreter

end Quasiquote
