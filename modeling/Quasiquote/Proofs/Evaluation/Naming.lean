import Quasiquote.Proofs.Evaluation.Definition
import Quasiquote.Proofs.Macro.Resolution
import Quasiquote.Proofs.Session.Reachable

namespace Quasiquote

open Stateful

namespace Session

variable {s t : Session}

theorem find?_defineMacro (s : Session) (m : Macro) (key : String × String) :
    ((s.unrefer m.name).defineMacro m).expander.registry.find? key =
      if key = m.key then some m else s.expander.registry.find? key :=
  Registry.find?_define m key

theorem Consistent.resolve_defineMacro (hs : s.Consistent) (m : Macro) :
    ((s.unrefer m.name).defineMacro m).currentNamespace.resolve ⟨m.name, none⟩ =
      ⟨m.name, some s.current⟩ := by
  have hunrefer : (s.unrefer m.name).Consistent := (preserves_unrefer s m.name hs).1
  change (s.unrefer m.name).currentNamespace.resolve ⟨m.name, none⟩ = _
  have hrefers : (s.unrefer m.name).currentNamespace.refers.find? m.name = none := by
    rw [hunrefer.currentNamespace_eq]
    exact unrefers_unrefer hs m.name
  rw [resolve_of_find?_eq_none hrefers, hunrefer.name_currentNamespace]
  rfl

/-- A macro has been defined under the name that is written: a call headed by that name is a call of
the macro, and only the entry that it names has changed. -/
structure DefinedAsWritten (s t : Session) (name : Symbol) (m : Macro) : Prop where
  found : ∀ args,
    t.expander.macroFor (some t.currentNamespace) (.list (.sym name :: args)) = some m
  others : ∀ key, key ≠ (name.ns.getD s.current, name.name) →
    t.expander.registry.find? key = s.expander.registry.find? key

variable {name : Symbol} {m : Macro}

theorem definedAsWritten_of_here (hs : s.Consistent) (hm : m.key = (s.current, name.name))
    (hname : name.ns = none ∨ name.ns = some s.current) :
    DefinedAsWritten s ((s.unrefer m.name).defineMacro m) name m := by
  obtain ⟨hns, hmname⟩ := Prod.mk.inj hm
  rcases name with ⟨text, ns⟩
  obtain rfl : m.name = text := hmname
  have hkey : (ns.getD s.current, m.name) = m.key := by
    rcases hname with rfl | rfl <;> exact hm.symm
  have hhead : ((s.unrefer m.name).defineMacro m).currentNamespace.resolveHead ⟨m.name, ns⟩ =
      ⟨m.name, some s.current⟩ := by
    rcases hname with rfl | rfl
    · exact hs.resolve_defineMacro m
    · rfl
  constructor
  · intro args
    rw [Expander.macroFor_eq_named?, hhead]
    exact (find?_defineMacro s m (s.current, m.name)).trans (if_pos hm.symm)
  · intro key hne
    rw [find?_defineMacro, if_neg fun h => hne (h.trans hkey.symm)]

theorem macroFor_defineMacro_elsewhere {short : String} (hm : m.ns ≠ short) (text : String)
    (args : List Value) :
    ((s.unrefer m.name).defineMacro m).expander.macroFor
        (some ((s.unrefer m.name).defineMacro m).currentNamespace)
        (.list (.sym ⟨text, some short⟩ :: args)) =
      s.expander.macroFor (some s.currentNamespace) (.list (.sym ⟨text, some short⟩ :: args)) := by
  refine (find?_defineMacro s m (short, text)).trans (if_neg fun h => hm ?_)
  exact (congrArg Prod.fst h).symm

theorem definedAsWritten_iff_here (hs : s.Consistent) (hm : m.key = (s.current, name.name)) :
    DefinedAsWritten s ((s.unrefer m.name).defineMacro m) name m ↔
      name.ns = none ∨ name.ns = some s.current := by
  constructor
  · intro h
    rcases name with ⟨text, _ | short⟩
    · exact .inl rfl
    · have hfound := h.found []
      rw [Expander.macroFor_eq_named?] at hfound
      have hwritten := Registry.eq_of_named? hfound
      obtain ⟨hns, -⟩ := Prod.mk.inj hm
      exact .inr ((congrArg Symbol.ns hwritten).trans (congrArg some hns))
  · exact definedAsWritten_of_here hs hm

end Session

namespace Evaluation

variable {s t : Session} {name : Symbol} {rest : List Value} {m : Macro} {v : Value}

theorem evaluate_head_defineMacro (head : SpecialForm.defineMacro.Head) (n : Nat)
    (locals : List Frame) (args : List Value) :
    evaluate (n + 1) locals (.list (.sym head :: args)) = evalDefineMacro args :=
  (evaluate_definition head args _ locals).trans (evalTree_head head n locals args)

theorem evalTree_head_define (head : SpecialForm.define.Head) (n : Nat) (locals : List Frame)
    (args : List Value) :
    evalTree (n + 1) locals (.list (.sym head :: args)) = evalDefine (evalTree n) locals args :=
  evalTree_head head n locals args

theorem gives_evalDefine_elsewhere (ev : Evaluator) (locals : List Frame) (value : Option Value)
    {short : String} (hname : name.ns = some short) (hs : short ≠ s.current) :
    Gives (m := StateT Session Option) (evalDefine ev locals (.sym name :: value.toList)) s
      (.error (.malformed (.defElsewhere name))) s := by
  have helsewhere : (name.isQualified && name.ns != some s.current) = true := by
    simp [Symbol.isQualified, hname, hs]
  have hdefine : evalDefine ev locals (.sym name :: value.toList) =
      defineSymbol ev locals name value := by
    cases value <;> rfl
  rw [hdefine]
  unfold defineSymbol
  rw [Evaluating.gives_get_bind]
  dsimp only
  rw [if_pos helsewhere]
  exact gives_throw.mpr ⟨rfl, rfl⟩

/-- A definition of a macro that succeeds does the same with all namespaces that its name could be
written with: it registers the macro in the current namespace, and nothing else. So the macro is found
as it is written exactly if the name is bare or in the current namespace. Under a name that is written
with another namespace, which a definition of a global refuses, the call is still what it was. -/
theorem definedAsWritten_iff (hs : s.Reachable) (head : SpecialForm.defineMacro.Head) {n : Nat}
    {locals : List Frame}
    (h : Gives (m := StateT Session Option)
      (evaluate (n + 1) locals (.list (.sym head :: .sym name :: rest))) s (.ok v) t) :
    ∃ m, Defines (.sym name :: rest) m ∧ m.ns = s.current ∧
      v = .sym ⟨name.name, some s.current⟩ ∧
      (∀ key, t.expander.registry.find? key =
        if key = (s.current, name.name) then some m else s.expander.registry.find? key) ∧
      (∀ ns, Gives (m := StateT Session Option)
        (evaluate (n + 1) locals (.list (.sym head :: .sym ⟨name.name, ns⟩ :: rest))) s (.ok v) t) ∧
      (s.DefinedAsWritten t name m ↔ name.ns = none ∨ name.ns = some s.current) ∧
      ∀ short, name.ns = some short → short ≠ s.current →
        (∀ args, t.expander.macroFor (some t.currentNamespace) (.list (.sym name :: args)) =
          s.expander.macroFor (some s.currentNamespace) (.list (.sym name :: args))) ∧
        ∀ (head : SpecialForm.define.Head) (value : Option Value), Gives (m := StateT Session Option)
          (evalTree (n + 1) locals (.list (.sym head :: .sym name :: value.toList))) s
          (.error (.malformed (.defElsewhere name))) s := by
  rw [evaluate_head_defineMacro] at h
  obtain ⟨m, hD, hns, rfl, rfl⟩ := gives_evalDefineMacro_ok.mp h
  obtain ⟨name', rest', params, hargs, hname, hparts, hparameters⟩ := hD
  obtain ⟨hname', rfl⟩ := List.cons.inj hargs
  cases hname'
  have hkey : m.key = (s.current, name.name) := by rw [Macro.key, hns, hname]
  refine ⟨m, ⟨name, rest, params, rfl, hname, hparts, hparameters⟩, hns, by rw [hname],
    fun key => ?_, fun ns => ?_, Session.definedAsWritten_iff_here hs.consistent hkey,
    fun short hshort helsewhere => ⟨fun args => ?_, fun head value => ?_⟩⟩
  · rw [Session.find?_defineMacro, hkey]
  · rw [evaluate_head_defineMacro]
    exact gives_evalDefineMacro_ok.mpr
      ⟨m, ⟨_, rest, params, rfl, hname, hparts, hparameters⟩, hns, rfl, rfl⟩
  · rcases name with ⟨text, ns⟩
    obtain rfl : ns = some short := hshort
    exact Session.macroFor_defineMacro_elsewhere (fun h => helsewhere (h.symm.trans hns)) text args
  · rw [evalTree_head_define]
    exact gives_evalDefine_elsewhere _ locals value hshort helsewhere

theorem definedAsWritten_iff_passing :
    ∃ t m, Gives (m := StateT Session Option) (evaluate 1 [] passingDefinition)
        (Session.start "user" 100 8 {}) (.ok (.sym ⟨"m", some "user"⟩)) t ∧
      Session.DefinedAsWritten (Session.start "user" 100 8 {}) t ⟨"m", none⟩ m := by
  have htop : ∃ t, Gives (m := StateT Session Option) (evaluate 1 [] passingDefinition)
      (Session.start "user" 100 8 {}) (.ok (.sym ⟨"m", some "user"⟩)) t := ⟨_, rfl⟩
  obtain ⟨t, htop⟩ := htop
  let head : SpecialForm.defineMacro.Head := ⟨⟨"defmacro", none⟩, rfl⟩
  obtain ⟨m, -, -, -, -, -, hwritten, -⟩ := @definedAsWritten_iff _ _ ⟨"m", none⟩ _ _
    (.start "user" 100 8 {}) head _ _ htop
  exact ⟨t, m, htop, hwritten.mpr (.inl rfl)⟩

/-- In a new session `(defmacro lib/foo [x] x)` defines `user/foo`. -/
theorem not_definedAsWritten_elsewhere :
    ¬∀ s : Session, s.Reachable → ∀ (name : Symbol) (rest : List Value) (v : Value) (t : Session),
      (∀ short, name.ns = some short → s.currentNamespace.aliases.find? short = none) →
      Gives (m := StateT Session Option)
        (evaluate 1 [] (.list (.bare "defmacro" :: .sym name :: rest))) s (.ok v) t →
      (∃ m, Defines (.sym name :: rest) m ∧ s.DefinedAsWritten t name m) ∧
        (name.ns = none ∨ name.ns = some s.current) := by
  intro h
  obtain ⟨-, hname⟩ := h _ (.start "user" 100 8 {}) ⟨"foo", some "lib"⟩
    [.list [.bare "x"], .bare "x"] _ _ (fun short hshort => by cases hshort; rfl) rfl
  exact absurd hname (by decide)

end Evaluation

end Quasiquote
