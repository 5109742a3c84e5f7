import Quasiquote.Proofs.Evaluation.Alternation
import Quasiquote.Proofs.Evaluation.Tail
import Quasiquote.Proofs.Expansion.Fixpoint
import Quasiquote.Proofs.Macro.Registry
import Quasiquote.Proofs.Macro.Vector

namespace Quasiquote

open Stateful

namespace Evaluation

variable {args args' : List Value} {m : Macro} {s t : Session} {v : Value}

theorem eq_of_definitionParts {params body : Value}
    (h : definitionParts args = .ok (params, body)) :
    args = [params, body] ∨ ∃ description, args = [.str description, params, body] := by
  unfold definitionParts at h
  split at h
  · cases h
    exact .inr ⟨_, rfl⟩
  · exact nomatch h
  · cases h
    exact .inl rfl
  · exact nomatch h

/-- What the arguments of a definition say about the macro that it defines. -/
def Defines (args : List Value) (m : Macro) : Prop :=
  ∃ name rest params, args = .sym name :: rest ∧ m.name = name.name ∧
    definitionParts rest = .ok (params, m.body) ∧ Parameters.ofValue params = .ok m.parameters

theorem evalDefineMacro_symbol (name : Symbol) {rest : List Value} {params body : Value}
    {parameters : Parameters} (hparts : definitionParts rest = .ok (params, body))
    (hparameters : Parameters.ofValue params = .ok parameters) :
    evalDefineMacro (.sym name :: rest) = get >>= fun session =>
      modify (fun s => (s.unrefer name.name).defineMacro
        ⟨name.name, parameters, body, session.current⟩) >>= fun _ =>
      pure (.sym ⟨name.name, some session.current⟩) := by
  have hlength : ¬rest.length < 2 := by
    rcases eq_of_definitionParts hparts with rfl | ⟨_, rfl⟩ <;> simp
  simp only [evalDefineMacro, if_neg hlength]
  rw [hparts, ofExcept_ok, pure_bind]
  dsimp only
  rw [hparameters, ofExcept_ok, pure_bind]

theorem evalDefineMacro_cases (args : List Value) :
    (∃ f, evalDefineMacro args = throw f) ∨
      ∃ name rest params body parameters, args = .sym name :: rest ∧
        definitionParts rest = .ok (params, body) ∧ Parameters.ofValue params = .ok parameters := by
  unfold evalDefineMacro
  split
  · rename_i name rest
    split
    · exact .inl ⟨_, rfl⟩
    · cases hparts : definitionParts rest with
      | error f => exact .inl ⟨f, rfl⟩
      | ok parts =>
          cases hparameters : Parameters.ofValue parts.1 with
          | error f =>
              rw [ofExcept_ok, pure_bind]
              dsimp only
              rw [hparameters]
              exact .inl ⟨f, rfl⟩
          | ok parameters =>
              exact .inr ⟨name, rest, parts.1, parts.2, parameters, rfl, hparts, hparameters⟩
  · rename_i name _ _ _ _
    rw [Evaluating.written]
    cases name.written Value.quoted with
    | error f => exact .inl ⟨f, rfl⟩
    | ok text => exact .inl ⟨_, rfl⟩
  · exact .inl ⟨_, rfl⟩

theorem gives_evalDefineMacro_ok :
    Gives (m := StateT Session Option) (evalDefineMacro args) s (.ok v) t ↔
      ∃ m, Defines args m ∧ m.ns = s.current ∧ v = .sym ⟨m.name, some s.current⟩ ∧
        t = (s.unrefer m.name).defineMacro m := by
  constructor
  · intro h
    rcases evalDefineMacro_cases args with
      ⟨f, hthrow⟩ | ⟨name, rest, params, body, parameters, rfl, hparts, hparameters⟩
    · rw [hthrow] at h
      obtain ⟨hthrown, -⟩ := gives_throw.mp h
      cases hthrown
    rw [evalDefineMacro_symbol name hparts hparameters, Evaluating.gives_get_bind,
      Evaluating.gives_modify_bind] at h
    obtain ⟨hv, rfl⟩ := gives_pure.mp h
    cases hv
    exact ⟨⟨name.name, parameters, body, s.current⟩,
      ⟨name, rest, params, rfl, rfl, hparts, hparameters⟩, rfl, rfl, rfl⟩
  · rintro ⟨⟨_, parameters, body, _⟩, ⟨name, rest, params, rfl, rfl, hparts, hparameters⟩, rfl, rfl,
      rfl⟩
    rw [evalDefineMacro_symbol name hparts hparameters, Evaluating.gives_get_bind,
      Evaluating.gives_modify_bind]
    exact gives_pure.mpr ⟨rfl, rfl⟩

theorem gives_evalDefineMacro_error {f : Failure}
    (h : Gives (m := StateT Session Option) (evalDefineMacro args) s (.error f) t) : t = s := by
  rcases evalDefineMacro_cases args with
    ⟨f, hthrow⟩ | ⟨name, rest, params, body, parameters, rfl, hparts, hparameters⟩
  · rw [hthrow] at h
    exact (gives_throw.mp h).2
  · rw [evalDefineMacro_symbol name hparts hparameters, Evaluating.gives_get_bind,
      Evaluating.gives_modify_bind] at h
    exact nomatch (gives_pure.mp h).1

/-- What expansion leaves of a list of arguments: only lists among them change. -/
def Kept (args args' : List Value) : Prop :=
  List.Forall₂ (fun v w => (∀ items, v ≠ .list items) → w = v) args args'

theorem Defines.eq_of_kept (h : Defines args m) (h' : Defines args' m) (hkept : Kept args args') :
    args' = args := by
  obtain ⟨name, rest, params, rfl, -, hparts, hparameters⟩ := h
  obtain ⟨name', rest', params', rfl, -, hparts', hparameters'⟩ := h'
  obtain ⟨hname, hrest⟩ := List.forall₂_cons.mp hkept
  cases hname nofun
  obtain rfl := Parameters.ofValue_injective hparameters hparameters'
  rcases eq_of_definitionParts hparts with rfl | ⟨description, rfl⟩ <;>
    rcases eq_of_definitionParts hparts' with rfl | ⟨description', rfl⟩
  · rfl
  · simpa using hrest.length_eq
  · simpa using hrest.length_eq
  · cases (List.forall₂_cons.mp hrest).1 nofun
    rfl

theorem Kept.refl (args : List Value) : Kept args args := by
  induction args with
  | nil => exact .nil
  | cons v args ih => exact .cons (fun _ => rfl) ih

theorem Defines.name_eq_of_kept {m' : Macro} (h : Defines args m) (h' : Defines args' m')
    (hkept : Kept args args') : m'.name = m.name := by
  obtain ⟨name, rest, -, rfl, hname, -⟩ := h
  obtain ⟨name', rest', -, rfl, hname', -⟩ := h'
  cases (List.forall₂_cons.mp hkept).1 nofun
  exact hname'.trans hname.symm

section

variable {e : Expander} {caller : Option Namespace}

theorem isExpanded_of_ne_list (h : ∀ items, v ≠ .list items) : e.IsExpanded caller v := by
  refine .intro ?_ fun w hw => ?_
  · cases v with
    | list items => exact absurd rfl (h items)
    | _ => rfl
  · cases v with
    | list items => exact absurd rfl (h items)
    | _ => exact nomatch hw

theorem eq_of_isExpanded {n : Nat} {w : Value} {x y : ExpansionState} (hv : e.IsExpanded caller v)
    (h : Gives (m := StateM ExpansionState) (e.expandWithin caller n v) x (.ok w) y) : w = v :=
  Except.ok.inj (Prod.mk.inj (h.symm.trans (hv.gives_expandWithin n x))).1

theorem kept_of_gives_expandWithin {head : SpecialForm.defineMacro.Head} {n : Nat} {w : Value}
    {x y : ExpansionState} (hm : e.macroFor caller (.list (.sym head :: args)) = none)
    (h : Gives (m := StateM ExpansionState) (e.expandWithin caller n (.list (.sym head :: args))) x
      (.ok w) y) : ∃ args', w = .list (.sym head :: args') ∧ Kept args args' := by
  obtain ⟨args', hargs, rfl⟩ := (Tail.gives_expandWithin_plain head trivial hm).mp h
  refine ⟨args', rfl, (forall₂_of_gives_mapM hargs).imp fun v w ⟨x, y, hw⟩ hv => ?_⟩
  exact eq_of_isExpanded (isExpanded_of_ne_list hv) hw

end

/-- A computation succeeds, and then the macro is there. -/
def Registers (x : Evaluating Value) (s : Session) (m : Macro) : Prop :=
  ∃ v t, Gives (m := StateT Session Option) x s (.ok v) t ∧
    t.expander.registry.find? m.key = some m

theorem registers_evalTree_iff (head : SpecialForm.defineMacro.Head) (hD : Defines args m)
    (hkept : Kept args args') (hns : m.ns = s.current) (k : Nat) (locals : List Frame) :
    Registers (evalTree (k + 1) locals (.list (.sym head :: args'))) s m ↔ args' = args := by
  rw [Registers, evalTree_head]
  constructor
  · rintro ⟨v, t, h, hfound⟩
    obtain ⟨m', hD', hns', -, rfl⟩ := gives_evalDefineMacro_ok.mp h
    have hkey : m.key = m'.key := by
      rw [Macro.key, Macro.key, hns, hns', hD.name_eq_of_kept hD' hkept]
    have hdefined : some m' = some m := by
      rw [← hfound]
      exact ((Registry.find?_define m' m.key).trans (if_pos hkey)).symm
    cases hdefined
    exact hD.eq_of_kept hD' hkept
  · rintro rfl
    refine ⟨_, _, gives_evalDefineMacro_ok.mpr ⟨m, hD, hns, rfl, rfl⟩, ?_⟩
    exact (Registry.find?_define m m.key).trans (if_pos rfl)

theorem definition_eq_iff {head : Symbol} :
    Value.list (.sym head :: args') = .list (.sym head :: args) ↔ args' = args := by
  simp

theorem evaluate_definition (head : SpecialForm.defineMacro.Head) (args : List Value) (n : Nat)
    (locals : List Frame) :
    evaluate n locals (.list (.sym head :: args)) = evalTree n locals (.list (.sym head :: args)) := by
  unfold evaluate expanded
  rw [SpecialForm.heading?_head]
  exact pure_bind _ _

/-- A definition at the end of a form is expanded with the form, unless there is nothing around it. -/
theorem exists_fill_of_expanded {K : Tail} {head : SpecialForm.defineMacro.Head} {tree : Value}
    (hm : s.expander.macroFor (some s.currentNamespace) (.list (.sym head :: args)) = none)
    (hheads : ∀ head ∈ K.heads, s.expander.registry.lookup (some s.currentNamespace) head = none)
    (h : Gives (m := StateT Session Option) (expanded (K.fill (.list (.sym head :: args)))) s
      (.ok tree) t) :
    ∃ K' args', tree = Tail.fill K' (.list (.sym head :: args')) ∧ Kept args args' ∧
      (s.expander.IsExpanded (some s.currentNamespace) (.list (.sym head :: args)) →
        args' = args) := by
  by_cases hK : K = .here
  · subst hK
    rw [Tail.fill, expanded, SpecialForm.heading?_head] at h
    obtain ⟨htree, -⟩ := gives_pure.mp h
    cases htree
    exact ⟨.here, args, rfl, .refl args, fun _ => rfl⟩
  · rw [expanded, Tail.keepsArguments_fill hK, if_neg Bool.false_ne_true] at h
    obtain ⟨x, hx, -⟩ := Evaluating.gives_expanding.mp h
    obtain ⟨K', v', _, _, rfl, hv⟩ := Tail.exists_fill_of_expandWithin hheads hx
    obtain ⟨args', rfl, hkept⟩ := kept_of_gives_expandWithin hm hv
    exact ⟨K', args', rfl, hkept, fun hexpanded =>
      definition_eq_iff.mp (eq_of_isExpanded hexpanded hv)⟩

/-- A definition that succeeds on its own defines a macro of the current namespace. Expansion may leave
another definition of it, as a part of any tree, as the result of complete expansion, or at the end of
a form. That registers the same macro, where it is evaluated with the same current namespace, exactly
if it is the definition as it was; and so it is if no macro call stands at a position of the definition
that expansion visits. -/
theorem registers_iff_unchanged {head : SpecialForm.defineMacro.Head} {k : Nat}
    {locals : List Frame}
    (htop : Gives (m := StateT Session Option)
      (evaluate (k + 1) locals (.list (.sym head :: args))) s (.ok v) t)
    (hm : s.expander.macroFor (some s.currentNamespace) (.list (.sym head :: args)) = none) :
    ∃ m, m.ns = s.current ∧ t = (s.unrefer m.name).defineMacro m ∧
      (∀ n tree c r x y left,
        s.expander.Follows (some s.currentNamespace) n tree x c r y →
        c.Leaves (.list (.sym head :: args)) left →
        (s.expander.IsExpanded (some s.currentNamespace) (.list (.sym head :: args)) →
          left = .list (.sym head :: args)) ∧
        ∀ (u : Session) k inner, u.current = s.current →
          (Registers (evalTree (k + 1) inner left) u m ↔ left = .list (.sym head :: args))) ∧
      (∀ (x y : ExpansionState) left,
        Gives (m := StateM ExpansionState) (s.expander.expandAll (some s.currentNamespace)
          (.list (.sym head :: args))) x (.ok left) y →
        (s.expander.IsExpanded (some s.currentNamespace) (.list (.sym head :: args)) →
          left = .list (.sym head :: args)) ∧
        ∀ (u : Session) k inner, u.current = s.current →
          (Registers (evaluate (k + 1) inner left) u m ↔ left = .list (.sym head :: args))) ∧
      ∀ (K : Tail) n outer tree w,
        (∀ head ∈ K.heads, s.expander.registry.lookup (some s.currentNamespace) head = none) →
        Gives (m := StateT Session Option) (expanded (K.fill (.list (.sym head :: args)))) s
          (.ok tree) w →
        ∃ (K' : Tail) (left : Value), tree = K'.fill left ∧
          (s.expander.IsExpanded (some s.currentNamespace) (.list (.sym head :: args)) →
            left = .list (.sym head :: args)) ∧
          ∀ k inner u, K'.Reaches n outer w (k + 1) inner u → u.current = s.current →
            (Registers (evaluate n outer (K.fill (.list (.sym head :: args)))) s m ↔
              left = .list (.sym head :: args)) := by
  rw [evaluate_definition, evalTree_head] at htop
  obtain ⟨m, hD, hns, -, rfl⟩ := gives_evalDefineMacro_ok.mp htop
  have hcurrent {u : Session} (hu : u.current = s.current) : m.ns = u.current := hns.trans hu.symm
  refine ⟨m, hns, rfl, ?_, ?_, ?_⟩
  · intro n tree c r x y left hfollows hleaves
    obtain ⟨-, _, _, _, hleft⟩ := hfollows.gives_of_leaves hleaves
    obtain ⟨args', rfl, hkept⟩ := kept_of_gives_expandWithin hm hleft
    refine ⟨fun hexpanded => eq_of_isExpanded hexpanded hleft, fun u k inner hu => ?_⟩
    rw [definition_eq_iff, registers_evalTree_iff head hD hkept (hcurrent hu)]
  · intro x y left hleft
    obtain ⟨args', rfl, hkept⟩ := kept_of_gives_expandWithin hm hleft
    refine ⟨fun hexpanded => eq_of_isExpanded hexpanded hleft, fun u k inner hu => ?_⟩
    rw [definition_eq_iff, evaluate_definition, registers_evalTree_iff head hD hkept (hcurrent hu)]
  · intro K n outer tree w hheads htree
    obtain ⟨K', args', rfl, hkept, hexpanded⟩ := exists_fill_of_expanded hm hheads htree
    refine ⟨K', _, rfl, fun h => by rw [hexpanded h], fun k inner u hreaches hu => ?_⟩
    rw [definition_eq_iff, ← registers_evalTree_iff head hD hkept (hcurrent hu) k inner]
    unfold Registers evaluate
    simp only [Evaluating.gives_bind_of_ok htree, hreaches.gives_iff]

/-- The definition `(defmacro m [x] x)`. -/
def passingDefinition : Value :=
  .list [.bare "defmacro", .bare "m", .list [.bare "x"], .bare "x"]

theorem registers_iff_unchanged_passing :
    ∃ t, Gives (m := StateT Session Option) (evaluate 1 [] passingDefinition)
        (Session.start "user" 100 8 {}) (.ok (.sym ⟨"m", some "user"⟩)) t ∧
      (Session.start "user" 100 8 {}).expander.macroFor
        (some (Session.start "user" 100 8 {}).currentNamespace) passingDefinition = none ∧
      ∃ m, m.ns = "user" ∧
        Registers (evaluate 1 [] passingDefinition) (Session.start "user" 100 8 {}) m := by
  have htop : ∃ t, Gives (m := StateT Session Option) (evaluate 1 [] passingDefinition)
      (Session.start "user" 100 8 {}) (.ok (.sym ⟨"m", some "user"⟩)) t := ⟨_, rfl⟩
  obtain ⟨t, htop⟩ := htop
  have hm : (Session.start "user" 100 8 {}).expander.macroFor
      (some (Session.start "user" 100 8 {}).currentNamespace) passingDefinition = none := rfl
  let head : SpecialForm.defineMacro.Head := ⟨⟨"defmacro", none⟩, rfl⟩
  obtain ⟨m, hns, -, -, hexpanded, -⟩ := @registers_iff_unchanged _ _ _ _ head _ _ htop hm
  have hkept : Gives (m := StateM ExpansionState)
      ((Session.start "user" 100 8 {}).expander.expandAll
        (some (Session.start "user" 100 8 {}).currentNamespace) passingDefinition)
      ({} : ExpansionState) (.ok passingDefinition) ({} : ExpansionState) := rfl
  exact ⟨t, htop, hm, m, hns, ((hexpanded {} {} _ hkept).2 _ 0 [] rfl).mpr rfl⟩

/-- After `(defmacro x [y] y)` the parameter list of `(defmacro m [x y] x)` is a macro call, and in a
sequence the definition fails. -/
theorem not_registers_in_sequence :
    ¬∀ (text : List Char) (r : Except Failure Value) (s : Session),
      Gives (m := StateT Session Option) (Interpreter.evalText text) (Session.start "user" 100 8 {})
        r s →
      ∀ args m, Registers (evaluate 8 [] (.list (.bare "defmacro" :: args))) s m →
        Registers (evaluate 8 [] (.list [.sym .sequence, .list (.bare "defmacro" :: args)])) s m := by
  intro h
  have hread : Reader.readAll "(defmacro x [y] y)".toList = .ok
      [.list [.bare "defmacro", .bare "x", .list [.bare "y"], .bare "y"]] := rfl
  let s := ((Session.start "user" 100 8 {}).unrefer "x").defineMacro
    ⟨"x", ⟨["y"], none, by simp⟩, .bare "y", "user"⟩
  have hs : Gives (m := StateT Session Option) (Interpreter.evalText "(defmacro x [y] y)".toList)
      (Session.start "user" 100 8 {}) (.ok (.sym ⟨"x", some "user"⟩)) s := by
    unfold Interpreter.evalText
    rw [hread, ofExcept_ok, pure_bind]
    refine gives_evalForm ?_
    rw [Interpreter.stepBound, evaluate_defineMacro 999]
    rfl
  let m : Macro := ⟨"m", ⟨["x", "y"], none, by simp⟩, .bare "x", "user"⟩
  obtain ⟨v, t, ht, -⟩ := h _ _ _ hs [.bare "m", .list [.bare "x", .bare "y"], .bare "x"] m
    ⟨_, _, rfl, rfl⟩
  have herror : ∃ u, Gives (m := StateT Session Option)
      (evaluate 8 [] (.list [.sym .sequence, .list [.bare "defmacro", .bare "m",
        .list [.bare "x", .bare "y"], .bare "x"]])) s (.error (.malformed .parameterList)) u := ⟨_, rfl⟩
  obtain ⟨u, hu⟩ := herror
  obtain ⟨hresult, -⟩ := Evaluating.gives_unique hu ht
  cases hresult

end Evaluation

end Quasiquote
