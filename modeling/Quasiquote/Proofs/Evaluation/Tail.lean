import Quasiquote.Proofs.Evaluation.Congruence
import Quasiquote.Proofs.Expansion.Course

namespace Quasiquote

open Stateful

/-- The symbols that name a special form. -/
abbrev SpecialForm.Head (form : SpecialForm) := {s : Symbol // SpecialForm.ofSymbol? s = some form}

theorem SpecialForm.heading?_head {form : SpecialForm} (head : form.Head) (args : List Value) :
    SpecialForm.heading? (.list (.sym head :: args)) = some form :=
  head.2

theorem SpecialForm.exists_head_of_heading? {form : SpecialForm} {tree : Value}
    (h : SpecialForm.heading? tree = some form) :
    ∃ (head : form.Head) (args : List Value), tree = .list (.sym head :: args) := by
  unfold SpecialForm.heading? at h
  split at h
  · exact ⟨⟨_, h⟩, _, rfl⟩
  · exact nomatch h

/-- What stands around a place at the end of a form. -/
inductive Tail where
  | here
  | sequence (head : SpecialForm.sequence.Head) (before : List Value) (rest : Tail)
  | scope (head : SpecialForm.scope.Head) (bindings before : List Value) (rest : Tail)
  | whenTrue (head : SpecialForm.choice.Head) (condition : Value) (rest : Tail) (other : List Value)
  | whenFalse (head : SpecialForm.choice.Head) (condition other : Value) (rest : Tail)

namespace Tail

/-- The form with a tree at the place. -/
def fill : Tail → Value → Value
  | here, v => v
  | sequence head before rest, v => .list (.sym head :: (before ++ [rest.fill v]))
  | scope head bindings before rest, v =>
      .list (.sym head :: .list bindings :: (before ++ [rest.fill v]))
  | whenTrue head condition rest other, v =>
      .list (.sym head :: condition :: rest.fill v :: other)
  | whenFalse head condition other rest, v =>
      .list [.sym head, condition, other, rest.fill v]

/-- The names of the forms around the place. -/
def heads : Tail → List Symbol
  | here => []
  | sequence head _ rest => head :: rest.heads
  | scope head _ _ rest => head :: rest.heads
  | whenTrue head _ rest _ => head :: rest.heads
  | whenFalse head _ _ rest => head :: rest.heads

section

variable {e : Expander} {caller : Option Namespace} {n : Nat} {s t : ExpansionState}

theorem gives_expandWithin_plain {form : SpecialForm} (head : form.Head) {args : List Value}
    {w : Value} (hplain : form.IsPlain) (hm : e.registry.lookup caller head = none) :
    Gives (m := StateM ExpansionState) (e.expandWithin caller n (.list (.sym head :: args))) s
        (.ok w) t ↔
      ∃ ws, Gives (m := StateM ExpansionState) (args.mapM (e.expandWithin caller n)) s (.ok ws) t ∧
        w = .list (.sym head :: ws) := by
  have hnone : e.macroFor caller (.list (.sym head :: args)) = none := hm
  have hform : ∀ form', SpecialForm.ofSymbol? head = some form' → form'.IsPlain := by
    intro form' hform'
    cases head.2.symm.trans hform'
    exact hplain
  rw [Expander.expandWithin_of_none hnone, Value.parts, Value.positions_of_isPlain hform]
  exact gives_bind_pure_ok

theorem gives_expandWithin_scope {head : SpecialForm.scope.Head} {bindings body : List Value}
    {w : Value} (hm : e.registry.lookup caller head = none) :
    Gives (m := StateM ExpansionState)
        (e.expandWithin caller n (.list (.sym head :: .list bindings :: body))) s (.ok w) t ↔
      ∃ us u ws, Gives (m := StateM ExpansionState) (bindings.mapM (e.expandWithin caller n)) s
          (.ok us) u ∧
        Gives (m := StateM ExpansionState) (body.mapM (e.expandWithin caller n)) u (.ok ws) t ∧
        w = .list (.sym head :: .list us :: ws) := by
  have hlet : Symbol.isCore head "let" = true :=
    SpecialForm.isCore_of_ofSymbol? (by simp [SpecialForm.names]) head.2
  have hnone : e.macroFor caller (.list (.sym head :: .list bindings :: body)) = none := hm
  rw [Expander.expandWithin_of_none hnone, Value.parts, Value.positions_binding hlet,
    gives_bind_pure_ok]
  constructor
  · rintro ⟨vs, hvs, rfl⟩
    obtain ⟨us, u, ws, hus, hws, rfl⟩ := gives_mapM_append_ok.mp hvs
    have hlength := (forall₂_of_gives_mapM hus).length_eq
    exact ⟨us, u, ws, hus, hws, by simp [hlength]⟩
  · rintro ⟨us, u, ws, hus, hws, rfl⟩
    have hlength := (forall₂_of_gives_mapM hus).length_eq
    exact ⟨us ++ ws, gives_mapM_append_ok.mpr ⟨us, u, ws, hus, hws, rfl⟩,
      by simp [hlength]⟩

/-- The expansion of a form has a place at its end again, at which the expansion of what stands there
stands. -/
theorem exists_fill_of_expandWithin {K : Tail} {v w : Value}
    (hheads : ∀ head ∈ K.heads, e.registry.lookup caller head = none)
    (h : Gives (m := StateM ExpansionState) (e.expandWithin caller n (K.fill v)) s (.ok w) t) :
    ∃ K' v' s' t', w = fill K' v' ∧
      Gives (m := StateM ExpansionState) (e.expandWithin caller n v) s' (.ok v') t' := by
  induction K generalizing w s t with
  | here => exact ⟨here, w, s, t, rfl, h⟩
  | sequence head before rest ih =>
      obtain ⟨hhead, hrest⟩ := List.forall_mem_cons.mp hheads
      obtain ⟨ws, hws, rfl⟩ := (gives_expandWithin_plain head trivial hhead).mp h
      obtain ⟨us, u, x, -, hx, rfl⟩ := gives_mapM_concat_ok.mp hws
      obtain ⟨K', v', s', t', rfl, hv⟩ := ih hrest hx
      exact ⟨sequence head us K', v', s', t', rfl, hv⟩
  | scope head bindings before rest ih =>
      obtain ⟨hhead, hrest⟩ := List.forall_mem_cons.mp hheads
      obtain ⟨bs, _, ws, -, hws, rfl⟩ := (gives_expandWithin_scope hhead).mp h
      obtain ⟨us, u, x, -, hx, rfl⟩ := gives_mapM_concat_ok.mp hws
      obtain ⟨K', v', s', t', rfl, hv⟩ := ih hrest hx
      exact ⟨scope head bs us K', v', s', t', rfl, hv⟩
  | whenTrue head condition rest other ih =>
      obtain ⟨hhead, hrest⟩ := List.forall_mem_cons.mp hheads
      obtain ⟨ws, hws, rfl⟩ := (gives_expandWithin_plain head trivial hhead).mp h
      obtain ⟨c, _, _, -, hargs, rfl⟩ := gives_mapM_cons_ok.mp hws
      obtain ⟨x, _, others, hx, -, rfl⟩ := gives_mapM_cons_ok.mp hargs
      obtain ⟨K', v', s', t', rfl, hv⟩ := ih hrest hx
      exact ⟨whenTrue head c K' others, v', s', t', rfl, hv⟩
  | whenFalse head condition other rest ih =>
      obtain ⟨hhead, hrest⟩ := List.forall_mem_cons.mp hheads
      obtain ⟨ws, hws, rfl⟩ := (gives_expandWithin_plain head trivial hhead).mp h
      obtain ⟨c, _, _, -, hargs, rfl⟩ := gives_mapM_cons_ok.mp hws
      obtain ⟨o, _, _, -, hlast, rfl⟩ := gives_mapM_cons_ok.mp hargs
      obtain ⟨x, _, _, hx, hnil, rfl⟩ := gives_mapM_cons_ok.mp hlast
      cases (gives_pure.mp hnil).1
      obtain ⟨K', v', s', t', rfl, hv⟩ := ih hrest hx
      exact ⟨whenFalse head c o K', v', s', t', rfl, hv⟩

end

theorem keepsArguments_fill {K : Tail} (hK : K ≠ .here) (v : Value) :
    (SpecialForm.heading? (K.fill v)).any SpecialForm.keepsArguments = false := by
  cases K with
  | here => exact absurd rfl hK
  | sequence head => rw [fill, SpecialForm.heading?_head]; rfl
  | scope head => rw [fill, SpecialForm.heading?_head]; rfl
  | whenTrue head => rw [fill, SpecialForm.heading?_head]; rfl
  | whenFalse head => rw [fill, SpecialForm.heading?_head]; rfl

end Tail

namespace Evaluation

variable {ev : Evaluator} {locals : List Frame} {s t u : Session} {r : Except Failure Value}

theorem gives_evalSequence_append {before vs : List Value} (last : Value)
    (h : Gives (m := StateT Session Option) (before.mapM (ev locals)) s (.ok vs) u) :
    Gives (m := StateT Session Option) (evalSequence ev locals (before ++ [last])) s r t ↔
      Gives (m := StateT Session Option) (ev locals last) u r t := by
  induction before generalizing s vs with
  | nil =>
      obtain ⟨-, rfl⟩ := gives_pure.mp h
      rfl
  | cons form before ih =>
      obtain ⟨v, w, vs, hform, hbefore, rfl⟩ := gives_mapM_cons_ok.mp h
      have heq : evalSequence ev locals ((form :: before) ++ [last]) =
          ev locals form >>= fun _ => evalSequence ev locals (before ++ [last]) := by
        cases before <;> rfl
      rw [heq, Evaluating.gives_bind_of_ok hform, ih hbefore]

theorem evalLevelBy_head {form : SpecialForm} (head : form.Head) (call : Calling)
    (ev again : Evaluator) (locals : List Frame) (args : List Value) :
    evalLevelBy call ev again locals (.list (.sym head :: args)) =
      evalSpecial ev locals args form := by
  rw [evalLevelBy, special?, head.2]

theorem evalTree_head {form : SpecialForm} (head : form.Head) (n : Nat) (locals : List Frame)
    (args : List Value) :
    evalTree (n + 1) locals (.list (.sym head :: args)) =
      evalSpecial (evalTree n) locals args form := by
  rw [evalTree_succ, evalLevel, evalLevelBy_head]

theorem evalScope_even {bindings : List Value} (heven : bindings.length % 2 = 0)
    (body : List Value) :
    evalScope ev locals (.list bindings :: body) =
      bindAll ev locals Table.empty bindings >>= fun frame =>
        evalSequence ev (frame :: locals) body := by
  simp [evalScope, heven]

end Evaluation

namespace Tail

open Evaluation

/-- The evaluation of a form comes to the place at its end: with some levels of nesting left, inside
some frames, and in some session. -/
inductive Reaches : Tail → Nat → List Frame → Session → Nat → List Frame → Session → Prop
  | here {n : Nat} {locals : List Frame} {s : Session} : Reaches .here n locals s n locals s
  | sequence {head : SpecialForm.sequence.Head} {before : List Value} {rest : Tail} {n k : Nat}
      {locals inner : List Frame} {s t u : Session} {vs : List Value} :
      Gives (m := StateT Session Option) (before.mapM (evalTree n locals)) s (.ok vs) t →
      Reaches rest n locals t k inner u →
      Reaches (.sequence head before rest) (n + 1) locals s k inner u
  | scope {head : SpecialForm.scope.Head} {bindings before : List Value} {rest : Tail} {n k : Nat}
      {locals inner : List Frame} {s t u w : Session} {frame : Frame} {vs : List Value} :
      bindings.length % 2 = 0 →
      Gives (m := StateT Session Option) (bindAll (evalTree n) locals Table.empty bindings) s
        (.ok frame) t →
      Gives (m := StateT Session Option) (before.mapM (evalTree n (frame :: locals))) t (.ok vs) u →
      Reaches rest n (frame :: locals) u k inner w →
      Reaches (.scope head bindings before rest) (n + 1) locals s k inner w
  | whenTrue {head : SpecialForm.choice.Head} {condition : Value} {rest : Tail} {other : List Value}
      {n k : Nat} {locals inner : List Frame} {s t u : Session} {v : Value} :
      other.length ≤ 1 →
      Gives (m := StateT Session Option) (evalTree n locals condition) s (.ok v) t →
      v.isTrue = true → Reaches rest n locals t k inner u →
      Reaches (.whenTrue head condition rest other) (n + 1) locals s k inner u
  | whenFalse {head : SpecialForm.choice.Head} {condition other : Value} {rest : Tail}
      {n k : Nat} {locals inner : List Frame} {s t u : Session} {v : Value} :
      Gives (m := StateT Session Option) (evalTree n locals condition) s (.ok v) t →
      v.isTrue = false → Reaches rest n locals t k inner u →
      Reaches (.whenFalse head condition other rest) (n + 1) locals s k inner u

theorem Reaches.gives_iff {K : Tail} {n k : Nat} {locals inner : List Frame} {s u : Session}
    (h : K.Reaches n locals s k inner u) (v : Value) {r : Except Failure Value} {t : Session} :
    Gives (m := StateT Session Option) (evalTree n locals (K.fill v)) s r t ↔
      Gives (m := StateT Session Option) (evalTree k inner v) u r t := by
  induction h with
  | here => rfl
  | sequence hbefore _ ih =>
      rw [fill, evalTree_head, ← ih]
      exact gives_evalSequence_append _ hbefore
  | scope heven hbindings hbefore _ ih =>
      rw [fill, evalTree_head, ← ih, ← gives_evalSequence_append _ hbefore]
      change Gives (m := StateT Session Option) (evalScope _ _ (.list _ :: _)) _ r t ↔ _
      rw [evalScope_even heven, Evaluating.gives_bind_of_ok hbindings]
  | @whenTrue _ _ _ other _ _ _ _ _ _ _ _ hother hcondition htrue _ ih =>
      rw [fill, evalTree_head, ← ih]
      rcases other with _ | ⟨no, _ | ⟨_, _⟩⟩
      · unfold evalSpecial evalChoice
        rw [Evaluating.gives_bind_of_ok hcondition, if_pos htrue]
      · unfold evalSpecial evalChoice
        rw [Evaluating.gives_bind_of_ok hcondition, if_pos htrue]
      · simp at hother
  | whenFalse hcondition hfalse _ ih =>
      rw [fill, evalTree_head, ← ih]
      unfold evalSpecial evalChoice
      rw [Evaluating.gives_bind_of_ok hcondition, if_neg (by simp [hfalse])]

end Tail

end Quasiquote
