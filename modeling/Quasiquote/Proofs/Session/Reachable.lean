import Quasiquote.Proofs.Session.Preservation

namespace Quasiquote.Session

open Stateful Evaluation

/-- The sessions that calls of a host lead to, whatever the results are. -/
inductive Reachable : Session → Prop
  | start (name : String) (depth nesting : Int) (allocator : Allocator) :
      Reachable (start name depth nesting allocator)
  /-- A host may do other things in between, as long as they are not about tables. -/
  | host {s t : Session} : Reachable s → SameTables s t → Reachable t
  | evalText {s t : Session} {r : Except Failure Value} (text : List Char) : Reachable s →
      Gives (m := StateT Session Option) (Interpreter.evalText text) s r t → Reachable t
  | evalForm {s t : Session} {r : Except Failure Value} (tree : Value) : Reachable s →
      Gives (m := StateT Session Option) (Interpreter.evalForm tree) s r t → Reachable t
  /-- An evaluation with any functions of the host, which fails if it goes too deep. -/
  | evaluation {s t : Session} {r : Except Failure Value} {call : Calling} (tooDeep : Failure)
      (n : Nat) (tree : Value) : Harmless call → Reachable s →
      Gives (m := StateT Session Option)
        (expanded tree >>= evalTreeBy call (fun _ _ => throw tooDeep) n []) s r t → Reachable t
  | expandOnce {s t : Session} {r : Except Failure Value} (tree : Value) : Reachable s →
      Gives (m := StateT Session Option) (Interpreter.expandOnce tree) s r t → Reachable t
  | expandAll {s t : Session} {r : Except Failure Value} (tree : Value) : Reachable s →
      Gives (m := StateT Session Option) (Interpreter.expandAll tree) s r t → Reachable t
  | define {s t : Session} {r : Except Failure Symbol} (name : String) (p : Probe) : Reachable s →
      Gives (m := StateT Session Option) (Interpreter.define name p) s r t → Reachable t

theorem Reachable.consistent {s : Session} (h : s.Reachable) : s.Consistent := by
  induction h with
  | start name depth nesting allocator => exact consistent_start name depth nesting allocator
  | host _ hsame ih => exact (hsame.preserves ih).1
  | evalText text _ h ih => exact (Interpreter.preserving_evalText text h ih).1
  | evalForm tree _ h ih => exact (Interpreter.preserving_evalForm tree h ih).1
  | evaluation tooDeep n tree hcall _ h ih =>
      have hlast (locals : List Frame) (tree : Value) :
          Preserving (throw tooDeep : Evaluating Value) := closed_preserving.throw tooDeep
      exact (preserving_bind (closed_preserving.expanded tree)
        (preserving_evalTreeBy hcall hlast n []) h ih).1
  | expandOnce tree _ h ih => exact (closed_preserving.expandOnce tree h ih).1
  | expandAll tree _ h ih => exact (closed_preserving.expandAll tree h ih).1
  | define name p _ h ih => exact (Interpreter.preserving_define name p h ih).1

theorem resolve_of_find?_eq_none {ns : Namespace} {name : String}
    (h : ns.refers.find? name = none) : ns.resolve ⟨name, none⟩ = ⟨name, some ns.name⟩ := by
  change Symbol.mk name (some ((ns.refers.find? name).getD ns.name)) = _
  rw [h, Option.getD_none]

/-- In every session that a host can come to, the root frame binds qualified names only, and the frames
inside it that evaluation makes bind bare names only: those that code is evaluated in, those of a scope
and those of a handler. Each macro is found under its namespace and name, has distinct parameters, and
belongs to a known namespace. A namespace other than the core namespace does not refer a name that it
has a global or a macro for, so that the bare name stands for its own. -/
theorem tables_of_reachable {s : Session} (h : s.Reachable) :
    ((∀ name v, s.globals.find? name = some v → name.isQualified = true) ∧
      (∀ call last n tree, evalBareBy call last n [] tree = evalTreeBy call last n [] tree) ∧
      (∀ ev locals bindings t frame u, Gives (m := StateT Session Option)
        (bindAll ev locals Table.empty bindings) t (.ok frame) u → frame.IsBare) ∧
      ∀ args parts name forms v, Attempt.ofArguments args = .ok parts →
        parts.handler = some (name, forms) → Frame.IsBare (Table.empty.insert name v)) ∧
    (∀ key m, s.expander.registry.find? key = some m →
      key = (m.ns, m.name) ∧ m.parameters.names.Nodup ∧
        s.expander.namespaces.find? m.ns ≠ none) ∧
    ∀ name ns, s.expander.namespaces.find? name = some ns → name ≠ coreNamespace →
      ∀ own, s.Owns name own →
        ns.refers.find? own = none ∧ ns.resolve ⟨own, none⟩ = ⟨own, some name⟩ := by
  have hs := h.consistent
  refine ⟨⟨hs.qualified, ?_, ?_, ?_⟩, ?_, ?_⟩
  · exact fun call last n tree => evalBareBy_eq last n (List.forall_mem_nil _) tree
  · exact fun ev locals bindings t frame u hframe => isBare_of_gives_bindAll hframe
  · exact fun args parts name forms v hparts hhandler => isBare_of_ofArguments hparts hhandler v
  · intro key m hm
    obtain ⟨hmem, hkey⟩ := Registry.find?_eq_some_iff.mp hm
    exact ⟨hkey.symm, m.parameters.nodup, hs.known m hmem⟩
  · intro name ns hns hne own hown
    have hrefers : ns.refers.find? own = none := by
      have hunrefers := hs.unrefers name own hne hown
      rwa [Unrefers, namespaceOf, hns] at hunrefers
    have hresolve := resolve_of_find?_eq_none hrefers
    rw [hs.named name ns hns] at hresolve
    exact ⟨hrefers, hresolve⟩

/-- A session in which a host has defined a function under a name of the core namespace. -/
def shadowingSession : Session :=
  (({ start "user" 100 4 {} with identities := 1 }.unrefer "first").setGlobal ⟨"first", some "user"⟩
    (.fn (.probe .echo 0)))

theorem tables_of_reachable_shadowing :
    shadowingSession.Reachable ∧ shadowingSession.Owns "user" "first" ∧
      shadowingSession.currentNamespace.resolve ⟨"first", none⟩ = ⟨"first", some "user"⟩ := by
  have hreachable : shadowingSession.Reachable :=
    .define "first" .echo (.start "user" 100 4 {}) (r := .ok ⟨"first", some "user"⟩) rfl
  have howns : shadowingSession.Owns "user" "first" := .inl nofun
  exact ⟨hreachable, howns,
    ((tables_of_reachable hreachable).2.2 "user" _ rfl (by decide) "first" howns).2⟩

end Quasiquote.Session
