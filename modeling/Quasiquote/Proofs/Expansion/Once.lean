import Quasiquote.Expander
import Quasiquote.Proofs.Outcome

namespace Quasiquote

theorem Log.traced_record (log : Log) (event : LogEvent) :
    (log.record event).traced = log.traced := by
  unfold record
  split <;> rfl

/-- Induction on how often a failure has failed again. -/
theorem Failure.againInduction {P : Failure → Prop} (again : ∀ id f, P f → P (.again id f))
    (other : ∀ f, (∀ id g, f ≠ .again id g) → P f) (f : Failure) : P f := by
  cases f with
  | again id f => exact again id f (againInduction again other f)
  | _ => exact other _ nofun

namespace Registry

theorem mem_of_lookup {r : Registry} {caller : Option Namespace} {s : Symbol} {m : Macro}
    (h : r.lookup caller s = some m) : m ∈ r.macros ∧ m.name = s.name := by
  have found {ns name : String} (h : r.find? (ns, name) = some m) :
      m ∈ r.macros ∧ m.name = name := by
    have hkey := List.find?_some h
    rw [decide_eq_true_eq] at hkey
    exact ⟨List.mem_of_find?_eq_some h, congrArg Prod.snd hkey⟩
  unfold lookup at h
  split at h
  · exact found h
  · have hname := List.find?_some h
    rw [decide_eq_true_eq] at hname
    exact ⟨List.mem_reverse.mp (List.mem_of_find?_eq_some h), hname⟩
  · exact found h

theorem lookup_eq_none {r : Registry} {caller : Option Namespace} {s : Symbol}
    (h : ∀ m ∈ r.macros, m.name ≠ s.name) : r.lookup caller s = none := by
  cases hfound : r.lookup caller s with
  | none => rfl
  | some m =>
      obtain ⟨hm, hname⟩ := mem_of_lookup hfound
      exact absurd hname (h m hm)

end Registry

namespace Expander

open Stateful

variable {s t : ExpansionState}

theorem gives_allocating {α : Type} {work : ExceptT Failure (StateM Allocator) α}
    {r : Except Failure α} :
    Gives (m := StateM ExpansionState) (allocating work) s r t ↔
      ∃ a, Gives (m := StateM Allocator) work s.allocator r a ∧ t = { s with allocator := a } := by
  change ((work s.allocator).1, { s with allocator := (work s.allocator).2 }) = (r, t) ↔
    ∃ a, work s.allocator = (r, a) ∧ _
  constructor
  · intro h
    obtain ⟨rfl, rfl⟩ := Prod.mk.inj h
    exact ⟨_, rfl, rfl⟩
  · rintro ⟨a, h, rfl⟩
    rw [h]

theorem gives_adapt {m : Type → Type} [Monad m] [LawfulMonad m] [Stateful m] {α : Type}
    {f : Failure → Failure} {x : ExceptT Failure m α} {u w : State m} {r : Except Failure α} :
    Gives (ExceptT.adapt f x) u r w ↔ ∃ r', Gives x u r' w ∧ r = r'.mapError f := by
  change Yields (Except.mapError f <$> x.run) u r w ↔ _
  rw [← bind_pure_comp, yields_bind]
  constructor
  · rintro ⟨r', w', hx, h⟩
    obtain ⟨rfl, rfl⟩ := yields_pure.mp h
    exact ⟨r', hx, rfl⟩
  · rintro ⟨r', hx, rfl⟩
    exact ⟨r', w, hx, yields_pure.mpr ⟨rfl, rfl⟩⟩

/-- What happens after the body of a macro has become a tree. -/
def finished (m : Macro) (tree : Value) : Expanding Value := do
  logExpansion m tree.sequenced
  pure tree.sequenced

variable {e : Expander} {caller : Option Namespace} {m : Macro} {call : Value} {args : List Value}
variable {r : Except Failure Value}

theorem gives_expandCall_error {f : Failure} (h : bindings m call args = .error f) :
    Gives (e.expandCall m call args) s r t ↔ r = .error f ∧ t = s := by
  unfold expandCall
  rw [h]
  exact gives_throw

theorem expandCall_eq {bound : Table String Value} (h : bindings m call args = .ok bound) :
    e.expandCall m call args =
      allocating (ExceptT.adapt (Failure.locate m.name call) (e.resolveBody m bound)) >>=
        finished m := by
  unfold expandCall
  rw [h]
  exact pure_bind _ _

theorem gives_expandCall {bound : Table String Value} (h : bindings m call args = .ok bound) :
    Gives (e.expandCall m call args) s r t ↔
      (∃ f a, Gives (e.resolveBody m bound) s.allocator (.error f) a ∧
        r = .error (f.locate m.name call) ∧ t = { s with allocator := a }) ∨
      ∃ v a, Gives (e.resolveBody m bound) s.allocator (.ok v) a ∧
        Gives (finished m v) { s with allocator := a } r t := by
  rw [expandCall_eq h, gives_bind]
  constructor
  · rintro (⟨f, hf, rfl⟩ | ⟨v, u, hv, hr⟩)
    · obtain ⟨a, hadapt, rfl⟩ := gives_allocating.mp hf
      obtain ⟨r', hbody, hr⟩ := gives_adapt.mp hadapt
      cases r' with
      | ok v => exact nomatch hr
      | error f' =>
          cases hr
          exact .inl ⟨f', a, hbody, rfl, rfl⟩
    · obtain ⟨a, hadapt, rfl⟩ := gives_allocating.mp hv
      obtain ⟨r', hbody, hr'⟩ := gives_adapt.mp hadapt
      cases r' with
      | ok v' =>
          cases hr'
          exact .inr ⟨v, a, hbody, hr⟩
      | error f => exact nomatch hr'
  · rintro (⟨f, a, hf, rfl, rfl⟩ | ⟨v, a, hv, hr⟩)
    · exact .inl ⟨_, gives_allocating.mpr ⟨a, gives_adapt.mpr ⟨_, hf, rfl⟩, rfl⟩, rfl⟩
    · exact .inr ⟨v, _, gives_allocating.mpr ⟨a, gives_adapt.mpr ⟨_, hv, rfl⟩, rfl⟩, hr⟩

theorem gives_finished_ok {v tree : Value} (h : Gives (finished m v) s (.ok tree) t) :
    tree = v.sequenced := by
  obtain ⟨-, u, -, h⟩ := gives_bind_ok.mp h
  exact Except.ok.inj (gives_pure.mp h).1

theorem gives_get_bind {β : Type} {f : ExpansionState → Expanding β} {r : Except Failure β} :
    Gives (get >>= f) s r t ↔ Gives (f s) s r t :=
  Iff.rfl

theorem gives_finished {v : Value} (h : s.log.traced = true → v.sequenced.isWritable = true) :
    Gives (finished m v) s (.ok v.sequenced)
      { s with log := s.log.record (.expanded m.name v.sequenced.quoted) } := by
  refine gives_bind_ok.mpr ⟨(), _, ?_, gives_pure.mpr ⟨rfl, rfl⟩⟩
  rw [logExpansion, gives_get_bind]
  by_cases ht : s.log.traced = true
  · rw [if_pos ht, Value.written, if_pos (h ht)]
    rfl
  · rw [if_neg ht, Log.record, if_pos (by simp [LogEvent.isTrace, ht])]
    rfl

theorem exists_gives_finished (m : Macro) (v : Value) (s : ExpansionState) :
    ∃ t : ExpansionState, (t.allocator = s.allocator ∧ t.log.traced = s.log.traced) ∧
      Gives (finished m v) s
        (if s.log.traced && !v.sequenced.isWritable then .error .unwritable
          else .ok v.sequenced) t := by
  by_cases h : s.log.traced = true → v.sequenced.isWritable = true
  · refine ⟨{ s with log := s.log.record (.expanded m.name v.sequenced.quoted) },
      ⟨rfl, Log.traced_record _ _⟩, ?_⟩
    rw [if_neg (by simpa using h)]
    exact gives_finished h
  · obtain ⟨ht, hw⟩ := Classical.not_imp.mp h
    refine ⟨s, ⟨rfl, rfl⟩, ?_⟩
    simp only [ht, hw, Bool.not_false, Bool.and_true, if_true]
    rw [finished, logExpansion, gives_bind]
    refine .inl ⟨_, ?_, rfl⟩
    rw [gives_get_bind, if_pos ht, Value.written, if_neg hw]
    rfl

theorem kind_locate (name : String) (call : Value) (f : Failure) :
    (f.locate name call).kind = f.kind := by
  induction f using Failure.againInduction with
  | again id f ih => rw [Failure.locate, Failure.kind, Failure.kind, ih]
  | other f hf =>
      cases f with
      | again id f => exact absurd rfl (hf id f)
      | _ => rfl

theorem exists_of_macroFor {form : Value} (h : e.macroFor caller form = some m) :
    ∃ s args, form = .list (.sym s :: args) ∧ e.registry.lookup caller s = some m ∧
      e.expandOnce caller form = e.expandCall m form args := by
  unfold macroFor at h
  split at h
  · rename_i s args
    refine ⟨s, args, rfl, h, ?_⟩
    simp only [expandOnce, macroFor, h]
  · exact nomatch h

theorem gives_expandOnce_ok {form tree : Value} (hm : e.macroFor caller form = some m)
    (h : Gives (e.expandOnce caller form) s (.ok tree) t) :
    ∃ name args bound v a, form = .list (.sym name :: args) ∧
      bindings m form args = .ok bound ∧ Gives (e.resolveBody m bound) s.allocator (.ok v) a ∧
        tree = v.sequenced := by
  obtain ⟨name, args, rfl, -, hcall⟩ := exists_of_macroFor hm
  rw [hcall] at h
  cases hb : bindings m (.list (.sym name :: args)) args with
  | error f => exact nomatch ((gives_expandCall_error hb).mp h).1
  | ok bound =>
      rcases (gives_expandCall hb).mp h with ⟨f, a, -, hr, -⟩ | ⟨v, a, hv, hr⟩
      · exact nomatch hr
      · exact ⟨name, args, bound, v, a, rfl, hb, hv, gives_finished_ok hr⟩

theorem bindings_eq_ok_iff {bound : Table String Value} :
    bindings m call args = .ok bound ↔
      m.parameters.accepts args.length = true ∧ m.parameters.bind args = bound := by
  unfold bindings
  dsimp only
  split
  · rename_i h
    rw [and_iff_right h]
    exact ⟨Except.ok.inj, congrArg _⟩
  · rename_i h
    constructor
    · intro h
      exact nomatch h
    · rintro ⟨h', -⟩
      exact absurd h' h

/-- An expander that knows one macro. -/
def only (m : Macro) : Expander where
  registry := Registry.empty.define m
  maxDepth := 100
  maxNesting := 4

end Expander

end Quasiquote
