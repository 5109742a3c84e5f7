import Quasiquote.Proofs.Expansion.Once
import Quasiquote.Proofs.Template.Shape

namespace Quasiquote.Expander

open Stateful

/-- All that an expander does by itself moves along a relation. -/
structure MovesAlong (e : Expander) (R : ExpansionState → ExpansionState → Prop) : Prop where
  body {m : Macro} {bound : Table String Value} {s : ExpansionState} {r : Except Failure Value}
    {a : Allocator} : Gives (e.resolveBody m bound) s.allocator r a → R s { s with allocator := a }
  log (s : ExpansionState) (log : Log) : R s { s with log := log }

variable {e : Expander} {R : ExpansionState → ExpansionState → Prop} [IsPreorder ExpansionState R]
variable {caller : Option Namespace}

theorem moves_logExpansion (he : e.MovesAlong R) (m : Macro) (v : Value) :
    Moves R (logExpansion m v) := by
  intro s r t h
  rw [logExpansion, gives_get_bind] at h
  split at h
  · rcases gives_bind.mp h with ⟨f, h, -⟩ | ⟨text, u, h, h'⟩
    · obtain ⟨-, rfl⟩ := gives_ofExcept.mp h
      exact refl_of R t
    · obtain ⟨-, rfl⟩ := gives_ofExcept.mp h
      cases h'
      exact he.log u _
  · obtain ⟨-, rfl⟩ := gives_pure.mp h
    exact refl_of R t

theorem moves_expandCall (he : e.MovesAlong R) (m : Macro) (call : Value) (args : List Value) :
    Moves R (e.expandCall m call args) := by
  intro s r t h
  cases hb : bindings m call args with
  | error f =>
      obtain ⟨-, rfl⟩ := (gives_expandCall_error hb).mp h
      exact refl_of R t
  | ok bound =>
      rcases (gives_expandCall hb).mp h with ⟨f, a, hbody, -, rfl⟩ | ⟨v, a, hbody, hlog⟩
      · exact he.body hbody
      · exact trans_of R (he.body hbody)
          (moves_bind (moves_logExpansion he m _) (fun _ => moves_pure _) hlog)

theorem moves_expandOnce (he : e.MovesAlong R) (form : Value) :
    Moves R (e.expandOnce caller form) := by
  unfold expandOnce
  split
  · exact moves_expandCall he _ _ _
  · exact moves_throw _

theorem moves_expandOnceIfCall (he : e.MovesAlong R) (form : Value) :
    Moves R (e.expandOnceIfCall caller form) := by
  unfold expandOnceIfCall
  split
  · exact moves_expandOnce he form
  · exact moves_pure form

variable {onCall : Macro → Value → Expanding Value}

theorem moves_expandItems {items : List Value}
    (h : ∀ v ∈ items, Moves R (e.expandParts caller onCall v)) :
    Moves R (e.expandItems caller onCall items) := by
  induction items with
  | nil => exact moves_pure []
  | cons v vs ih =>
      rw [expandItems]
      exact moves_bind (h v (by simp)) fun _ =>
        moves_bind (ih fun w hw => h w (by simp [hw])) fun _ => moves_pure _

theorem moves_expandClauses {n : Nat}
    (h : ∀ v, sizeOf v < n → Moves R (e.expandParts caller onCall v)) {clauses : List Value}
    (hn : ∀ v ∈ clauses, sizeOf v < n) : Moves R (e.expandClauses caller onCall clauses) := by
  induction clauses with
  | nil =>
      rw [expandClauses]
      exact moves_pure []
  | cons v vs ih =>
      have hrest := ih fun w hw => hn w (by simp [hw])
      have hitems {items : List Value} (hi : ∀ w ∈ items, sizeOf w < n) :
          Moves R (e.expandItems caller onCall items) :=
        moves_expandItems fun w hw => h w (hi w hw)
      have hv : sizeOf v < n := hn v (by simp)
      have clause {x : Expanding Value} (hx : Moves R x) :
          Moves R (do pure ((← x) :: (← e.expandClauses caller onCall vs))) :=
        moves_bind hx fun _ => moves_bind hrest fun _ => moves_pure _
      rw [expandClauses.eq_def]
      dsimp only
      split
      · rename_i heq
        exact nomatch heq
      · rename_i s forms more heq
        cases heq
        have hforms : ∀ w ∈ forms, sizeOf w < n := fun w hw =>
          Nat.lt_trans (Value.sizeOf_lt_of_mem_list (List.mem_cons_of_mem _ hw)) hv
        split
        · split
          · exact clause (moves_pure _)
          · exact moves_bind (hitems fun w hw => hforms w (List.mem_cons_of_mem _ hw))
              fun _ => clause (moves_pure _)
        · split
          · exact moves_bind (hitems hforms) fun _ => clause (moves_pure _)
          · exact clause (h _ hv)
      · rename_i heq
        cases heq
        exact clause (h v hv)

theorem moves_expandParts (h : ∀ m call, Moves R (onCall m call)) (v : Value) :
    Moves R (e.expandParts caller onCall v) := by
  induction hn : sizeOf v using Nat.strongRecOn generalizing v with
  | ind n ih =>
      subst hn
      have parts {w : Value} (hw : sizeOf w < sizeOf v) :
          Moves R (e.expandParts caller onCall w) := ih _ hw w rfl
      rw [expandParts.eq_def]
      split
      · rename_i s args
        have hargs : ∀ w ∈ args, sizeOf w < sizeOf (Value.list (.sym s :: args)) := fun w hw =>
          Value.sizeOf_lt_of_mem_list (List.mem_cons_of_mem _ hw)
        have hitems : Moves R (e.expandItems caller onCall args) :=
          moves_expandItems fun w hw => parts (hargs w hw)
        split
        · exact h _ _
        split
        · exact moves_pure _
        split
        · split
          · rename_i bindings body
            refine moves_bind (moves_expandItems fun w hw => parts ?_) fun _ =>
              moves_bind (moves_expandItems fun w hw => parts ?_) fun _ => moves_pure _
            · exact Nat.lt_trans (Value.sizeOf_lt_of_mem_list hw) (hargs _ List.mem_cons_self)
            · exact hargs w (List.mem_cons_of_mem _ hw)
          · exact moves_bind hitems fun _ => moves_pure _
        split
        · exact moves_bind (moves_expandClauses (fun _ hw => parts hw) hargs) fun _ => moves_pure _
        · exact moves_bind hitems fun _ => moves_pure _
      · exact moves_bind (moves_expandItems fun w hw => parts (Value.sizeOf_lt_of_mem_list hw))
          fun _ => moves_pure _
      · exact moves_pure _

theorem moves_expandWithin (he : e.MovesAlong R) (n : Nat) (v : Value) :
    Moves R (e.expandWithin caller n v) := by
  induction n generalizing v with
  | zero =>
      rw [expandWithin]
      exact moves_expandParts (fun _ _ => moves_throw _) v
  | succ n ih =>
      rw [expandWithin]
      exact moves_expandParts (fun _ call => moves_bind (moves_expandOnce he call) ih) v

theorem moves_expandAll (he : e.MovesAlong R) (v : Value) : Moves R (e.expandAll caller v) :=
  moves_expandWithin he _ v

end Quasiquote.Expander
