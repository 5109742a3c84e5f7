import Quasiquote.Proofs.Freshness.Ledger

namespace Quasiquote

open Stateful

/-- A state that holds the allocator from which fresh names are taken. -/
class HasAllocator (m : Type → Type) [Monad m] [MonadFresh m] [Stateful m] where
  allocatorOf : State m → Allocator
  gives_issue {lead : String} {r : Except Failure String} {s t : State m} :
    Gives (fresh lead) s r t →
      Gives (m := StateM Allocator) (Allocator.issue lead) (allocatorOf s) r (allocatorOf t)

open HasAllocator

instance : HasAllocator (StateM Allocator) where
  allocatorOf a := a
  gives_issue h := h

instance : HasAllocator (StateT Session Option) where
  allocatorOf s := s.expansion.allocator
  gives_issue h := by
    cases h
    rfl

namespace Ledger

/-- From one state of a context to another, in a run in which all other contexts keep their
renamings, and in which none is opened. -/
def InContext {m : Type → Type} [Monad m] [MonadFresh m] [Stateful m] [HasAllocator m]
    (p q : RenameTable × State m) : Prop :=
  ∀ before after,
    Run ⟨allocatorOf p.2, before ++ p.1 :: after⟩ ⟨allocatorOf q.2, before ++ q.1 :: after⟩

variable {m : Type → Type} [Monad m] [MonadFresh m] [Stateful m] [HasAllocator m]

instance : IsPreorder (RenameTable × State m) InContext where
  refl _ _ _ := .refl
  trans _ _ _ h h' before after := (h before after).trans (h' before after)

theorem run_renames {s r : Symbol} (hs : s.isMarked = true) {table : RenameTable} {a : Allocator}
    (hnone : table.find? s.name = none) (hwritable : a.isWritable = true)
    (hr : r = .numbered (s.unmarkedName ++ "__") a.next) (before after : List RenameTable) :
    Run ⟨a, before ++ table :: after⟩
      ⟨⟨a.next + 1⟩, before ++ table.insert s.name r :: after⟩ := by
  refine .single (.renames (i := before.length) (s := s) (r := r) (renames_iff.mpr ⟨hs, table, ?_,
    .inr ⟨hnone, hwritable, hr, ?_⟩⟩))
  · simp
  · simp

theorem inContext_of_fresh {lead : String} {r : Except Failure String}
    {p q : RenameTable × State m} (h : Gives (fresh lead) p.2 r q.2) (hq : q.1 = p.1) :
    InContext p q := by
  intro before after
  rw [(Allocator.gives_issue.mp (gives_issue h)).2, hq]
  exact .single (.generates ⟨allocatorOf p.2, before ++ p.1 :: after⟩ lead)

theorem site_movesAlong_inContext {site : Site m}
    (hns : ∀ s ns t, Yields site.ns s ns t → allocatorOf t = allocatorOf s) :
    site.MovesAlong InContext where
  renamed {s} hs p r q h := by
    rcases gives_renamed.mp h with
      ⟨_, -, -, rfl⟩ | ⟨hnone, ⟨f, hfresh, -, hq⟩ | ⟨name, t, hfresh, -, rfl⟩⟩
    · exact refl_of InContext q
    · exact inContext_of_fresh hfresh hq
    · obtain ⟨hwritable, rfl, ht⟩ := Allocator.gives_issue_ok.mp (gives_issue hfresh)
      intro before after
      rw [ht]
      exact run_renames hs hnone hwritable rfl before after
  ns p r q h before after := by
    obtain ⟨ns, hyields, -, hq⟩ := Building.gives_perform.mp h
    rw [hns _ _ _ hyields, hq]
  fresh lead p r q h := by
    obtain ⟨hfresh, hq⟩ := Building.gives_performFailing.mp h
    exact inContext_of_fresh hfresh hq

end Ledger

end Quasiquote
