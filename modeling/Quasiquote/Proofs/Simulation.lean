import Quasiquote.Proofs.Outcome
import Quasiquote.Value.Quoted

/-!
Simulations. Two computations run side by side from related states; as long as the first stays within
limits, they end in related states, with failures of one kind or with values of which the second is
the image of the first. What is done step by step in this way is so as a whole.
-/

namespace Quasiquote

open Stateful

/-- Two outcomes correspond along a function: both are failures of one kind, or the second is the
image of the first. -/
inductive Corresponds {α β : Type} (f : α → β) : Except Failure α → Except Failure β → Prop
  | ok (a : α) : Corresponds f (.ok a) (.ok (f a))
  | error {e e' : Failure} : e'.kind = e.kind → Corresponds f (.error e) (.error e')

section

variable {α β γ δ : Type} {f : α → β}

theorem Corresponds.refl (r : Except Failure α) : Corresponds id r r := by
  cases r with
  | ok a => exact .ok a
  | error e => exact .error rfl

theorem Corresponds.map {r : Except Failure α} {r' : Except Failure β} (h : Corresponds f r r')
    {g : α → γ} {g' : β → δ} {h' : γ → δ} (hg : ∀ a, g' (f a) = h' (g a)) :
    Corresponds h' (r.map g) (r'.map g') := by
  cases h with
  | ok a =>
      change Corresponds h' (.ok (g a)) (.ok (g' (f a)))
      rw [hg]
      exact .ok _
  | error hkind => exact .error hkind

theorem Corresponds.bind {r : Except Failure α} {r' : Except Failure β} (h : Corresponds f r r')
    {k : α → Except Failure γ} {k' : β → Except Failure δ} {g : γ → δ}
    (hk : ∀ a, Corresponds g (k a) (k' (f a))) : Corresponds g (r >>= k) (r' >>= k') := by
  cases h with
  | ok a => exact hk a
  | error hkind => exact .error hkind

theorem Corresponds.mapM {k : α → Except Failure γ} {k' : β → Except Failure δ} {g : γ → δ}
    (hk : ∀ a, Corresponds g (k a) (k' (f a))) (as : List α) :
    Corresponds (List.map g) (as.mapM k) ((as.map f).mapM k') := by
  induction as with
  | nil => exact .ok []
  | cons a as ih =>
      rw [List.map_cons, List.mapM_cons, List.mapM_cons]
      exact (hk a).bind fun c => ih.bind fun cs => .ok (c :: cs)

end

/-- A relation between the states of two runs, and the limits within which the first has to stay. -/
structure Simulation (m : Type → Type) [Monad m] [Stateful m] where
  Related : State m → State m → Prop
  Fits : State m → Prop

namespace Simulation

variable {m : Type → Type} [Monad m] [Stateful m] {α β γ δ : Type}

/-- The second computation does what the first one does. -/
structure Carries (S : Simulation m) (f : α → β) (x : ExceptT Failure m α)
    (y : ExceptT Failure m β) : Prop where
  /-- A run within the limits has begun within them. -/
  moves : Moves (fun s t => S.Fits t → S.Fits s) x
  follows {s s' t : State m} {r : Except Failure α} : S.Related s s' → Gives x s r t → S.Fits t →
    ∃ r' t', Gives y s' r' t' ∧ Corresponds f r r' ∧ S.Related t t'

instance (S : Simulation m) : IsPreorder (State m) fun s t => S.Fits t → S.Fits s where
  refl _ h := h
  trans _ _ _ h h' hfits := h (h' hfits)

variable {S : Simulation m} {f : α → β}

theorem carries_ofExcept {r : Except Failure α} {r' : Except Failure β} (h : Corresponds f r r') :
    S.Carries f (MonadExcept.ofExcept r) (MonadExcept.ofExcept r') where
  moves := moves_ofExcept r
  follows hs hx _ := by
    obtain ⟨rfl, rfl⟩ := gives_ofExcept.mp hx
    exact ⟨r', _, gives_ofExcept.mpr ⟨rfl, rfl⟩, h, hs⟩

theorem carries_pure (a : α) : S.Carries f (pure a) (pure (f a)) :=
  carries_ofExcept (.ok a)

theorem carries_throw {e e' : Failure} (h : e'.kind = e.kind) : S.Carries f (throw e) (throw e') :=
  carries_ofExcept (.error h)

theorem carries_bind {x : ExceptT Failure m α} {y : ExceptT Failure m β}
    {k : α → ExceptT Failure m γ} {k' : β → ExceptT Failure m δ} {g : γ → δ}
    (hx : S.Carries f x y) (hk : ∀ a, S.Carries g (k a) (k' (f a))) :
    S.Carries g (x >>= k) (y >>= k') where
  moves := moves_bind hx.moves fun a => (hk a).moves
  follows hs h hfits := by
    rcases gives_bind.mp h with ⟨e, hfirst, rfl⟩ | ⟨a, u, hfirst, hrest⟩
    · obtain ⟨r', t', hy, hr, ht⟩ := hx.follows hs hfirst hfits
      cases hr with
      | error hkind => exact ⟨_, t', gives_bind.mpr (.inl ⟨_, hy, rfl⟩), .error hkind, ht⟩
    · obtain ⟨r', u', hy, hr, hu⟩ := hx.follows hs hfirst ((hk a).moves hrest hfits)
      cases hr
      obtain ⟨r', t', hy', hr', ht⟩ := (hk a).follows hu hrest hfits
      exact ⟨r', t', gives_bind.mpr (.inr ⟨_, u', hy, hy'⟩), hr', ht⟩

theorem carries_bind_pure {x : ExceptT Failure m α} {y : ExceptT Failure m β} {g : α → γ}
    {g' : β → δ} {h : γ → δ} (hx : S.Carries f x y) (hg : ∀ a, g' (f a) = h (g a)) :
    S.Carries h (x >>= fun a => pure (g a)) (y >>= fun b => pure (g' b)) := by
  refine carries_bind hx fun a => ?_
  rw [hg]
  exact carries_pure _

theorem carries_mapM {k : α → ExceptT Failure m γ} {k' : β → ExceptT Failure m δ} {g : γ → δ}
    [LawfulMonad m] {as : List α} (hk : ∀ a ∈ as, S.Carries g (k a) (k' (f a))) :
    S.Carries (List.map g) (as.mapM k) ((as.map f).mapM k') := by
  induction as with
  | nil => exact carries_pure []
  | cons a as ih =>
      rw [List.map_cons, List.mapM_cons, List.mapM_cons]
      refine carries_bind (hk a (by simp)) fun c => ?_
      exact carries_bind_pure (ih fun b hb => hk b (by simp [hb])) fun cs => rfl

end Simulation

end Quasiquote
