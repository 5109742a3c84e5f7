import Mathlib.Data.List.Forall2
import Mathlib.Order.Defs.Unbundled
import Quasiquote.Evaluation.Basic

namespace Quasiquote

theorem bind_eq_ok {α β : Type} {x : Except Failure α} {f : α → Except Failure β} {b : β} :
    x >>= f = .ok b ↔ ∃ a, x = .ok a ∧ f a = .ok b := by
  cases x with
  | ok a =>
      constructor
      · intro h
        exact ⟨a, rfl, h⟩
      · rintro ⟨_, h, hf⟩
        cases h
        exact hf
  | error e =>
      constructor
      · intro h
        exact nomatch h
      · rintro ⟨_, h, -⟩
        exact nomatch h

theorem bind_eq_error {α β : Type} {x : Except Failure α} {f : α → Except Failure β}
    {e : Failure} :
    x >>= f = .error e ↔ x = .error e ∨ ∃ a, x = .ok a ∧ f a = .error e := by
  cases x with
  | ok a =>
      constructor
      · intro h
        exact .inr ⟨a, rfl, h⟩
      · rintro (h | ⟨_, h, hf⟩)
        · exact nomatch h
        · cases h
          exact hf
  | error e' =>
      constructor
      · intro h
        cases h
        exact .inl rfl
      · rintro (h | ⟨_, h, -⟩)
        · cases h
          rfl
        · exact nomatch h

theorem bind_pure_eq_error {α β : Type} {x : Except Failure α} {k : α → β} {e : Failure} :
    (x >>= fun a => pure (k a)) = .error e ↔ x = .error e := by
  rw [bind_eq_error]
  refine or_iff_left ?_
  rintro ⟨_, -, h⟩
  exact nomatch h

theorem map_eq_ok {α β : Type} {f : α → β} {x : Except Failure α} {b : β}
    (h : x.map f = .ok b) : ∃ a, x = .ok a ∧ f a = b := by
  cases x with
  | error failure => cases h
  | ok a =>
      cases h
      exact ⟨a, rfl, rfl⟩

theorem map_eq_error {α β : Type} {f : α → β} {x : Except Failure α} {e : Failure}
    (h : x.map f = .error e) : x = .error e := by
  cases x with
  | error failure =>
      cases h
      rfl
  | ok a => exact nomatch h

theorem exists_mem_of_mapM_eq_ok {α β : Type} {f : α → Except Failure β} {as : List α}
    {bs : List β} (h : as.mapM f = .ok bs) {b : β} (hb : b ∈ bs) : ∃ a ∈ as, f a = .ok b := by
  induction as generalizing bs with
  | nil =>
      cases h
      exact nomatch hb
  | cons a as ih =>
      rw [List.mapM_cons] at h
      obtain ⟨c, hc, h⟩ := bind_eq_ok.mp h
      obtain ⟨cs, hcs, h⟩ := bind_eq_ok.mp h
      cases h
      rcases List.mem_cons.mp hb with rfl | hb
      · exact ⟨a, by simp, hc⟩
      · obtain ⟨a', ha', h⟩ := ih hcs hb
        exact ⟨a', by simp [ha'], h⟩

theorem exists_mem_of_mapM_eq_error {α β : Type} {f : α → Except Failure β} {as : List α}
    {e : Failure} (h : as.mapM f = .error e) : ∃ a ∈ as, f a = .error e := by
  induction as with
  | nil => exact nomatch h
  | cons a as ih =>
      rw [List.mapM_cons] at h
      rcases bind_eq_error.mp h with ha | ⟨_, -, h⟩
      · exact ⟨a, by simp, ha⟩
      · obtain ⟨b, hb, hfb⟩ := ih (bind_pure_eq_error.mp h)
        exact ⟨b, by simp [hb], hfb⟩

/-- A monad whose computations change a state. A computation has at most one outcome, and perhaps
none. -/
class Stateful (m : Type → Type) [Monad m] where
  State : Type
  Yields {α : Type} : m α → State → α → State → Prop
  yields_pure {α : Type} {a b : α} {s t : State} : Yields (pure a) s b t ↔ b = a ∧ t = s
  yields_bind {α β : Type} {x : m α} {f : α → m β} {s u : State} {b : β} :
    Yields (x >>= f) s b u ↔ ∃ a t, Yields x s a t ∧ Yields (f a) t b u

open Stateful

instance {σ : Type} : Stateful (StateM σ) where
  State := σ
  Yields x s a t := x s = (a, t)
  yields_pure {α a b s t} := by
    constructor
    · intro h
      exact ⟨(Prod.mk.inj h).1.symm, (Prod.mk.inj h).2.symm⟩
    · rintro ⟨rfl, rfl⟩
      rfl
  yields_bind {α β x f s u b} := by
    constructor
    · intro h
      exact ⟨(x s).1, (x s).2, rfl, h⟩
    · rintro ⟨a, t, hx, hf⟩
      change f (x s).1 (x s).2 = _
      rw [hx]
      exact hf

instance {σ : Type} : Stateful (StateT σ Option) where
  State := σ
  Yields x s a t := x s = some (a, t)
  yields_pure {α a b s t} := by
    constructor
    · intro h
      have h := Prod.mk.inj (Option.some.inj h)
      exact ⟨h.1.symm, h.2.symm⟩
    · rintro ⟨rfl, rfl⟩
      rfl
  yields_bind {α β x f s u b} := by
    change (x s).bind (fun p => f p.1 p.2) = some (b, u) ↔ _
    rw [Option.bind_eq_some_iff]
    simp only [Prod.exists]

instance {m : Type → Type} [Monad m] [Stateful m] : Stateful (StateT RenameTable m) where
  State := RenameTable × State m
  Yields x s a t := Yields (x s.1) s.2 (a, t.1) t.2
  yields_pure {α a b s t} := by
    change Yields (pure (a, s.1)) s.2 (b, t.1) t.2 ↔ _
    rw [yields_pure, Prod.mk.injEq, Prod.ext_iff, and_assoc]
  yields_bind {α β x f s u b} := by
    change Yields (x s.1 >>= fun p => f p.1 p.2) s.2 (b, u.1) u.2 ↔ _
    rw [yields_bind]
    constructor
    · rintro ⟨⟨a, table⟩, t, hx, hf⟩
      exact ⟨a, (table, t), hx, hf⟩
    · rintro ⟨a, t, hx, hf⟩
      exact ⟨(a, t.1), t.2, hx, hf⟩

/-- A computation that may fail ends with a result in a state. -/
def Gives {m : Type → Type} [Monad m] [Stateful m] {α : Type} (x : ExceptT Failure m α)
    (s : State m) (r : Except Failure α) (t : State m) : Prop :=
  Yields x.run s r t

section

variable {m : Type → Type} [Monad m] [Stateful m] {α β : Type} {s t : State m}

@[simp] theorem gives_pure {a : α} {r : Except Failure α} :
    Gives (pure a : ExceptT Failure m α) s r t ↔ r = .ok a ∧ t = s :=
  yields_pure

@[simp] theorem gives_throw {f : Failure} {r : Except Failure α} :
    Gives (throw f : ExceptT Failure m α) s r t ↔ r = .error f ∧ t = s :=
  yields_pure

@[simp] theorem gives_ofExcept {x r : Except Failure α} :
    Gives (MonadExcept.ofExcept x : ExceptT Failure m α) s r t ↔ r = x ∧ t = s := by
  cases x with
  | ok a => exact gives_pure
  | error f => exact gives_throw

theorem gives_bind {x : ExceptT Failure m α} {f : α → ExceptT Failure m β} {r : Except Failure β} :
    Gives (x >>= f) s r t ↔
      (∃ e, Gives x s (.error e) t ∧ r = .error e) ∨
        ∃ a u, Gives x s (.ok a) u ∧ Gives (f a) u r t := by
  change Yields (x.run >>= ExceptT.bindCont f) s r t ↔ _
  rw [yields_bind]
  constructor
  · rintro ⟨result, u, hx, hf⟩
    cases result with
    | error e =>
        obtain ⟨rfl, rfl⟩ := yields_pure.mp hf
        exact .inl ⟨e, hx, rfl⟩
    | ok a => exact .inr ⟨a, u, hx, hf⟩
  · rintro (⟨e, hx, rfl⟩ | ⟨a, u, hx, hf⟩)
    · exact ⟨.error e, t, hx, yields_pure.mpr ⟨rfl, rfl⟩⟩
    · exact ⟨.ok a, u, hx, hf⟩

theorem gives_bind_ok {x : ExceptT Failure m α} {f : α → ExceptT Failure m β} {b : β} :
    Gives (x >>= f) s (.ok b) t ↔ ∃ a u, Gives x s (.ok a) u ∧ Gives (f a) u (.ok b) t := by
  simp [gives_bind]

theorem gives_bind_pure {x : ExceptT Failure m α} {g : α → β} {r : Except Failure β} :
    Gives (x >>= fun a => pure (g a)) s r t ↔ ∃ r', Gives x s r' t ∧ r = r'.map g := by
  rw [gives_bind]
  constructor
  · rintro (⟨e, hx, rfl⟩ | ⟨a, u, hx, h⟩)
    · exact ⟨.error e, hx, rfl⟩
    · obtain ⟨rfl, rfl⟩ := gives_pure.mp h
      exact ⟨.ok a, hx, rfl⟩
  · rintro ⟨r' | a, hx, rfl⟩
    · exact .inl ⟨_, hx, rfl⟩
    · exact .inr ⟨a, t, hx, gives_pure.mpr ⟨rfl, rfl⟩⟩

theorem gives_bind_pure_ok {x : ExceptT Failure m α} {g : α → β} {b : β} :
    Gives (x >>= fun a => pure (g a)) s (.ok b) t ↔ ∃ a, Gives x s (.ok a) t ∧ b = g a := by
  rw [gives_bind_pure]
  constructor
  · rintro ⟨e | a, hx, h⟩
    · exact nomatch h
    · exact ⟨a, hx, Except.ok.inj h⟩
  · rintro ⟨a, hx, rfl⟩
    exact ⟨.ok a, hx, rfl⟩

theorem gives_bind_pure_error {x : ExceptT Failure m α} {g : α → β} {f : Failure} :
    Gives (x >>= fun a => pure (g a)) s (.error f) t ↔ Gives x s (.error f) t := by
  rw [gives_bind_pure]
  constructor
  · rintro ⟨f' | a, hx, h⟩
    · cases h
      exact hx
    · exact nomatch h
  · intro hx
    exact ⟨.error f, hx, rfl⟩

theorem gives_bind_ofExcept {x : ExceptT Failure m α} {g : α → Except Failure β}
    {r : Except Failure β} :
    Gives (x >>= fun a => MonadExcept.ofExcept (g a)) s r t ↔ ∃ r', Gives x s r' t ∧ r = r' >>= g := by
  rw [gives_bind]
  constructor
  · rintro (⟨e, hx, rfl⟩ | ⟨a, u, hx, h⟩)
    · exact ⟨.error e, hx, rfl⟩
    · obtain ⟨rfl, rfl⟩ := gives_ofExcept.mp h
      exact ⟨.ok a, hx, rfl⟩
  · rintro ⟨e | a, hx, rfl⟩
    · exact .inl ⟨e, hx, rfl⟩
    · exact .inr ⟨a, t, hx, gives_ofExcept.mpr ⟨rfl, rfl⟩⟩

theorem gives_mapM_nil [LawfulMonad m] {f : α → ExceptT Failure m β} :
    Gives (([] : List α).mapM f) s (.ok []) s := by
  rw [List.mapM_nil]
  exact gives_pure.mpr ⟨rfl, rfl⟩

theorem gives_mapM_cons_ok [LawfulMonad m] {f : α → ExceptT Failure m β} {a : α} {as : List α}
    {cs : List β} :
    Gives ((a :: as).mapM f) s (.ok cs) t ↔
      ∃ b u bs, Gives (f a) s (.ok b) u ∧ Gives (as.mapM f) u (.ok bs) t ∧ cs = b :: bs := by
  rw [List.mapM_cons, gives_bind_ok]
  refine exists_congr fun b => exists_congr fun u => ?_
  rw [gives_bind_pure_ok, ← exists_and_left]

theorem gives_mapM_cons [LawfulMonad m] {f : α → ExceptT Failure m β} {a : α} {as : List α} {b : β}
    {bs : List β} {u : State m} (ha : Gives (f a) s (.ok b) u)
    (has : Gives (as.mapM f) u (.ok bs) t) : Gives ((a :: as).mapM f) s (.ok (b :: bs)) t :=
  gives_mapM_cons_ok.mpr ⟨b, u, bs, ha, has, rfl⟩

theorem gives_mapM_append_ok [LawfulMonad m] {f : α → ExceptT Failure m β} {as as' : List α}
    {cs : List β} :
    Gives ((as ++ as').mapM f) s (.ok cs) t ↔
      ∃ bs u bs', Gives (as.mapM f) s (.ok bs) u ∧ Gives (as'.mapM f) u (.ok bs') t ∧
        cs = bs ++ bs' := by
  rw [List.mapM_append, gives_bind_ok]
  refine exists_congr fun bs => exists_congr fun u => ?_
  rw [gives_bind_pure_ok, ← exists_and_left]

theorem gives_mapM_concat_ok [LawfulMonad m] {f : α → ExceptT Failure m β} {as : List α} {a : α}
    {cs : List β} :
    Gives ((as ++ [a]).mapM f) s (.ok cs) t ↔
      ∃ bs u b, Gives (as.mapM f) s (.ok bs) u ∧ Gives (f a) u (.ok b) t ∧ cs = bs ++ [b] := by
  rw [gives_mapM_append_ok]
  constructor
  · rintro ⟨bs, u, bs', has, ha, rfl⟩
    obtain ⟨b, _, _, hb, hnil, rfl⟩ := gives_mapM_cons_ok.mp ha
    rw [List.mapM_nil] at hnil
    obtain ⟨h, rfl⟩ := gives_pure.mp hnil
    cases h
    exact ⟨bs, u, b, has, hb, rfl⟩
  · rintro ⟨bs, u, b, has, hb, rfl⟩
    exact ⟨bs, u, [b], has, gives_mapM_cons hb gives_mapM_nil, rfl⟩

theorem forall₂_of_gives_mapM [LawfulMonad m] {f : α → ExceptT Failure m β} {as : List α}
    {bs : List β} (h : Gives (as.mapM f) s (.ok bs) t) :
    List.Forall₂ (fun a b => ∃ s t, Gives (f a) s (.ok b) t) as bs := by
  induction as generalizing s bs with
  | nil =>
      obtain ⟨hnil, -⟩ := gives_pure.mp h
      cases hnil
      exact .nil
  | cons a as ih =>
      obtain ⟨b, u, bs, ha, has, rfl⟩ := gives_mapM_cons_ok.mp h
      exact .cons ⟨s, u, ha⟩ (ih has)

theorem exists_gives_mapM [LawfulMonad m] {f : α → ExceptT Failure m β} {as : List α}
    (h : ∀ a ∈ as, ∃ b, Gives (f a) s (.ok b) s) :
    ∃ bs, Gives (as.mapM f) s (.ok bs) s ∧
      List.Forall₂ (fun a b => Gives (f a) s (.ok b) s) as bs := by
  induction as with
  | nil => exact ⟨[], gives_mapM_nil, .nil⟩
  | cons a as ih =>
      obtain ⟨b, hb⟩ := h a (by simp)
      obtain ⟨bs, hbs, hall⟩ := ih fun a ha => h a (by simp [ha])
      exact ⟨b :: bs, gives_mapM_cons hb hbs, .cons hb hall⟩

/-- Whatever its result, a computation leaves a state to which the state before is related. -/
def Moves (R : State m → State m → Prop) (x : ExceptT Failure m α) : Prop :=
  ∀ ⦃s r t⦄, Gives x s r t → R s t

variable {R : State m → State m → Prop} [IsPreorder (State m) R]

theorem moves_pure (a : α) : Moves R (pure a : ExceptT Failure m α) := by
  intro s r t h
  obtain ⟨-, rfl⟩ := gives_pure.mp h
  exact refl_of R t

theorem moves_throw (f : Failure) : Moves R (throw f : ExceptT Failure m α) := by
  intro s r t h
  obtain ⟨-, rfl⟩ := gives_throw.mp h
  exact refl_of R t

theorem moves_ofExcept (x : Except Failure α) :
    Moves R (MonadExcept.ofExcept x : ExceptT Failure m α) := by
  intro s r t h
  obtain ⟨-, rfl⟩ := gives_ofExcept.mp h
  exact refl_of R t

theorem moves_bind {x : ExceptT Failure m α} {f : α → ExceptT Failure m β} (hx : Moves R x)
    (hf : ∀ a, Moves R (f a)) : Moves R (x >>= f) := by
  intro s r t h
  rcases gives_bind.mp h with ⟨e, h, -⟩ | ⟨a, u, h, h'⟩
  · exact hx h
  · exact trans_of R (hx h) (hf a h')

end

namespace Building

variable {m : Type → Type} [Monad m] [Stateful m] {α β : Type}
variable {p q : RenameTable × State m}

theorem yields_lift {x : m α} {a : α} :
    Yields (StateT.lift x : StateT RenameTable m α) p a q ↔ Yields x p.2 a q.2 ∧ q.1 = p.1 := by
  change Yields (x >>= fun a => pure (a, p.1)) p.2 (a, q.1) q.2 ↔ _
  rw [yields_bind]
  constructor
  · rintro ⟨b, u, hx, hp⟩
    obtain ⟨h, ht⟩ := yields_pure.mp hp
    obtain ⟨rfl, hq⟩ := Prod.mk.inj h
    exact ⟨ht ▸ hx, hq⟩
  · rintro ⟨hx, hq⟩
    exact ⟨a, q.2, hx, yields_pure.mpr ⟨Prod.ext rfl hq, rfl⟩⟩

@[simp] theorem gives_perform {x : m α} {r : Except Failure α} :
    Gives (perform x) p r q ↔ ∃ a, Yields x p.2 a q.2 ∧ r = .ok a ∧ q.1 = p.1 := by
  change Yields ((StateT.lift x : StateT RenameTable m α) >>= fun a => pure (Except.ok a))
    p r q ↔ _
  rw [yields_bind]
  constructor
  · rintro ⟨a, u, hx, hp⟩
    obtain ⟨rfl, rfl⟩ := yields_pure.mp hp
    obtain ⟨hx', hq⟩ := yields_lift.mp hx
    exact ⟨a, hx', rfl, hq⟩
  · rintro ⟨a, hx, rfl, hq⟩
    exact ⟨a, q, yields_lift.mpr ⟨hx, hq⟩, yields_pure.mpr ⟨rfl, rfl⟩⟩

@[simp] theorem gives_performFailing {x : ExceptT Failure m α} {r : Except Failure α} :
    Gives (performFailing x) p r q ↔ Gives x p.2 r q.2 ∧ q.1 = p.1 :=
  yields_lift

@[simp] theorem gives_get {r : Except Failure RenameTable} :
    Gives (get : Building m RenameTable) p r q ↔ r = .ok p.1 ∧ q = p := by
  change Yields ((pure (p.1, p.1) : m (RenameTable × RenameTable)) >>= fun a =>
    pure (Except.ok a.1, a.2)) p.2 (r, q.1) q.2 ↔ _
  simp [yields_bind, yields_pure, and_assoc, Prod.ext_iff]

@[simp] theorem gives_modify {f : RenameTable → RenameTable} {r : Except Failure PUnit} :
    Gives (modify f : Building m PUnit) p r q ↔ r = .ok ⟨⟩ ∧ q = (f p.1, p.2) := by
  change Yields ((pure (PUnit.unit, f p.1) : m (PUnit × RenameTable)) >>= fun a =>
    pure (Except.ok a.1, a.2)) p.2 (r, q.1) q.2 ↔ _
  rw [yields_bind]
  constructor
  · rintro ⟨a, t, ha, hr⟩
    obtain ⟨rfl, rfl⟩ := yields_pure.mp ha
    obtain ⟨h, ht⟩ := yields_pure.mp hr
    obtain ⟨hr, hq⟩ := Prod.mk.inj h
    exact ⟨hr, Prod.ext hq ht⟩
  · rintro ⟨rfl, rfl⟩
    exact ⟨_, _, yields_pure.mpr ⟨rfl, rfl⟩, yields_pure.mpr ⟨rfl, rfl⟩⟩

theorem gives_perform_bind {x : m α} {f : α → Building m β} {r : Except Failure β} :
    Gives (perform x >>= f) p r q ↔ ∃ a t, Yields x p.2 a t ∧ Gives (f a) (p.1, t) r q := by
  rw [gives_bind]
  constructor
  · rintro (⟨e, h, -⟩ | ⟨a, u, h, hf⟩)
    · obtain ⟨a, -, h, -⟩ := gives_perform.mp h
      exact nomatch h
    · obtain ⟨b, hx, h, hu⟩ := gives_perform.mp h
      cases h
      refine ⟨a, u.2, hx, ?_⟩
      rwa [← hu]
  · rintro ⟨a, t, hx, hf⟩
    exact .inr ⟨a, (p.1, t), gives_perform.mpr ⟨a, hx, rfl, rfl⟩, hf⟩

theorem gives_performFailing_bind {x : ExceptT Failure m α} {f : α → Building m β}
    {r : Except Failure β} :
    Gives (performFailing x >>= f) p r q ↔
      (∃ e, Gives x p.2 (.error e) q.2 ∧ r = .error e ∧ q.1 = p.1) ∨
        ∃ a t, Gives x p.2 (.ok a) t ∧ Gives (f a) (p.1, t) r q := by
  rw [gives_bind]
  refine or_congr ?_ ⟨?_, ?_⟩
  · exact exists_congr fun e => by
      rw [gives_performFailing, and_assoc, and_comm (a := q.1 = p.1)]
  · rintro ⟨a, ⟨table, t⟩, hx, hf⟩
    obtain ⟨hx, rfl⟩ := gives_performFailing.mp hx
    exact ⟨a, t, hx, hf⟩
  · rintro ⟨a, t, hx, hf⟩
    exact ⟨a, (p.1, t), gives_performFailing.mpr ⟨hx, rfl⟩, hf⟩

theorem gives_get_bind {f : RenameTable → Building m β} {r : Except Failure β} :
    Gives (get >>= f) p r q ↔ Gives (f p.1) p r q := by
  rw [gives_bind]
  constructor
  · rintro (⟨e, h, -⟩ | ⟨a, u, h, hf⟩)
    · exact nomatch (gives_get.mp h).1
    · obtain ⟨h, rfl⟩ := gives_get.mp h
      cases h
      exact hf
  · intro hf
    exact .inr ⟨p.1, p, gives_get.mpr ⟨rfl, rfl⟩, hf⟩

theorem gives_modify_bind {g : RenameTable → RenameTable} {f : PUnit → Building m β}
    {r : Except Failure β} :
    Gives (modify g >>= f) p r q ↔ Gives (f ⟨⟩) (g p.1, p.2) r q := by
  rw [gives_bind]
  constructor
  · rintro (⟨e, h, -⟩ | ⟨a, u, h, hf⟩)
    · exact nomatch (gives_modify.mp h).1
    · obtain ⟨-, rfl⟩ := gives_modify.mp h
      exact hf
  · intro hf
    exact .inr ⟨⟨⟩, _, gives_modify.mpr ⟨rfl, rfl⟩, hf⟩

theorem gives_runFrom {x : Building m α} {table : RenameTable} {s t : State m}
    {r : Except Failure α} :
    Gives (x.runFrom table) s r t ↔ ∃ table', Gives x (table, s) r (table', t) := by
  change Yields (x table >>= fun p => pure p.1) s r t ↔ _
  rw [yields_bind]
  constructor
  · rintro ⟨⟨result, table'⟩, u, hx, hp⟩
    obtain ⟨rfl, rfl⟩ := yields_pure.mp hp
    exact ⟨table', hx⟩
  · rintro ⟨table', hx⟩
    exact ⟨(r, table'), t, hx, yields_pure.mpr ⟨rfl, rfl⟩⟩

end Building

namespace Evaluating

variable {α β : Type} {s t : Session}

theorem gives_unique {x : Evaluating α} {r r' : Except Failure α} {t' : Session}
    (h : Gives (m := StateT Session Option) x s r t)
    (h' : Gives (m := StateT Session Option) x s r' t') : r' = r ∧ t' = t :=
  Prod.mk.inj (Option.some.inj (Eq.trans (Eq.symm h') h))

theorem gives_bind_of_ok {x : Evaluating α} {f : α → Evaluating β} {a : α} {u : Session}
    {r : Except Failure β} (hx : Gives (m := StateT Session Option) x s (.ok a) u) :
    Gives (m := StateT Session Option) (x >>= f) s r t ↔
      Gives (m := StateT Session Option) (f a) u r t := by
  rw [gives_bind]
  constructor
  · rintro (⟨e, he, -⟩ | ⟨b, w, hb, hf⟩)
    · exact nomatch (gives_unique hx he).1
    · obtain ⟨hok, rfl⟩ := gives_unique hx hb
      cases hok
      exact hf
  · intro hf
    exact .inr ⟨a, u, hx, hf⟩

theorem gives_get {r : Except Failure Session} :
    Gives (m := StateT Session Option) (get : Evaluating Session) s r t ↔ r = .ok s ∧ t = s := by
  constructor
  · intro h
    cases h
    exact ⟨rfl, rfl⟩
  · rintro ⟨rfl, rfl⟩
    rfl

theorem gives_modify {g : Session → Session} {r : Except Failure PUnit} :
    Gives (m := StateT Session Option) (modify g : Evaluating PUnit) s r t ↔
      r = .ok ⟨⟩ ∧ t = g s := by
  constructor
  · intro h
    cases h
    exact ⟨rfl, rfl⟩
  · rintro ⟨rfl, rfl⟩
    rfl

theorem gives_get_bind {f : Session → Evaluating β} {r : Except Failure β} :
    Gives (m := StateT Session Option) (get >>= f) s r t ↔
      Gives (m := StateT Session Option) (f s) s r t :=
  Iff.rfl

theorem gives_modify_bind {g : Session → Session} {f : PUnit → Evaluating β}
    {r : Except Failure β} :
    Gives (m := StateT Session Option) (modify g >>= f) s r t ↔
      Gives (m := StateT Session Option) (f ⟨⟩) (g s) r t :=
  Iff.rfl

theorem gives_outcome {x : Evaluating α} {r : Except Failure (Except Failure α)} :
    Gives (m := StateT Session Option) x.outcome s r t ↔
      ∃ r', Gives (m := StateT Session Option) x s r' t ∧ r = .ok r' := by
  change Yields (m := StateT Session Option) (x.run >>= fun r => pure (Except.ok r)) s r t ↔ _
  rw [yields_bind]
  constructor
  · rintro ⟨r', u, hx, h⟩
    obtain ⟨rfl, rfl⟩ := yields_pure.mp h
    exact ⟨r', hx, rfl⟩
  · rintro ⟨r', hx, rfl⟩
    exact ⟨r', t, hx, yields_pure.mpr ⟨rfl, rfl⟩⟩

theorem gives_outcome_bind {x : Evaluating α} {f : Except Failure α → Evaluating β}
    {r : Except Failure β} :
    Gives (m := StateT Session Option) (x.outcome >>= f) s r t ↔
      ∃ r' u, Gives (m := StateT Session Option) x s r' u ∧
        Gives (m := StateT Session Option) (f r') u r t := by
  rw [gives_bind]
  constructor
  · rintro (⟨e, he, -⟩ | ⟨a, u, ha, hf⟩)
    · obtain ⟨_, -, h⟩ := gives_outcome.mp he
      exact nomatch h
    · obtain ⟨r', hx, h⟩ := gives_outcome.mp ha
      cases h
      exact ⟨a, u, hx, hf⟩
  · rintro ⟨r', u, hx, hf⟩
    exact .inr ⟨r', u, gives_outcome.mpr ⟨r', hx, rfl⟩, hf⟩

theorem gives_expanding {x : Expander → Option Namespace → Expanding α} {r : Except Failure α} :
    Gives (m := StateT Session Option) (expanding x) s r t ↔
      ∃ u, Gives (m := StateM ExpansionState) (x s.expander (some s.currentNamespace)) s.expansion
        r u ∧ t = { s with expansion := u } := by
  constructor
  · intro h
    cases h
    exact ⟨_, rfl, rfl⟩
  · rintro ⟨u, h, rfl⟩
    have hrun : x s.expander (some s.currentNamespace) s.expansion = (r, u) := h
    change some ((x s.expander (some s.currentNamespace) s.expansion).1,
      { s with expansion := (x s.expander (some s.currentNamespace) s.expansion).2 }) = _
    rw [hrun]

end Evaluating

end Quasiquote
