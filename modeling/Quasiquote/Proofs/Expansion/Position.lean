import Quasiquote.Expander
import Quasiquote.Proofs.Template.Shape

namespace Quasiquote

theorem mapM_append_bind {m : Type → Type} [Monad m] [LawfulMonad m] {α β γ : Type} (f : α → m β)
    (as bs : List α) (k : List β → List β → m γ) :
    ((as ++ bs).mapM f >>= fun ws => k (ws.take as.length) (ws.drop as.length)) =
      as.mapM f >>= fun us => bs.mapM f >>= fun vs => k us vs := by
  induction as generalizing k with
  | nil => simp
  | cons a as ih =>
      simp only [List.cons_append, List.mapM_cons, bind_assoc, pure_bind, List.length_cons,
        List.take_succ_cons, List.drop_succ_cons]
      congr 1
      funext w
      exact ih fun us vs => k (w :: us) vs

theorem mapM_congr {m : Type → Type} [Monad m] [LawfulMonad m] {α β : Type} {f g : α → m β}
    {as : List α} (h : ∀ a ∈ as, f a = g a) : as.mapM f = as.mapM g := by
  induction as with
  | nil => rfl
  | cons a as ih =>
      rw [List.mapM_cons, List.mapM_cons, h a (by simp), ih fun b hb => h b (by simp [hb])]

/-- Some positions in a tree: the forms that stand there, and the tree with other forms there. -/
structure Positions where
  forms : List Value
  fill : List Value → Value

namespace Value

/-- The positions in a form of a `try`. The head of a clause and the name that it binds are none. -/
def clausePositions : Value → Positions
  | .list (.sym s :: args) =>
      if s = .handler then ⟨args.tail, fun ws => .list (.sym s :: (args.take 1 ++ ws))⟩
      else if s = .cleanup then ⟨args, fun ws => .list (.sym s :: ws)⟩
      else ⟨[.list (.sym s :: args)], fun ws => ws.headD .nil⟩
  | v => ⟨[v], fun ws => ws.headD .nil⟩

/-- The forms of a `try` with other forms at their positions. -/
def fillClauses : List Value → List Value → List Value
  | [], _ => []
  | c :: cs, ws =>
      let positions := c.clausePositions
      positions.fill (ws.take positions.forms.length) ::
        fillClauses cs (ws.drop positions.forms.length)

/-- The positions right below a tree. -/
def positions : Value → Positions
  | .list (.sym s :: args) =>
      if s.isCore "quote" || s.isCore "syntax-quote" then ⟨[], fun _ => .list (.sym s :: args)⟩
      else if s.isCore "let" then
        match args with
        | .list bindings :: body =>
            ⟨bindings ++ body, fun ws => .list
              (.sym s :: .list (ws.take bindings.length) :: ws.drop bindings.length)⟩
        | args => ⟨args, fun ws => .list (.sym s :: ws)⟩
      else if s = .attempt then
        ⟨args.flatMap fun c => c.clausePositions.forms,
          fun ws => .list (.sym s :: fillClauses args ws)⟩
      else ⟨args, fun ws => .list (.sym s :: ws)⟩
  | .list items => ⟨items, .list⟩
  | v => ⟨[], fun _ => v⟩

/-- The forms that stand right below a tree at positions which expansion visits. -/
def parts (v : Value) : List Value := v.positions.forms

theorem clausePositions_cases (c : Value) :
    (∃ args, c = .list (.sym .handler :: args)) ∨ (∃ args, c = .list (.sym .cleanup :: args)) ∨
      c.clausePositions = ⟨[c], fun ws => ws.headD .nil⟩ := by
  unfold clausePositions
  split
  · rename_i s args
    by_cases hh : s = .handler
    · exact .inl ⟨args, by rw [hh]⟩
    by_cases hc : s = .cleanup
    · exact .inr (.inl ⟨args, by rw [hc]⟩)
    · exact .inr (.inr (by rw [if_neg hh, if_neg hc]))
  · exact .inr (.inr rfl)

theorem fill_clausePositions (c : Value) : c.clausePositions.fill c.clausePositions.forms = c := by
  rcases c.clausePositions_cases with ⟨args, rfl⟩ | ⟨args, rfl⟩ | h
  · show Value.list (.sym .handler :: (args.take 1 ++ args.tail)) = _
    rw [← List.drop_one, List.take_append_drop]
  · rfl
  · rw [h]
    rfl

theorem fillClauses_forms (cs : List Value) :
    fillClauses cs (cs.flatMap fun c => c.clausePositions.forms) = cs := by
  induction cs with
  | nil => rfl
  | cons c cs ih =>
      rw [List.flatMap_cons, fillClauses, List.take_left, List.drop_left, ih, fill_clausePositions]

theorem positions_binding {s : Symbol} (h : s.isCore "let" = true) (bindings body : List Value) :
    (list (sym s :: list bindings :: body)).positions =
      ⟨bindings ++ body, fun ws => list
        (sym s :: list (ws.take bindings.length) :: ws.drop bindings.length)⟩ := by
  have hname : s.name = "let" := by
    unfold Symbol.isCore at h
    simp only [Bool.and_eq_true, decide_eq_true_eq] at h
    exact h.1
  have hq : (s.isCore "quote" || s.isCore "syntax-quote") = false := by
    simp [Symbol.isCore, hname]
  unfold positions
  dsimp only
  rw [hq, if_neg Bool.false_ne_true, if_pos h]

theorem positions_attempt (args : List Value) :
    (list (sym .attempt :: args)).positions =
      ⟨args.flatMap fun c => c.clausePositions.forms,
        fun ws => list (sym .attempt :: fillClauses args ws)⟩ :=
  rfl

theorem positions_cases (v : Value) :
    v.positions = ⟨[], fun _ => v⟩ ∨
    (∃ s bindings body, v = list (sym s :: list bindings :: body) ∧ s.isCore "let" = true) ∨
    (∃ args, v = list (sym .attempt :: args)) ∨
    (∃ s args, v = list (sym s :: args) ∧ v.positions = ⟨args, fun ws => list (sym s :: ws)⟩ ∧
      (s.isCore "let" = true → ∀ bindings body, args ≠ list bindings :: body)) ∨
    ∃ items, v = list items ∧ v.positions = ⟨items, list⟩ ∧ v.call? = none := by
  unfold positions
  split
  · rename_i s args
    split
    · exact .inl rfl
    split
    · rename_i hl
      split
      · exact .inr (.inl ⟨s, _, _, rfl, hl⟩)
      · rename_i hargs
        exact .inr (.inr (.inr (.inl ⟨s, args, rfl, rfl, fun _ => hargs⟩)))
    rename_i hl
    split
    · rename_i ha
      exact .inr (.inr (.inl ⟨args, by rw [ha]⟩))
    · exact .inr (.inr (.inr (.inl ⟨s, args, rfl, rfl, fun h => absurd h hl⟩)))
  · rename_i items hitems
    refine .inr (.inr (.inr (.inr ⟨items, rfl, rfl, ?_⟩)))
    unfold call?
    split
    · rename_i s args heq
      cases heq
      exact (hitems s args rfl).elim
    · rfl
  · exact .inl rfl

theorem call?_cases (items : List Value) :
    (list items).call? = none ∨ ∃ s args, items = sym s :: args := by
  cases items with
  | nil => exact .inl rfl
  | cons head args =>
      cases head with
      | sym s => exact .inr ⟨s, args, rfl⟩
      | _ => exact .inl rfl

theorem positions_of_call?_eq_none {items : List Value} (h : (list items).call? = none) :
    (list items).positions = ⟨items, list⟩ := by
  cases items with
  | nil => rfl
  | cons head args =>
      cases head with
      | sym s => exact nomatch h
      | _ => rfl

theorem fill_of_ne_list {v : Value} (h : ∀ items, v ≠ list items) (ws : List Value) :
    v.positions.fill ws = v := by
  cases v with
  | list items => exact absurd rfl (h items)
  | _ => rfl

theorem fill_parts (v : Value) : v.positions.fill v.parts = v := by
  unfold parts
  rcases v.positions_cases with h | ⟨s, bindings, body, rfl, hl⟩ | ⟨args, rfl⟩ | ⟨s, args, rfl, h, -⟩ |
    ⟨items, rfl, h, -⟩
  · rw [h]
  · simp only [positions_binding hl, List.take_left, List.drop_left]
  · simp only [positions_attempt, fillClauses_forms]
  · rw [h]
  · rw [h]

theorem fill_clausePositions_injective {c : Value} {us ws : List Value}
    (hus : us.length = c.clausePositions.forms.length)
    (hws : ws.length = c.clausePositions.forms.length)
    (h : c.clausePositions.fill us = c.clausePositions.fill ws) : us = ws := by
  rcases c.clausePositions_cases with ⟨args, rfl⟩ | ⟨args, rfl⟩ | hc
  · exact List.append_cancel_left (List.cons.inj (list.inj h)).2
  · exact (List.cons.inj (list.inj h)).2
  · rw [hc] at hus hws h
    obtain ⟨u, rfl⟩ := List.length_eq_one_iff.mp hus
    obtain ⟨w, rfl⟩ := List.length_eq_one_iff.mp hws
    exact congrArg (fun v => [v]) h

theorem fillClauses_injective {cs us ws : List Value}
    (hus : us.length = (cs.flatMap fun c => c.clausePositions.forms).length)
    (hws : ws.length = (cs.flatMap fun c => c.clausePositions.forms).length)
    (h : fillClauses cs us = fillClauses cs ws) : us = ws := by
  induction cs generalizing us ws with
  | nil =>
      rw [List.length_eq_zero_iff.mp hus, List.length_eq_zero_iff.mp hws]
  | cons c cs ih =>
      rw [List.flatMap_cons, List.length_append] at hus hws
      obtain ⟨hfirst, hrest⟩ := List.cons.inj h
      have htake := fill_clausePositions_injective (by rw [List.length_take]; omega)
        (by rw [List.length_take]; omega) hfirst
      have hdrop := ih (by rw [List.length_drop]; omega) (by rw [List.length_drop]; omega) hrest
      rw [← List.take_append_drop c.clausePositions.forms.length us, htake, hdrop,
        List.take_append_drop]

/-- Different forms at its positions make a tree different. -/
theorem fill_injective {v : Value} {us ws : List Value} (hus : us.length = v.parts.length)
    (hws : ws.length = v.parts.length) (h : v.positions.fill us = v.positions.fill ws) :
    us = ws := by
  unfold parts at hus hws
  rcases v.positions_cases with hv | ⟨s, bindings, body, rfl, hl⟩ | ⟨args, rfl⟩ | ⟨s, args, rfl, hv, -⟩ |
    ⟨items, rfl, hv, -⟩
  · rw [hv] at hus hws
    rw [List.length_eq_zero_iff.mp hus, List.length_eq_zero_iff.mp hws]
  · rw [positions_binding hl] at h
    obtain ⟨htake, hdrop⟩ := List.cons.inj (List.cons.inj (list.inj h)).2
    rw [← List.take_append_drop bindings.length us, list.inj htake, hdrop, List.take_append_drop]
  · exact fillClauses_injective hus hws (List.cons.inj (list.inj h)).2
  · rw [hv] at h
    exact (List.cons.inj (list.inj h)).2
  · rw [hv] at h
    exact list.inj h

theorem sizeOf_le_of_mem_clausePositions {c w : Value} (h : w ∈ c.clausePositions.forms) :
    sizeOf w ≤ sizeOf c := by
  have below {items : List Value} (hw : w ∈ items) : sizeOf w ≤ sizeOf (Value.list items) :=
    Nat.le_of_lt (sizeOf_lt_of_mem_list hw)
  rcases c.clausePositions_cases with ⟨args, rfl⟩ | ⟨args, rfl⟩ | hc
  · have hw : w ∈ args := List.mem_of_mem_tail h
    exact below (List.mem_cons_of_mem _ hw)
  · have hw : w ∈ args := h
    exact below (List.mem_cons_of_mem _ hw)
  · rw [hc] at h
    exact Nat.le_of_eq (congrArg sizeOf (List.mem_singleton.mp h))

theorem sizeOf_lt_of_mem_parts {v w : Value} (h : w ∈ v.parts) : sizeOf w < sizeOf v := by
  unfold parts at h
  rcases v.positions_cases with hv | ⟨s, bindings, body, rfl, hl⟩ | ⟨args, rfl⟩ |
    ⟨s, args, rfl, hv, -⟩ | ⟨items, rfl, hv, -⟩
  · rw [hv] at h
    exact nomatch h
  · rw [positions_binding hl] at h
    rcases List.mem_append.mp h with h | h
    · have hb : list bindings ∈ sym s :: list bindings :: body := by simp
      exact Nat.lt_trans (sizeOf_lt_of_mem_list h) (sizeOf_lt_of_mem_list hb)
    · have hb : w ∈ sym s :: list bindings :: body := by simp [h]
      exact sizeOf_lt_of_mem_list hb
  · obtain ⟨c, hc, hw⟩ := List.mem_flatMap.mp h
    exact Nat.lt_of_le_of_lt (sizeOf_le_of_mem_clausePositions hw)
      (sizeOf_lt_of_mem_list (List.mem_cons_of_mem _ hc))
  · rw [hv] at h
    exact sizeOf_lt_of_mem_list (List.mem_cons_of_mem _ h)
  · rw [hv] at h
    exact sizeOf_lt_of_mem_list h

end Value

namespace Expander

variable {e : Expander} {caller : Option Namespace} {onCall : Macro → Value → Expanding Value}

theorem expandItems_eq_mapM (items : List Value) :
    e.expandItems caller onCall items = items.mapM (e.expandParts caller onCall) := by
  induction items with
  | nil => rfl
  | cons v vs ih => rw [expandItems, ih, List.mapM_cons]

theorem expandParts_of_macroFor {v : Value} {m : Macro} (h : e.macroFor caller v = some m) :
    e.expandParts caller onCall v = onCall m v := by
  unfold macroFor at h
  split at h
  · rw [expandParts.eq_def]
    dsimp only
    rw [h]
  · exact nomatch h

theorem expandClauses_cons (c : Value) (cs : List Value) :
    e.expandClauses caller onCall (c :: cs) =
      c.clausePositions.forms.mapM (e.expandParts caller onCall) >>= fun ws =>
        e.expandClauses caller onCall cs >>= fun rest =>
          pure (c.clausePositions.fill ws :: rest) := by
  rw [expandClauses.eq_def]
  dsimp only
  split
  · rename_i heq
    exact nomatch heq
  · rename_i s forms more heq
    cases heq
    rw [Value.clausePositions]
    split
    · cases forms with
      | nil => simp
      | cons name body => simp [expandItems_eq_mapM]
    split
    · simp [expandItems_eq_mapM]
    · simp
  · rename_i hc heq
    cases heq
    unfold Value.clausePositions
    split
    · rename_i s forms
      exact (hc s forms rfl).elim
    · simp

theorem expandClauses_eq_mapM (cs : List Value) :
    e.expandClauses caller onCall cs =
      (cs.flatMap fun c => c.clausePositions.forms).mapM (e.expandParts caller onCall) >>= fun ws =>
        pure (Value.fillClauses cs ws) := by
  induction cs with
  | nil => simp [expandClauses, Value.fillClauses]
  | cons c cs ih =>
      rw [List.flatMap_cons, expandClauses_cons, ih]
      simp only [bind_assoc, pure_bind]
      exact (mapM_append_bind _ _ _ fun us vs =>
        pure (c.clausePositions.fill us :: Value.fillClauses cs vs)).symm

/-- Below a tree whose head names no macro, expansion goes on with the parts. -/
theorem expandParts_eq_mapM {v : Value} (h : e.macroFor caller v = none) :
    e.expandParts caller onCall v =
      v.parts.mapM (e.expandParts caller onCall) >>= fun ws => pure (v.positions.fill ws) := by
  rw [expandParts.eq_def]
  unfold macroFor at h
  unfold Value.parts Value.positions
  split
  · rename_i s args
    rw [show e.registry.lookup caller s = none from h]
    dsimp only
    split
    · simp
    split
    · split
      · simp only [expandItems_eq_mapM]
        exact (mapM_append_bind _ _ _ fun us vs =>
          pure (Value.list (.sym s :: .list us :: vs))).symm
      · simp only [expandItems_eq_mapM]
    split
    · simp only [expandClauses_eq_mapM, bind_assoc, pure_bind]
    · simp only [expandItems_eq_mapM]
  · simp only [expandItems_eq_mapM]
  · simp

end Expander

end Quasiquote
