import Quasiquote.Template.Build

namespace Quasiquote

/-- Whether a symbol heads escapes. -/
abbrev Symbol.IsEscape (s : Symbol) : Prop := s = .unquote ∨ s = .unquoteSplicing

theorem Symbol.IsEscape.ne_syntaxQuote {s : Symbol} (h : s.IsEscape) : s ≠ .syntaxQuote := by
  rcases h with rfl | rfl <;> decide

/-- Whether a value is neither a symbol nor a list. -/
def Value.IsAtom : Value → Prop
  | .sym _ => False
  | .list _ => False
  | _ => True

theorem Value.sizeOf_lt_of_mem_list {items : List Value} {v : Value} (h : v ∈ items) :
    sizeOf v < sizeOf (Value.list items) := by
  have := List.sizeOf_lt_of_mem h
  simp only [Value.list.sizeOf_spec]
  omega

theorem Value.sizeOf_pos (v : Value) : 0 < sizeOf v := by
  cases v <;> simp +arith

theorem Value.spread_single (v : Value) : v.single.spread = [v.single] := by
  cases v <;> rfl

/-- How a resolver answers an escape with the given expression. -/
def Resolver.answer {m : Type → Type} [Monad m] [MonadFresh m] (site : Site m) :
    Resolver m → Value → Building m Value
  | .macroTime => Template.resolve site
  | .host f => f

namespace Template

/-- Whether the first of some items makes a list of them an escape or a template. -/
def IsHeaded : List Value → Prop
  | .sym s :: _ => s.IsEscape ∨ s = .syntaxQuote
  | _ => False

/-- Induction along the shapes of a template. -/
theorem induction {P : Value → Prop}
    (atom : ∀ v, v.IsAtom → P v)
    (symbol : ∀ s, P (.sym s))
    (escape : ∀ s arg, s.IsEscape → P arg → P (.list [.sym s, arg]))
    (template : ∀ arg, P arg → P (.list [.sym .syntaxQuote, arg]))
    (malformed : ∀ s args, s.IsEscape ∨ s = .syntaxQuote → args.length ≠ 1 →
      (∀ v ∈ args, P v) → P (.list (.sym s :: args)))
    (plain : ∀ items, ¬IsHeaded items → (∀ v ∈ items, P v) → P (.list items)) :
    ∀ v, P v := by
  intro v
  induction h : sizeOf v using Nat.strongRecOn generalizing v with
  | ind n ih =>
      subst h
      have below : ∀ items, v = .list items → ∀ w ∈ items, P w := by
        rintro items rfl w hw
        exact ih _ (Value.sizeOf_lt_of_mem_list hw) w rfl
      cases v with
      | sym s => exact symbol s
      | list items =>
          specialize below items rfl
          by_cases h : IsHeaded items
          · rcases items with _ | ⟨v, args⟩
            · exact h.elim
            cases v with
            | sym s =>
                rcases args with _ | ⟨arg, _ | ⟨v, args⟩⟩
                · exact malformed s [] h (by simp) (by simp)
                · rcases h with h | rfl
                  · exact escape s arg h (below arg (by simp))
                  · exact template arg (below arg (by simp))
                · exact malformed s _ h (by simp) fun w hw => below w (by simp [hw])
            | _ => exact h.elim
          · exact plain items h below
      | _ => exact atom _ trivial

/-- An escape in a template, with the level at which it stands. -/
structure Escape where
  level : Int
  head : Symbol
  arg : Value

mutual

/-- The escapes that building meets in a template at a level, from left to right. Those of level
one are answered, so nothing inside them is met. -/
def escapes (level : Int) : Value → List Escape
  | .list (.sym s :: args) =>
      if s = .unquote ∨ s = .unquoteSplicing then
        match args with
        | [arg] => ⟨level, s, arg⟩ :: if 1 < level then escapes (level - 1) arg else []
        | _ => []
      else if s = .syntaxQuote then
        match args with
        | [arg] => escapes (level + 1) arg
        | _ => []
      else escapesOfItems level args
  | .list items => escapesOfItems level items
  | _ => []
termination_by structural v => v

def escapesOfItems (level : Int) : List Value → List Escape
  | [] => []
  | v :: vs => escapes level v ++ escapesOfItems level vs
termination_by structural vs => vs

end

attribute [local simp] escapes escapesOfItems

theorem escapesOfItems_eq_flatMap (level : Int) (items : List Value) :
    escapesOfItems level items = items.flatMap (escapes level) := by
  induction items with
  | nil => rfl
  | cons v vs ih => rw [escapesOfItems, ih, List.flatMap_cons]

theorem escapes_atom (level : Int) {v : Value} (h : v.IsAtom) : escapes level v = [] := by
  cases v with
  | list items => exact h.elim
  | _ => rfl

theorem escapes_escape (level : Int) {s : Symbol} (arg : Value) (h : s.IsEscape) :
    escapes level (.list [.sym s, arg]) =
      ⟨level, s, arg⟩ :: if 1 < level then escapes (level - 1) arg else [] := by
  rw [escapes, if_pos h]

theorem escapes_template (level : Int) (arg : Value) :
    escapes level (.list [.sym .syntaxQuote, arg]) = escapes (level + 1) arg := by
  rw [escapes, if_neg (by decide), if_pos rfl]

theorem escapes_malformed (level : Int) {s : Symbol} {args : List Value}
    (h : s.IsEscape ∨ s = .syntaxQuote) (hn : args.length ≠ 1) :
    escapes level (.list (.sym s :: args)) = [] := by
  have hs : ¬s.IsEscape → s = .syntaxQuote := h.resolve_left
  rcases args with _ | ⟨arg, _ | ⟨v, args⟩⟩
  · simp only [escapes]
    split
    · rfl
    · exact if_pos (hs ‹_›)
  · exact absurd rfl hn
  · simp only [escapes]
    split
    · rfl
    · exact if_pos (hs ‹_›)

theorem escapes_plain (level : Int) {items : List Value} (h : ¬IsHeaded items) :
    escapes level (.list items) = items.flatMap (escapes level) := by
  rw [← escapesOfItems_eq_flatMap]
  rcases items with _ | ⟨v, args⟩
  · rfl
  cases v with
  | sym s =>
      have hs := not_or.mp h
      rw [escapes.eq_def]
      simp only [if_neg hs.1, if_neg hs.2, escapesOfItems, escapes, List.nil_append]
  | _ => rfl

theorem arg_of_mem_escapes {P Q : Value → Prop} (item : ∀ items, Q (.list items) → ∀ v ∈ items, P v)
    (weaken : ∀ v, P v → Q v) {level : Int} {t : Value} {e : Escape} (ht : Q t)
    (h : e ∈ escapes level t) : P e.arg := by
  induction t using Template.induction generalizing level with
  | atom v hv =>
      rw [escapes_atom level hv] at h
      exact nomatch h
  | symbol s => exact nomatch h
  | escape s arg hs ih =>
      have harg : P arg := item _ ht arg (by simp)
      rw [escapes_escape level arg hs] at h
      rcases List.mem_cons.mp h with rfl | h
      · exact harg
      · split at h
        · exact ih (weaken arg harg) h
        · exact nomatch h
  | template arg ih =>
      rw [escapes_template] at h
      exact ih (weaken arg (item _ ht arg (by simp))) h
  | malformed s args hs hn _ =>
      rw [escapes_malformed level hs hn] at h
      exact nomatch h
  | plain items hi ih =>
      rw [escapes_plain level hi] at h
      obtain ⟨v, hv, h⟩ := List.mem_flatMap.mp h
      exact ih v hv (weaken v (item _ ht v hv)) h

theorem sizeOf_arg_lt_of_mem_escapes {level : Int} {t : Value} {e : Escape}
    (h : e ∈ escapes level t) : sizeOf e.arg < sizeOf t :=
  arg_of_mem_escapes (P := fun v => sizeOf v < sizeOf t) (Q := fun v => sizeOf v ≤ sizeOf t)
    (fun _ hs _ hv => Nat.lt_of_lt_of_le (Value.sizeOf_lt_of_mem_list hv) hs)
    (fun _ => Nat.le_of_lt) (Nat.le_refl _) h

section

variable {m : Type → Type} [Monad m] [MonadFresh m] (site : Site m) (resolver : Resolver m)
variable (level : Int)

attribute [local simp] build buildItems resolve

theorem build_atom {v : Value} (h : v.IsAtom) : build site resolver level v = pure v := by
  cases v with
  | sym s => exact h.elim
  | list items => exact h.elim
  | _ => simp only [build]

theorem build_symbol (s : Symbol) :
    build site resolver level (.sym s) = (do pure (.sym (← qualify site.ns s))) := by
  rw [build]

theorem build_kept {s : Symbol} (arg : Value) (h : s.IsEscape) (hl : 1 < level) :
    build site resolver level (.list [.sym s, arg]) = (do
      pure (.list [.sym s, ← build site resolver (level - 1) arg])) := by
  rw [build, if_pos h]
  exact if_pos hl

theorem build_answered {s : Symbol} (arg : Value) (h : s.IsEscape) (hl : ¬1 < level) :
    build site resolver level (.list [.sym s, arg]) = (do
      let value ← resolver.answer site arg
      MonadExcept.ofExcept (insertion site s (.list [.sym s, arg]) value)) := by
  rw [build, if_pos h]
  cases resolver <;> exact if_neg hl

theorem build_template (arg : Value) (hl : level + 1 ≤ site.maxNesting) :
    build site resolver level (.list [.sym .syntaxQuote, arg]) = (do
      pure (.list [.sym .syntaxQuote, ← build site resolver (level + 1) arg])) := by
  rw [build, if_neg (by decide), if_pos rfl]
  exact if_neg (by omega)

theorem build_tooNested (arg : Value) (hl : site.maxNesting < level + 1) :
    build site resolver level (.list [.sym .syntaxQuote, arg]) =
      throw (.expansion site.macroName (some (.list [.sym .syntaxQuote, arg]))
        (.tooNested (level + 1))) := by
  rw [build, if_neg (by decide), if_pos rfl]
  exact if_pos hl

theorem build_malformed {s : Symbol} {args : List Value} (h : s.IsEscape ∨ s = .syntaxQuote)
    (hn : args.length ≠ 1) :
    build site resolver level (.list (.sym s :: args)) =
      throw (.malformed (.escapeArguments s args.length)) := by
  have hs : ¬s.IsEscape → s = .syntaxQuote := h.resolve_left
  rcases args with _ | ⟨arg, _ | ⟨v, args⟩⟩
  · simp only [build]
    split
    · rfl
    · exact if_pos (hs ‹_›)
  · exact absurd rfl hn
  · simp only [build]
    split
    · rfl
    · exact if_pos (hs ‹_›)

omit resolver level in
theorem resolve_template (t : Value) :
    resolve site (.list [.sym .syntaxQuote, t]) = build site .macroTime 1 t := by
  rw [resolve.eq_def]
  rfl

theorem build_plain [LawfulMonad m] {items : List Value} (h : ¬IsHeaded items) :
    build site resolver level (.list items) = (do
      pure (.list (← buildItems site resolver level items))) := by
  rcases items with _ | ⟨v, args⟩
  · simp only [build]
  cases v with
  | sym s =>
      have hs := not_or.mp h
      rw [build.eq_def]
      simp only [if_neg hs.1, if_neg hs.2, buildItems, build, bind_assoc, pure_bind, Value.spread,
        List.singleton_append]
  | _ => simp only [build]

end

end Template

end Quasiquote
