import Quasiquote.Proofs.Template.Built

namespace Quasiquote

namespace Value

mutual

/-- Whether a value holds no splice, at any depth. -/
def isSpliceFree : Value → Bool
  | splice _ => false
  | list items => areSpliceFree items
  | tuple items => areSpliceFree items
  | _ => true
termination_by structural v => v

def areSpliceFree : List Value → Bool
  | [] => true
  | v :: vs => v.isSpliceFree && areSpliceFree vs
termination_by structural vs => vs

end

theorem areSpliceFree_iff {vs : List Value} :
    areSpliceFree vs = true ↔ ∀ v ∈ vs, v.isSpliceFree = true := by
  induction vs with
  | nil => simp [areSpliceFree]
  | cons v vs ih => simp [areSpliceFree, ih]

theorem isSpliceFree_list_iff {items : List Value} :
    (list items).isSpliceFree = true ↔ ∀ v ∈ items, v.isSpliceFree = true := by
  rw [isSpliceFree, areSpliceFree_iff]

def isSplice : Value → Bool
  | splice _ => true
  | _ => false

/-- Whether a value holds no splice, apart from being one perhaps. -/
def IsClean (v : Value) : Prop := ∀ w ∈ v.spread, w.isSpliceFree = true

theorem isClean_iff_of_not_isSplice {v : Value} (h : v.isSplice = false) :
    v.IsClean ↔ v.isSpliceFree = true := by
  cases v with
  | splice items => exact nomatch h
  | _ => simp [IsClean, spread]

theorem isClean_list_iff {items : List Value} :
    (list items).IsClean ↔ ∀ v ∈ items, v.isSpliceFree = true := by
  rw [isClean_iff_of_not_isSplice rfl, isSpliceFree_list_iff]

theorem isSpliceFree_iff {v : Value} : v.isSpliceFree = true ↔ v.isSplice = false ∧ v.IsClean := by
  cases v with
  | splice items => simp [isSpliceFree, isSplice]
  | _ => simp [IsClean, spread, isSplice]

theorem isClean_of_isSpliceFree {v : Value} (h : v.isSpliceFree = true) : v.IsClean :=
  (isSpliceFree_iff.mp h).2

theorem isSplice_single (v : Value) : v.single.isSplice = false := by
  cases v <;> rfl

theorem isSpliceFree_single_iff {v : Value} : v.single.isSpliceFree = true ↔ v.IsClean := by
  cases v with
  | splice items => exact isSpliceFree_list_iff
  | _ => simp [IsClean, spread, single]

theorem isClean_single_iff {v : Value} : v.single.IsClean ↔ v.IsClean := by
  rw [isClean_iff_of_not_isSplice v.isSplice_single, isSpliceFree_single_iff]

/-- Whether a tree is a splicing escape. -/
def isSplicing : Value → Bool
  | list [sym s, _] => s = .unquoteSplicing
  | _ => false

theorem isSplicing_escape {s : Symbol} {arg : Value} :
    (list [sym s, arg]).isSplicing = true ↔ s = .unquoteSplicing := by
  simp [isSplicing]

end Value

namespace Template

/-- Whether building leaves a splice behind at an escape. -/
def Escape.Leaks (e : Escape) : Prop := e.level = 2 ∧ e.arg.isSplicing = true

instance (e : Escape) : Decidable e.Leaks := inferInstanceAs (Decidable (_ ∧ _))

/-- Whether building a template at a level leaves a splice behind. -/
def Leaks (level : Int) (t : Value) : Prop := ∃ e ∈ escapes level t, e.Leaks

instance (level : Int) (t : Value) : Decidable (Leaks level t) :=
  inferInstanceAs (Decidable (∃ e ∈ escapes level t, e.Leaks))

theorem isSpliceFree_arg_of_mem_escapes {level : Int} {t : Value} (ht : t.isSpliceFree = true)
    {e : Escape} (he : e ∈ escapes level t) : e.arg.isSpliceFree = true :=
  arg_of_mem_escapes (P := fun v => v.isSpliceFree = true)
    (fun _ => Value.isSpliceFree_list_iff.mp) (fun _ h => h) ht he

variable {m : Type → Type} {site : Site m}

theorem insertion_ok {s : Symbol} {form value v : Value} (hs : s.IsEscape)
    (h : insertion site s form value = .ok v) :
    (v.IsClean ↔ value.IsClean) ∧ (v.isSplice = true ↔ s = .unquoteSplicing) := by
  rcases hs with rfl | rfl
  · cases h
    refine ⟨Value.isClean_single_iff, ?_⟩
    rw [Value.isSplice_single]
    decide
  · unfold insertion at h
    rw [if_neg (by decide)] at h
    cases value with
    | splice items =>
        cases h
        simp [Value.isSplice]
    | nil =>
        cases h
        simp [Value.IsClean, Value.spread, Value.isSplice, Value.isSpliceFree]
    | list items =>
        cases h
        refine ⟨Value.isClean_list_iff.symm, ?_⟩
        simp [Value.isSplice]
    | tuple items =>
        cases h
        rw [Value.isClean_iff_of_not_isSplice (v := .tuple items) rfl, Value.isSpliceFree,
          Value.areSpliceFree_iff]
        simp [Value.IsClean, Value.spread, Value.isSplice]
    | _ =>
        dsimp only at h
        split at h <;> cases h

variable {replaces : Symbol → Symbol → Prop} {level : Int} {v : Value}
variable {answers : List (Value × Value)}

/-- A built tree is a splice if the whole template is a splicing escape that is answered. -/
theorem Built.isSplice_iff {t : Value} (ht : t.isSpliceFree = true)
    (h : Built site replaces level t answers v) :
    v.isSplice = true ↔ level ≤ 1 ∧ t.isSplicing = true := by
  cases h with
  | atom hv =>
      rw [(Value.isSpliceFree_iff.mp ht).1]
      cases v with
      | list items => exact hv.elim
      | _ => simp [Value.isSplicing]
  | symbol _ => simp [Value.isSplice, Value.isSplicing]
  | kept hs hl _ =>
      simp only [Value.isSplice, Bool.false_eq_true, false_iff, not_and]
      omega
  | answered hs hl hv =>
      rw [(insertion_ok hs hv).2, Value.isSplicing_escape]
      exact (and_iff_right (by omega)).symm
  | template _ _ => simp [Value.isSplice, Value.isSplicing, Symbol.syntaxQuote,
      Symbol.unquoteSplicing]
  | plain hi _ =>
      simp only [Value.isSplice, Bool.false_eq_true, false_iff, not_and]
      intro _ h
      unfold Value.isSplicing at h
      split at h
      · rename_i heq
        cases heq
        exact hi (.inl (.inr (of_decide_eq_true h)))
      · exact nomatch h

theorem Built.isClean_iff {t : Value} (hlevel : 1 ≤ level) (ht : t.isSpliceFree = true)
    (h : Built site replaces level t answers v) :
    v.IsClean ↔ ¬Leaks level t ∧ ∀ a ∈ answers, a.2.IsClean := by
  induction t using Template.induction generalizing level answers v with
  | atom t hv =>
      obtain ⟨rfl, rfl⟩ := (built_atom_iff hv).mp h
      simp [Leaks, escapes_atom level hv, Value.isClean_of_isSpliceFree ht]
  | symbol s =>
      obtain ⟨rfl, r, -, rfl⟩ := built_symbol_iff.mp h
      simp [Leaks, escapes, Value.IsClean, Value.spread, Value.isSpliceFree]
  | escape s arg hs ih =>
      have harg : arg.isSpliceFree = true := Value.isSpliceFree_list_iff.mp ht arg (by simp)
      rcases (built_escape_iff hs).mp h with ⟨hl, w, hb, rfl⟩ | ⟨hl, value, rfl, hv⟩
      · have hw : w.isSplice = false ↔ ¬(level = 2 ∧ arg.isSplicing = true) := by
          rw [← Bool.not_eq_true, hb.isSplice_iff harg]
          exact not_congr (and_congr_left fun _ => by omega)
        have hleaks : Leaks level (.list [.sym s, arg]) ↔
            (level = 2 ∧ arg.isSplicing = true) ∨ Leaks (level - 1) arg := by
          rw [Leaks, escapes_escape level arg hs, if_pos hl]
          simp [Leaks, Escape.Leaks]
        rw [hleaks, not_or, and_assoc, ← ih (by omega) harg hb, ← hw, ← Value.isSpliceFree_iff,
          Value.isClean_list_iff]
        simp [Value.isSpliceFree]
      · have hleaks : ¬Leaks level (.list [.sym s, arg]) := by
          rw [Leaks, escapes_escape level arg hs, if_neg hl]
          simp only [List.mem_singleton, exists_eq_left, Escape.Leaks]
          omega
        rw [(insertion_ok hs hv).1]
        simp [hleaks]
  | template arg ih =>
      have harg : arg.isSpliceFree = true := Value.isSpliceFree_list_iff.mp ht arg (by simp)
      obtain ⟨-, w, hb, rfl⟩ := built_template_iff.mp h
      have hw : w.isSplice = false := by
        rw [← Bool.not_eq_true, hb.isSplice_iff harg]
        omega
      rw [Leaks, escapes_template, ← Leaks, ← ih (by omega) harg hb, Value.isClean_list_iff,
        Value.isClean_iff_of_not_isSplice hw]
      simp [Value.isSpliceFree]
  | malformed s args hs hn _ => exact absurd h (not_built_malformed hs hn)
  | plain items hi ih =>
      obtain ⟨vs, hb, rfl⟩ := (built_plain_iff hi).mp h
      rw [Value.isClean_list_iff, Leaks, escapes_plain level hi]
      rw [Value.isSpliceFree_list_iff] at ht
      clear h hi
      induction items generalizing answers vs with
      | nil =>
          cases hb
          simp
      | cons item items ihItems =>
          obtain ⟨w, first, ws, more, hw, hws, rfl, rfl⟩ := builtItems_cons_iff.mp hb
          have hitem : w.IsClean ↔ _ := ih item (by simp) hlevel (ht item (by simp)) hw
          have hitems := ihItems (fun v hv => ih v (by simp [hv])) (fun v hv => ht v (by simp [hv]))
            ws hws
          rw [Value.IsClean, Leaks] at hitem
          simp only [List.flatMap_cons, List.mem_append, or_imp, forall_and, or_and_right,
            exists_or, not_or]
          rw [hitem, hitems]
          exact and_and_and_comm

end Template

end Quasiquote
