import Quasiquote.Proofs.Template.Order
import Quasiquote.Proofs.Template.Resolve

namespace Quasiquote

open Stateful

namespace Template

variable {m : Type → Type} [Monad m] [MonadFresh m] [Stateful m]

/-- What a visited form fails with by itself, and in which state: neither because of an item of it
nor because its expression is not answered. -/
inductive FailsAt (site : Site m) (resolver : Resolver m) (q : RenameTable × State m) :
    Int → Value → Failure → Prop
  | name {k : Int} {s : Symbol} {f : Failure} {p : RenameTable × State m} :
      Gives (qualify site.ns s) p (.error f) q → FailsAt site resolver q k (.sym s) f
  | insertion {k : Int} {s : Symbol} {arg value : Value} {f : Failure}
      {p : RenameTable × State m} :
      s.IsEscape → ¬1 < k → Gives (resolver.answer site arg) p (.ok value) q →
      insertion site s (.list [.sym s, arg]) value = .error f →
      FailsAt site resolver q k (.list [.sym s, arg]) f
  | tooNested {k : Int} {arg : Value} : site.maxNesting < k + 1 →
      FailsAt site resolver q k (.list [.sym .syntaxQuote, arg])
        (.expansion site.macroName (some (.list [.sym .syntaxQuote, arg])) (.tooNested (k + 1)))
  | malformed {k : Int} {s : Symbol} {args : List Value} : s.IsEscape ∨ s = .syntaxQuote →
      args.length ≠ 1 →
      FailsAt site resolver q k (.list (.sym s :: args))
        (.malformed (.escapeArguments s args.length))

variable {site : Site m} {resolver : Resolver m} {p q : RenameTable × State m} {f : Failure}

/-- A failure of a template: a visited form fails by itself, or the expression of an escape of at
most level one is not answered. -/
def FailsWithin (site : Site m) (resolver : Resolver m) (q : RenameTable × State m) (level : Int)
    (t : Value) (f : Failure) : Prop :=
  (∃ k v, Visits level t k v ∧ FailsAt site resolver q k v f) ∨
    ∃ e ∈ escapes level t, e.level ≤ 1 ∧ ∃ p, Gives (resolver.answer site e.arg) p (.error f) q

theorem exists_mem_of_gives_buildItems_error {level : Int} {items : List Value}
    (h : Gives (buildItems site resolver level items) p (.error f) q) :
    ∃ t ∈ items, ∃ p, Gives (build site resolver level t) p (.error f) q := by
  induction items generalizing p with
  | nil =>
      rw [buildItems] at h
      cases (gives_pure.mp h).1
  | cons t items ih =>
      rw [buildItems] at h
      rcases gives_bind.mp h with ⟨f', ht, hf⟩ | ⟨v, u, -, h⟩
      · cases hf
        exact ⟨t, by simp, p, ht⟩
      · obtain ⟨w, hw, hgives⟩ := ih (gives_bind_pure_error.mp h)
        exact ⟨w, by simp [hw], hgives⟩

theorem failsWithin_of_gives_build [LawfulMonad m] {level : Int} {t : Value}
    (h : Gives (build site resolver level t) p (.error f) q) :
    FailsWithin site resolver q level t f := by
  induction t using Template.induction generalizing level p with
  | atom t ht =>
      rw [build_atom site resolver level ht] at h
      cases (gives_pure.mp h).1
  | symbol s =>
      rw [build_symbol] at h
      exact .inl ⟨level, _, .here, .name (gives_bind_pure_error.mp h)⟩
  | escape s arg hs ih =>
      by_cases hl : 1 < level
      · rw [build_kept site resolver level arg hs hl] at h
        rcases ih (gives_bind_pure_error.mp h) with ⟨k, v, hvisits, hfails⟩ | ⟨e, he, hrest⟩
        · exact .inl ⟨k, v, .kept hs hl hvisits, hfails⟩
        · refine .inr ⟨e, ?_, hrest⟩
          rw [escapes_escape _ _ hs, if_pos hl]
          exact List.mem_cons_of_mem _ he
      · rw [build_answered site resolver level arg hs hl] at h
        rcases gives_bind.mp h with ⟨f', hanswer, hf⟩ | ⟨value, u, hvalue, h⟩
        · cases hf
          refine .inr ⟨⟨level, s, arg⟩, ?_, Int.not_lt.mp hl, p, hanswer⟩
          rw [escapes_escape _ _ hs]
          exact List.mem_cons_self
        · obtain ⟨hinsertion, rfl⟩ := gives_ofExcept.mp h
          exact .inl ⟨level, _, .here, .insertion hs hl hvalue hinsertion.symm⟩
  | template arg ih =>
      by_cases hl : site.maxNesting < level + 1
      · rw [build_tooNested site resolver level arg hl] at h
        cases (gives_throw.mp h).1
        exact .inl ⟨level, _, .here, .tooNested hl⟩
      · rw [build_template site resolver level arg (by omega)] at h
        rcases ih (gives_bind_pure_error.mp h) with ⟨k, v, hvisits, hfails⟩ | ⟨e, he, hrest⟩
        · exact .inl ⟨k, v, .template hvisits, hfails⟩
        · refine .inr ⟨e, ?_, hrest⟩
          rw [escapes_template]
          exact he
  | malformed s args hs hn _ =>
      rw [build_malformed site resolver level hs hn] at h
      cases (gives_throw.mp h).1
      exact .inl ⟨level, _, .here, .malformed hs hn⟩
  | plain items hi ih =>
      rw [build_plain site resolver level hi] at h
      obtain ⟨t, ht, p', hgives⟩ :=
        exists_mem_of_gives_buildItems_error (gives_bind_pure_error.mp h)
      rcases ih t ht hgives with ⟨k, v, hvisits, hfails⟩ | ⟨e, he, hrest⟩
      · exact .inl ⟨k, v, .item hi ht hvisits, hfails⟩
      · refine .inr ⟨e, ?_, hrest⟩
        rw [escapes_plain _ hi]
        exact List.mem_flatMap.mpr ⟨t, ht, he⟩

/-- The expressions that resolving an expression comes to: the arguments of a helper, and the
expressions of the escapes of level one of a template. -/
inductive Meets : Value → Value → Prop
  | here {expr : Value} : Meets expr expr
  | argument {s : Symbol} {args : List Value} {arg e : Value} : s ≠ .quote → s ≠ .syntaxQuote →
      arg ∈ args → Meets arg e → Meets (.list (.sym s :: args)) e
  | escape {t v : Value} {e : Escape} : e ∈ escapes 1 t → e.level ≤ 1 → Meets e.arg v →
      Meets (.list [.sym .syntaxQuote, t]) v

theorem Meets.trans {expr e e' : Value} (h : Meets expr e) (h' : Meets e e') : Meets expr e' := by
  induction h with
  | here => exact h'
  | argument hq ht harg _ ih => exact .argument hq ht harg (ih h')
  | escape he hl _ ih => exact .escape he hl (ih h')

/-- What an expression fails with by itself, and in which state: neither because of an argument nor
because of the expression of an escape. -/
inductive Fails (site : Site m) (q : RenameTable × State m) : Value → Failure → Prop
  | parameter {s : Symbol} : Fails site q (.sym s) (.naming (.notParameter s site.macroName))
  | count {s : Symbol} {args : List Value} :
      Fails site q (.list (.sym s :: args)) (.malformed (.argumentCount s.text 1))
  | stray {s : Symbol} {args : List Value} :
      Fails site q (.list (.sym s :: args)) (.malformed (.strayEscape s))
  | helper {s : Symbol} {args : List Value} :
      Fails site q (.list (.sym s :: args)) (.naming (.notHelper s.text))
  | head {head : Value} {args : List Value} {text : String} :
      head.written Value.plain = .ok text →
      Fails site q (.list (head :: args)) (.naming (.notHelper text))
  | unwritable {head : Value} {args : List Value} {f : Failure} :
      head.written Value.plain = .error f → Fails site q (.list (head :: args)) f
  | call {s : Symbol} {args values : List Value} {helper : Helper} {f : Failure}
      {p u : RenameTable × State m} : s ≠ .quote → s ≠ .syntaxQuote → s.isQualified = false →
      site.helpers.find? s.name = some helper →
      Gives (resolveArguments site args) p (.ok values) u →
      Gives (helper.call values : Building m Value) u (.error f) q →
      Fails site q (.list (.sym s :: args)) f
  | template {t v : Value} {k : Int} {f : Failure} : Visits 1 t k v →
      FailsAt site .macroTime q k v f → Fails site q (.list [.sym .syntaxQuote, t]) f

theorem exists_mem_of_gives_resolveArguments_error {args : List Value}
    (h : Gives (resolveArguments site args) p (.error f) q) :
    ∃ arg ∈ args, ∃ p, Gives (resolve site arg) p (.error f) q := by
  induction args generalizing p with
  | nil =>
      rw [resolveArguments] at h
      cases (gives_pure.mp h).1
  | cons arg args ih =>
      rw [resolveArguments] at h
      rcases gives_bind.mp h with ⟨f', harg, hf⟩ | ⟨v, u, -, h⟩
      · cases hf
        exact ⟨arg, by simp, p, harg⟩
      · obtain ⟨w, hw, hgives⟩ := ih (gives_bind_pure_error.mp h)
        exact ⟨w, by simp [hw], hgives⟩

theorem gives_resolve_list_error {items : List Value}
    (h : Gives (resolve site (.list items)) p (.error f) q) :
    Fails site q (.list items) f ∨
      (∃ t, items = [.sym .syntaxQuote, t] ∧ Gives (build site .macroTime 1 t) p (.error f) q) ∨
        ∃ s args arg, items = .sym s :: args ∧ s ≠ .quote ∧ s ≠ .syntaxQuote ∧ arg ∈ args ∧
          ∃ p, Gives (resolve site arg) p (.error f) q := by
  rcases items with _ | ⟨head, args⟩
  · rw [resolve] at h
    cases (gives_pure.mp h).1
  cases head with
  | sym s =>
      rw [resolve.eq_def] at h
      dsimp only at h
      split at h
      · rename_i hs
        split at h
        · split at h
          · cases (gives_pure.mp h).1
          · obtain rfl := hs.resolve_left ‹_›
            exact .inr (.inl ⟨_, rfl, h⟩)
        · cases (gives_throw.mp h).1
          exact .inl .count
      · rename_i hs
        rw [not_or] at hs
        split at h
        · cases (gives_throw.mp h).1
          exact .inl .stray
        · split at h
          · rename_i helper heq
            have hqualified : s.isQualified = false := by
              cases hq : s.isQualified with
              | false => rfl
              | true => simp [hq] at heq
            rw [hqualified] at heq
            rcases gives_bind.mp h with ⟨f', hargs, hf⟩ | ⟨values, u, hvalues, h⟩
            · cases hf
              obtain ⟨arg, harg, hgives⟩ := exists_mem_of_gives_resolveArguments_error hargs
              exact .inr (.inr ⟨s, args, arg, rfl, hs.1, hs.2, harg, hgives⟩)
            · exact .inl (.call hs.1 hs.2 hqualified heq hvalues h)
          · cases (gives_throw.mp h).1
            exact .inl .helper
  | _ =>
      simp only [resolve] at h
      rcases gives_bind.mp h with ⟨f', hhead, hf⟩ | ⟨text, u, hhead, h⟩
      · cases hf
        exact .inl (.unwritable (gives_ofExcept.mp hhead).1.symm)
      · cases (gives_throw.mp h).1
        exact .inl (.head (gives_ofExcept.mp hhead).1.symm)

/-- If resolving an expression fails, then one of the expressions that it comes to fails by itself.
-/
theorem exists_meets_of_gives_error [LawfulMonad m] {expr : Value}
    (h : Gives (resolve site expr) p (.error f) q) : ∃ e, Meets expr e ∧ Fails site q e f := by
  induction hn : sizeOf expr using Nat.strongRecOn generalizing expr p with
  | ind n ih =>
      subst hn
      cases expr with
      | sym s =>
          rw [resolve.eq_def] at h
          dsimp only at h
          split at h
          · cases (gives_pure.mp h).1
          · cases (gives_throw.mp h).1
            exact ⟨_, .here, .parameter⟩
      | list items =>
          rcases gives_resolve_list_error h with hfails | ⟨t, rfl, h⟩ |
            ⟨s, args, arg, rfl, hq, ht, harg, p', h⟩
          · exact ⟨_, .here, hfails⟩
          · rcases failsWithin_of_gives_build h with ⟨k, v, hvisits, hfails⟩ |
              ⟨e, he, hl, p', h⟩
            · exact ⟨_, .here, .template hvisits hfails⟩
            · have hsize : sizeOf e.arg < sizeOf (Value.list [.sym .syntaxQuote, t]) :=
                Nat.lt_trans (sizeOf_arg_lt_of_mem_escapes he)
                  (Value.sizeOf_lt_of_mem_list (by simp))
              obtain ⟨e', hmeets, hfails⟩ := ih _ hsize h rfl
              exact ⟨e', .escape he hl hmeets, hfails⟩
          · have harg' : arg ∈ Value.sym s :: args := by simp [harg]
            obtain ⟨e, hmeets, hfails⟩ := ih _ (Value.sizeOf_lt_of_mem_list harg') h rfl
            exact ⟨e, .argument hq ht harg hmeets, hfails⟩
      | _ =>
          simp only [resolve] at h
          cases (gives_pure.mp h).1

end Template

end Quasiquote
