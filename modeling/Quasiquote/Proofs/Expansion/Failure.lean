import Quasiquote.Proofs.Expansion.Once
import Quasiquote.Proofs.Template.Failure
import Quasiquote.Proofs.Template.Refusal

namespace Quasiquote

open Stateful Template

theorem Symbol.eq_bare_of_isQualified {s : Symbol} (h : s.isQualified = false) :
    s = ⟨s.name, none⟩ := by
  rcases s with ⟨name, _ | ns⟩
  · rfl
  · cases h

theorem Allocator.gives_fresh_error {lead : String} {a b : Allocator} {f : Failure}
    (h : Gives (m := StateM Allocator) (fresh lead) a (.error f) b) :
    f = .unwritable ∧ a.isWritable = false := by
  obtain ⟨hf, -⟩ := Allocator.gives_issue.mp h
  split at hf
  · exact nomatch hf
  · rename_i ha
    cases hf
    exact ⟨rfl, Bool.eq_false_iff.mpr ha⟩

theorem gives_qualify_error {ns : StateM Allocator Namespace} {s : Symbol} {f : Failure}
    {p q : RenameTable × Allocator}
    (h : Gives (m := StateT RenameTable (StateM Allocator)) (qualify ns s) p (.error f) q) :
    ∃ lead, Gives (m := StateM Allocator) (fresh lead) p.2 (.error f) q.2 := by
  unfold qualify at h
  split at h
  · rcases gives_renamed.mp h with ⟨_, -, hf, -⟩ | ⟨-, ⟨f', hname, hf, -⟩ | ⟨_, _, -, hf, -⟩⟩
    · exact nomatch hf
    · cases hf
      exact ⟨_, hname⟩
    · exact nomatch hf
  · split at h
    · exact nomatch (gives_pure.mp h).1
    · obtain ⟨_, _, -, hf⟩ := Building.gives_perform_bind.mp h
      exact nomatch (gives_pure.mp hf).1

namespace Failure

/-- What a failure was when it failed for the first time. -/
def original : Failure → Failure
  | .again _ f => f.original
  | f => f

theorem original_locate (name : String) (call : Value) (f : Failure) :
    (f.locate name call).original = f.original.locate name call := by
  induction f using againInduction with
  | again id f ih => rw [locate, original, original, ih]
  | other f hf =>
      cases f with
      | again id f => exact absurd rfl (hf id f)
      | _ => rfl

theorem isExpansion_locate (name : String) (call : Value) (f : Failure) :
    (f.locate name call).isExpansion = f.isExpansion := by
  induction f using againInduction with
  | again id f ih => rw [locate, isExpansion, isExpansion, ih]
  | other f hf =>
      cases f with
      | again id f => exact absurd rfl (hf id f)
      | _ => rfl

theorem exists_original_of_isExpansion {f : Failure} (h : f.isExpansion = true) :
    ∃ macroName node fault, f.original = .expansion macroName node fault := by
  induction f using againInduction with
  | again id f ih => exact ih h
  | other f hf =>
      cases f with
      | again id f => exact absurd rfl (hf id f)
      | expansion macroName node fault => exact ⟨macroName, node, fault, rfl⟩
      | _ => exact nomatch h

end Failure

namespace Template

/-- Resolving an expression comes to a call of a helper, with these values of its arguments. -/
def CallsHelper {m : Type → Type} [Monad m] [MonadFresh m] [Stateful m] (site : Site m)
    (expr : Value) (name : String) (values : List Value) : Prop :=
  ∃ args p q, Meets expr (.list (.sym ⟨name, none⟩ :: args)) ∧
    Gives (resolveArguments site args) p (.ok values) q

variable {site : Site (StateM Allocator)} {q : RenameTable × Allocator} {f : Failure}

/-- A helper of a host fails that resolving an expression comes to. -/
def Reports (site : Site (StateM Allocator)) (expr : Value) (f : Failure) : Prop :=
  ∃ name values call, CallsHelper site expr name values ∧
    site.helpers.find? name = some (.host call) ∧ (call values).Ends (.error f)

/-- The failures of expansion that a template has: a splice of no sequence, and a nested template
beyond the limit. They name the form of the template. -/
inductive Misplaces (site : Site (StateM Allocator)) (t : Value) : Value → ExpansionFault → Prop
  | splice {arg value : Value} {p q : RenameTable × Allocator} :
      Visits 1 t 1 (.list [.sym .unquoteSplicing, arg]) →
      Gives (m := StateT RenameTable (StateM Allocator)) (resolve site arg) p (.ok value) q →
      value.sequence? = none →
      Misplaces site t (.list [.sym .unquoteSplicing, arg]) (.malformedSplice value)
  | nesting {k : Int} {arg : Value} : Visits 1 t k (.list [.sym .syntaxQuote, arg]) →
      site.maxNesting < k + 1 →
      Misplaces site t (.list [.sym .syntaxQuote, arg]) (.tooNested (k + 1))

theorem insertion_eq_error {s : Symbol} {form value : Value} (hs : s.IsEscape)
    (h : insertion site s form value = .error f) :
    s = .unquoteSplicing ∧ value.sequence? = none ∧
      (f = .expansion site.macroName (some form) (.malformedSplice value) ∨
        f = .unwritable ∧ value.isWritable = false) := by
  rcases hs with rfl | rfl
  · rw [insertion_unquote] at h
    exact nomatch h
  · rw [insertion_unquoteSplicing] at h
    split at h
    · exact nomatch h
    · rename_i hnone
      split at h
      · cases h
        exact ⟨rfl, hnone, .inl rfl⟩
      · rename_i hvalue
        cases h
        exact ⟨rfl, hnone, .inr ⟨rfl, Bool.eq_false_iff.mpr hvalue⟩⟩

theorem misplaces_of_failsAt {t v : Value} {k : Int} (hvisits : Visits 1 t k v)
    (h : FailsAt site .macroTime q k v f) (hf : f.isExpansion = true) :
    ∃ form fault, Misplaces site t form fault ∧
      f = .expansion site.macroName (some form) fault := by
  cases h with
  | name hname =>
      obtain ⟨lead, hfresh⟩ := gives_qualify_error hname
      obtain ⟨rfl, -⟩ := Allocator.gives_fresh_error hfresh
      exact nomatch hf
  | insertion hs hl hvalue hinsertion =>
      obtain ⟨rfl, hnone, rfl | ⟨rfl, -⟩⟩ := insertion_eq_error hs hinsertion
      · have hone : k = 1 := by
          have := hvisits.one_le (Int.le_refl 1)
          omega
        subst hone
        exact ⟨_, _, .splice hvisits hvalue hnone, rfl⟩
      · exact nomatch hf
  | tooNested hlimit => exact ⟨_, _, .nesting hvisits hlimit, rfl⟩
  | malformed => exact nomatch hf

theorem expansion_of_fails {expr e : Value} (hmeets : Meets expr e) (h : Fails site q e f)
    (hf : f.isExpansion = true) :
    Reports site expr f ∨
      ∃ t form fault, e = .list [.sym .syntaxQuote, t] ∧ Misplaces site t form fault ∧
        f = .expansion site.macroName (some form) fault := by
  cases h with
  | unwritable hhead =>
      obtain ⟨rfl, -⟩ := Value.written_eq_error hhead
      exact nomatch hf
  | @call s args values helper _ p u _ _ hqualified hhelper hvalues hcall =>
      rcases Helper.refuses_of_gives_call hcall with hrefuses | ⟨lead, a, hname⟩
      · cases hrefuses with
        | host hends =>
            rw [Symbol.eq_bare_of_isQualified hqualified] at hmeets
            exact .inl ⟨s.name, values, _, ⟨args, p, u, hmeets, hvalues⟩, hhelper, hends⟩
        | _ => exact nomatch hf
      · obtain ⟨rfl, -⟩ := Allocator.gives_fresh_error hname
        exact nomatch hf
  | template hvisits hfails =>
      obtain ⟨form, fault, hmisplaces, rfl⟩ := misplaces_of_failsAt hvisits hfails hf
      exact .inr ⟨_, form, fault, rfl, hmisplaces, rfl⟩
  | _ => exact nomatch hf

end Template

namespace Expander

variable {e : Expander} {caller : Option Namespace} {m : Macro} {form : Value}
variable {s t : ExpansionState} {f : Failure}

theorem gives_finished_error {v : Value}
    (h : Gives (m := StateM ExpansionState) (finished m v) s (.error f) t) :
    f = .unwritable ∧ s.log.traced = true ∧ v.sequenced.isWritable = false := by
  obtain ⟨u, -, hu⟩ := exists_gives_finished m v s
  obtain ⟨hr, -⟩ := Prod.mk.inj (hu.symm.trans h)
  split at hr
  · rename_i htraced
    cases hr
    simpa using htraced
  · exact nomatch hr

/-- The arguments of a call are bound to the parameters of a macro. -/
def Binds (m : Macro) (form : Value) (bound : Table String Value) : Prop :=
  ∃ name args, form = .list (.sym name :: args) ∧ bindings m form args = .ok bound

/-- Why the expansion of a call fails. -/
theorem exists_cause_of_gives_expandOnce (hm : e.macroFor caller form = some m)
    (h : Gives (m := StateM ExpansionState) (e.expandOnce caller form) s (.error f) t) :
    (∃ got, f = .expansion (some m.name) (some form)
      (.arity m.parameters.least m.parameters.most got)) ∨
    ∃ bound, Binds m form bound ∧
      ((∃ table v f', Meets m.body v ∧ Fails (e.site m bound) (table, t.allocator) v f' ∧
          f = f'.locate m.name form) ∨
        f = .unwritable ∧ s.log.traced = true ∧ ∃ v a,
          Gives (m := StateM Allocator) (e.resolveBody m bound) s.allocator (.ok v) a ∧
            v.sequenced.isWritable = false) := by
  obtain ⟨name, args, rfl, -, hcall⟩ := exists_of_macroFor hm
  rw [hcall] at h
  cases hb : bindings m (.list (.sym name :: args)) args with
  | error f' =>
      obtain ⟨hf, -⟩ := (gives_expandCall_error hb).mp h
      cases hf
      unfold bindings at hb
      dsimp only at hb
      split at hb
      · exact nomatch hb
      · cases hb
        exact .inl ⟨_, rfl⟩
  | ok bound =>
      refine .inr ⟨bound, ⟨name, args, rfl, hb⟩, ?_⟩
      rcases (gives_expandCall hb).mp h with ⟨f', a, hbody, hf, rfl⟩ | ⟨v, a, hbody, hfinished⟩
      · cases hf
        obtain ⟨table, hresolve⟩ := Building.gives_runFrom.mp hbody
        obtain ⟨v, hmeets, hfails⟩ := exists_meets_of_gives_error hresolve
        exact .inl ⟨table, v, f', hmeets, hfails, rfl⟩
      · obtain ⟨rfl, htraced, hv⟩ := gives_finished_error hfinished
        exact .inr ⟨rfl, htraced, v, a, hbody, hv⟩

/-- If a call of a macro fails with a failure of expansion, this names a macro and a node. They are the
macro and the call if the arguments do not fit the macro, and if a helper of a host reports a failure
without them. In the other two cases the failure names the macro and a form of a template that the
body comes to: a splicing escape of level one whose answer is no sequence, or a nested template beyond
the limit. -/
theorem expansion_failure_located (hm : e.macroFor caller form = some m)
    (h : Gives (m := StateM ExpansionState) (e.expandOnce caller form) s (.error f) t)
    (hf : f.isExpansion = true) :
    ∃ name node fault, f.original = .expansion (some name) (some node) fault ∧
      ((f = .expansion (some m.name) (some form) fault ∧
          ∃ got, fault = .arity m.parameters.least m.parameters.most got) ∨
        (∃ bound g given place, Binds m form bound ∧ Reports (e.site m bound) m.body g ∧
          g.original = .expansion given place fault ∧ f = g.locate m.name form ∧
            name = given.getD m.name ∧ node = place.getD form) ∨
        f = .expansion (some m.name) (some node) fault ∧ ∃ bound template, Binds m form bound ∧
          Meets m.body (.list [.sym .syntaxQuote, template]) ∧
            Misplaces (e.site m bound) template node fault) := by
  rcases exists_cause_of_gives_expandOnce hm h with
    ⟨got, rfl⟩ | ⟨bound, hbinds, ⟨table, v, f', hmeets, hfails, rfl⟩ | ⟨rfl, -⟩⟩
  · exact ⟨m.name, form, _, rfl, .inl ⟨rfl, got, rfl⟩⟩
  · rw [Failure.isExpansion_locate] at hf
    rcases expansion_of_fails hmeets hfails hf with
      hreports | ⟨template, node, fault, rfl, hmisplaces, rfl⟩
    · obtain ⟨given, place, fault, horiginal⟩ := Failure.exists_original_of_isExpansion hf
      refine ⟨given.getD m.name, place.getD form, fault, ?_,
        .inr (.inl ⟨bound, f', given, place, hbinds, hreports, horiginal, rfl, rfl, rfl⟩)⟩
      rw [Failure.original_locate, horiginal]
      cases given <;> cases place <;> rfl
    · exact ⟨m.name, node, fault, rfl,
        .inr (.inr ⟨rfl, bound, template, hbinds, hmeets, hmisplaces⟩)⟩
  · exact nomatch hf

/-- The macro `m` with the parameter `x` and the template `(a ~@x)`. -/
def splicingMacro : Macro :=
  ⟨"m", ⟨["x"], none, List.pairwise_singleton _ "x"⟩,
    .list [.sym .syntaxQuote, .list [.bare "a", .list [.sym .unquoteSplicing, .bare "x"]]], "u"⟩

theorem expansion_failure_located_arity :
    ∃ f t,
      Gives (m := StateM ExpansionState)
        ((only splicingMacro).expandOnce none (.list [.bare "m"])) ({} : ExpansionState)
          (.error f) t ∧
      f.isExpansion = true ∧
        ∃ fault, f = .expansion (some "m") (some (.list [.bare "m"])) fault := by
  have h : Gives (m := StateM ExpansionState)
      ((only splicingMacro).expandOnce none (.list [.bare "m"])) ({} : ExpansionState)
        (.error (.expansion (some "m") (some (.list [.bare "m"])) (.arity 1 (some 1) 0)))
          ({} : ExpansionState) := rfl
  obtain ⟨name, node, fault, -, ⟨hf, -⟩ | ⟨_, _, _, _, -, hreports, -⟩ | ⟨hf, _, _, -, -, hmisplaces⟩⟩ :=
    expansion_failure_located (by rfl) h rfl
  · exact ⟨_, _, h, rfl, fault, hf⟩
  · obtain ⟨_, _, _, -, hhost, -⟩ := hreports
    exact nomatch Helper.isHost_of_builtin hhost
  · obtain ⟨-, -, hfault⟩ := Failure.expansion.inj hf
    cases hmisplaces with
    | splice => exact nomatch hfault
    | nesting => exact nomatch hfault

/-- `(m y)` splices a symbol, and the failure names the escape instead of the call. -/
theorem not_located_splice :
    ¬∀ (e : Expander) (caller : Option Namespace) (m : Macro) (form : Value) (s t : ExpansionState)
      (f : Failure), e.macroFor caller form = some m →
      Gives (m := StateM ExpansionState) (e.expandOnce caller form) s (.error f) t →
      f.isExpansion = true → ∃ fault, f = .expansion (some m.name) (some form) fault := by
  intro h
  have hfailed : Gives (m := StateM ExpansionState)
      ((only splicingMacro).expandOnce none (.list [.bare "m", .bare "y"])) ({} : ExpansionState)
        (.error (.expansion (some "m") (some (.list [.sym .unquoteSplicing, .bare "x"]))
          (.malformedSplice (.bare "y")))) ({} : ExpansionState) := rfl
  obtain ⟨fault, hf⟩ := h _ none splicingMacro (.list [.bare "m", .bare "y"]) _ _ _ rfl hfailed rfl
  obtain ⟨-, hnode, -⟩ := Failure.expansion.inj hf
  simp [Value.bare, Symbol.unquoteSplicing] at hnode

end Expander

end Quasiquote
