import Quasiquote.Proofs.Evaluation.Congruence
import Quasiquote.Proofs.Evaluation.Template

namespace Quasiquote.Evaluation

variable {α β : Type}

/-- Building something from a table of renamings. -/
def weaving (x : Building (StateT Session Option) α) (table : RenameTable) :
    Evaluating (Except Failure α × RenameTable) := ExceptT.mk do pure (.ok (← x.run.run table))

theorem weaving_bind (x : Building (StateT Session Option) α)
    (f : α → Building (StateT Session Option) β) (table : RenameTable) :
    weaving (x >>= f) table = weaving x table >>= fun p => match p.1 with
      | .ok a => weaving (f a) p.2
      | .error e => pure (.error e, p.2) := by
  funext s
  change Option.bind (Option.bind (x table s) fun p => _) _ =
    Option.bind (Option.bind (x table s) fun p => _) _
  cases x table s with
  | none => rfl
  | some p =>
      obtain ⟨⟨r, table'⟩, t⟩ := p
      cases r <;> rfl

theorem weaving_performFailing (x : Evaluating α) (table : RenameTable) :
    weaving (Building.performFailing x) table = x.outcome >>= fun r => pure (r, table) := by
  funext s
  change Option.bind (Option.bind (x s) fun p => _) _ = Option.bind (Option.bind (x s) fun p => _) _
  cases x s <;> rfl

theorem runFrom_eq_weaving (x : Building (StateT Session Option) α) (table : RenameTable) :
    x.runFrom table = weaving x table >>= fun p => MonadExcept.ofExcept p.1 := by
  funext s
  change Option.bind (x table s) _ = Option.bind (Option.bind (x table s) fun p => _) _
  cases x table s with
  | none => rfl
  | some p =>
      obtain ⟨⟨r, table'⟩, t⟩ := p
      cases r <;> rfl

variable {ι : Type} {Change : (Session → Session) → Prop}
variable {P : ∀ α : Type, (ι → Evaluating α) → Prop}

/-- A predicate holds of building, whatever has been renamed before. -/
def Woven (P : ∀ α : Type, (ι → Evaluating α) → Prop) (α : Type)
    (x : ι → Building (StateT Session Option) α) : Prop :=
  ∀ table, P (Except Failure α × RenameTable) fun i => weaving (x i) table

section

variable (hP : Closed Change P)
include hP

theorem woven_pure (a : α) : Woven P α fun _ => pure a :=
  fun table => hP.pure (Except.ok a, table)

theorem woven_throw (f : Failure) : Woven P α fun _ => throw f :=
  fun table => hP.pure (Except.error f, table)

theorem woven_bind {x : ι → Building (StateT Session Option) α}
    {f : ι → α → Building (StateT Session Option) β} (hx : Woven P α x)
    (hf : ∀ a, Woven P β fun i => f i a) : Woven P β fun i => x i >>= f i := by
  intro table
  simp only [weaving_bind]
  refine hP.bind (hx table) fun p => ?_
  cases p.1 with
  | ok a => exact hf a p.2
  | error e => exact hP.pure _

theorem woven_ofExcept (r : Except Failure α) : Woven P α fun _ => MonadExcept.ofExcept r := by
  cases r with
  | ok a => exact woven_pure hP a
  | error f => exact woven_throw hP f

theorem woven_performFailing {x : ι → Evaluating α} (hx : P α x) :
    Woven P α fun i => Building.performFailing (x i) := by
  intro table
  simp only [weaving_performFailing]
  exact hP.bind (hP.outcome hx) fun r => hP.pure _

theorem woven_get : Woven P RenameTable fun _ => get :=
  fun table => hP.pure (Except.ok table, table)

theorem woven_modify (f : RenameTable → RenameTable) : Woven P PUnit fun _ => modify f :=
  fun table => hP.pure (Except.ok PUnit.unit, f table)

theorem woven_ns (s : Session) : Woven P Namespace fun _ => Building.perform (templateSite s).ns :=
  fun table => hP.bind hP.get fun t =>
    hP.pure (Except.ok (t.expander.namespaceNamed s.current), table)

variable {ev : ι → Evaluator} {locals : ι → List Frame} {s : Session}

theorem woven_buildItems {level : Int} {items : List Value}
    (h : ∀ t ∈ items, Woven P Value fun i =>
      Template.build (templateSite s) (templateResolver (ev i) (locals i)) level t) :
    Woven P (List Value) fun i =>
      Template.buildItems (templateSite s) (templateResolver (ev i) (locals i)) level items := by
  induction items with
  | nil => exact woven_pure hP []
  | cons t rest ih =>
      simp only [Template.buildItems]
      apply woven_bind hP (h t (by simp))
      intro tree
      apply woven_bind hP (ih fun w hw => h w (by simp [hw]))
      intro trees
      exact woven_pure hP _

variable (hfresh : ∀ lead, P String fun _ => (fresh lead : Evaluating String))
include hfresh

theorem woven_qualify (s : Session) (name : Symbol) :
    Woven P Symbol fun _ => qualify (templateSite s).ns name := by
  unfold qualify
  split
  · apply woven_bind hP (woven_get hP)
    intro table
    cases table.find? name.name with
    | some known => exact woven_pure hP known
    | none =>
        apply woven_bind hP (woven_performFailing hP (hfresh _))
        intro renamed
        refine woven_bind hP (woven_modify hP _) ?_
        intro _
        exact woven_pure hP _
  · split
    · exact woven_pure hP name
    · exact woven_bind hP (woven_ns hP s) fun _ => woven_pure hP _

theorem woven_build (t : Value) :
    ∀ level, (∀ e ∈ Template.escapes level t, ¬1 < e.level → P Value fun i => ev i (locals i) e.arg) →
      Woven P Value fun i =>
        Template.build (templateSite s) (templateResolver (ev i) (locals i)) level t := by
  induction t using Template.induction with
  | atom t ht =>
      intro level _
      simp only [Template.build_atom _ _ level ht]
      exact woven_pure hP t
  | symbol name =>
      intro level _
      simp only [Template.build_symbol]
      exact woven_bind hP (woven_qualify hP hfresh s name) fun _ => woven_pure hP _
  | escape head arg hs ih =>
      intro level h
      rw [Template.escapes_escape level arg hs] at h
      by_cases hl : 1 < level
      · rw [if_pos hl] at h
        simp only [Template.build_kept _ _ level arg hs hl]
        exact woven_bind hP (ih _ fun e he => h e (List.mem_cons_of_mem _ he)) fun _ =>
          woven_pure hP _
      · have harg : P Value fun i => ev i (locals i) arg := h _ List.mem_cons_self hl
        simp only [Template.build_answered _ _ level arg hs hl]
        exact woven_bind hP (woven_performFailing hP harg) fun _ => woven_ofExcept hP _
  | template arg ih =>
      intro level h
      rw [Template.escapes_template] at h
      by_cases hl : (templateSite s).maxNesting < level + 1
      · simp only [Template.build_tooNested _ _ level arg hl]
        exact woven_throw hP _
      · simp only [Template.build_template _ _ level arg (Int.not_lt.mp hl)]
        exact woven_bind hP (ih _ h) fun _ => woven_pure hP _
  | malformed head args hs hn _ =>
      intro level _
      simp only [Template.build_malformed _ _ level hs hn]
      exact woven_throw hP _
  | plain items hi ih =>
      intro level h
      rw [Template.escapes_plain level hi] at h
      have hitems : ∀ t ∈ items, Woven P Value fun i =>
          Template.build (templateSite s) (templateResolver (ev i) (locals i)) level t :=
        fun t ht => ih t ht level fun e he => h e (List.mem_flatMap.mpr ⟨t, ht, he⟩)
      simp only [Template.build_plain _ _ level hi]
      exact woven_bind hP (woven_buildItems hP hitems) fun _ => woven_pure hP _

theorem evalTemplate_of_fresh {t : Value}
    (h : ∀ e ∈ Template.escapes 1 t, ¬1 < e.level → P Value fun i => ev i (locals i) e.arg) :
    P Value fun i => evalTemplate (ev i) (locals i) [t] := by
  have hbuild (s : Session) : P Value fun i =>
      (Template.build (templateSite s) (templateResolver (ev i) (locals i)) 1 t).runFrom
        Table.empty := by
    simp only [runFrom_eq_weaving]
    exact hP.bind (woven_build hP hfresh t 1 h Table.empty) fun p => hP.ofExcept p.1
  simp only [evalTemplate, only, pure_bind]
  apply hP.bind hP.get
  intro s
  apply hP.bind (hbuild s)
  intro tree
  exact hP.pure _

theorem evalLevelBy_of_fresh (call : Calling) (ev again : ι → Evaluator) (locals : ι → List Frame)
    (tree : Value)
    (hchange : ∀ form, SpecialForm.heading? tree = some form → form.ChangesBy Change)
    (hlookup : ∀ s, tree = .sym s → P Value fun i => Evaluating.lookup (locals i) s)
    (h : ∀ inner : List Frame, (∀ frame ∈ inner, frame.IsBare) → ∀ w, tree.Encloses w →
      P Value fun i => ev i (inner ++ locals i) w)
    (hcall : ∀ f args, P Value fun i => call (locals i) f args)
    (ha : P Value fun i => again i (locals i) tree) :
    P Value fun i => evalLevelBy call (ev i) (again i) (locals i) tree := by
  refine hP.evalLevelBy call ev again locals hchange hlookup h hcall (fun s t heq hs => ?_) ha
  subst heq
  exact evalTemplate_of_fresh hP hfresh fun e he hlevel =>
    h [] nofun e.arg (Value.encloses_of_template hs he hlevel)

theorem evalLevel_of_fresh (ev again : ι → Evaluator) (locals : ι → List Frame) (tree : Value)
    (hchange : ∀ form, SpecialForm.heading? tree = some form → form.ChangesBy Change)
    (hlookup : ∀ s, tree = .sym s → P Value fun i => Evaluating.lookup (locals i) s)
    (h : ∀ inner : List Frame, (∀ frame ∈ inner, frame.IsBare) → ∀ w, tree.Encloses w →
      P Value fun i => ev i (inner ++ locals i) w)
    (ha : P Value fun i => again i (locals i) tree) :
    P Value fun i => evalLevel (ev i) (again i) (locals i) tree :=
  evalLevelBy_of_fresh hP hfresh _ ev again locals tree hchange hlookup h hP.call ha

/-- Inside the same frames, it is enough that the predicate holds of the evaluation of all smaller
trees. -/
theorem evalLevel_of_smaller (ev again : ι → Evaluator) {locals : List Frame} {tree : Value}
    (hchange : ∀ form : SpecialForm, form.ChangesBy Change)
    (h : ∀ locals form, sizeOf form < sizeOf tree → P Value fun i => ev i locals form)
    (ha : P Value fun i => again i locals tree) :
    P Value fun i => evalLevel (ev i) (again i) locals tree :=
  evalLevel_of_fresh hP hfresh ev again (fun _ => locals) tree (fun form _ => hchange form)
    (fun s _ => hP.lookup locals s) (fun inner _ w hw => h (inner ++ locals) w hw.sizeOf_lt) ha

end

end Quasiquote.Evaluation
