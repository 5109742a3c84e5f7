import Quasiquote.Proofs.Freshness.Name
import Quasiquote.Proofs.Simulation
import Quasiquote.Proofs.Template.Effect
import Quasiquote.Proofs.Text.Digit
import Quasiquote.Proofs.Value.Renaming

namespace Quasiquote

open Stateful Simulation

/-- A renaming adds a number to the numbers of all symbols that stand for marked names. -/
def Renaming.Shifts (ρ : Renaming) (offset : Int) : Prop :=
  ∀ (first : String) (k : Int), 0 ≤ k →
    ρ (.numbered (first ++ "__") k) = .numbered (first ++ "__") (k + offset)

theorem Allocator.isWritable_iff {a : Allocator} (h : 0 ≤ a.next) :
    a.isWritable = true ↔ a.next < Number.textBound := by
  have hnat : a.next < Number.textBound ↔ a.next.natAbs < Number.textBound := by omega
  rw [hnat, isWritable, decide_eq_true_eq]
  unfold Number.textBound
  -- The bound is not to be computed.
  generalize hlimit : 4300 = k
  exact Text.length_toDigits_le_iff (by omega)

/-- Allocators whose numbers differ by an offset. The numbers that they hand out can be written. -/
def Simulation.allocators (offset : Int) : Simulation (StateM Allocator) where
  Related (a b : Allocator) := 0 ≤ a.next ∧ 0 ≤ b.next ∧ b.next = a.next + offset
  Fits (a : Allocator) := a.next ≤ Number.textBound ∧ a.next + offset ≤ Number.textBound

/-- Builds whose allocators differ by an offset, with the same renamings up to a renaming. -/
def Simulation.builds (ρ : Renaming) (offset : Int) :
    Simulation (StateT RenameTable (StateM Allocator)) where
  Related (p q : RenameTable × Allocator) :=
    (∀ name, q.1.find? name = (p.1.find? name).map ρ) ∧
      (Simulation.allocators offset).Related p.2 q.2
  Fits (p : RenameTable × Allocator) := (Simulation.allocators offset).Fits p.2

/-- Sites that differ in the arguments of the macro call, those of the second being renamed. -/
structure Site.Renames {m : Type → Type} [Monad m] (ρ : Renaming) (site site' : Site m) : Prop where
  ns : ∃ ns, site.ns = pure ns ∧ site'.ns = pure ns
  maxNesting : site'.maxNesting = site.maxNesting
  helpers : site'.helpers = site.helpers
  bindings (name : String) :
    site'.bindings.find? name = (site.bindings.find? name).map (Value.rename ρ)

namespace Helper

/-- Whether a helper builds or takes apart sequences and integers only. One that a host adds has to
take no names and to give renamed results for renamed arguments. -/
def IsStructural : Helper → Prop
  | list | vec | concat | cons | first | rest | count | range | inc | dec => True
  | host call => ∀ (ρ : Renaming) args, ∃ r r', call args = .done r ∧
      call (args.map (Value.rename ρ)) = .done r' ∧ Corresponds (Value.rename ρ) r r'
  | _ => False

variable (ρ : Renaming)

theorem corresponds_written {α β : Type} {f : α → β} (v : Value) (e : String → Failure)
    (he : ∀ text text', (e text).kind = (e text').kind) :
    Corresponds f (do throw (e (← v.written Value.quoted)))
      (do throw (e (← (v.rename ρ).written Value.quoted))) := by
  unfold Value.written
  rw [v.isWritable_rename ρ]
  split
  · exact .error (he _ _)
  · exact .error rfl

theorem corresponds_sequence (who : String) (v : Value) :
    Corresponds (List.map (Value.rename ρ)) (sequence who v) (sequence who (v.rename ρ)) := by
  cases v with
  | nil => exact .ok []
  | list items =>
      rw [Value.rename_list]
      exact .ok items
  | tuple items =>
      rw [Value.rename_tuple]
      exact .ok items
  | splice items =>
      have h := corresponds_written ρ (f := List.map (Value.rename ρ)) (.splice items)
        (fun text => .typing (.notSequence who text)) fun _ _ => rfl
      rw [Value.rename_splice] at h ⊢
      exact h
  | _ => exact corresponds_written ρ _ (fun text => .typing (.notSequence who text)) fun _ _ => rfl

theorem corresponds_integer (who : String) (v : Value) :
    Corresponds id (integer who v) (integer who (v.rename ρ)) := by
  have typing {w : Value} (h : integer who w = do
      throw (.typing (.notInteger who (← w.written Value.quoted))))
      (h' : integer who (w.rename ρ) = do
        throw (.typing (.notInteger who (← (w.rename ρ).written Value.quoted)))) :
      Corresponds id (integer who w) (integer who (w.rename ρ)) := by
    rw [h, h']
    exact corresponds_written ρ w (fun text => .typing (.notInteger who text)) fun _ _ => rfl
  cases v with
  | num n =>
      cases n with
      | int n => exact .ok n
      | _ => exact typing rfl rfl
  | _ => exact typing rfl rfl

theorem corresponds_only (who : String) (args : List Value) :
    Corresponds (Value.rename ρ) (only who args) (only who (args.map (Value.rename ρ))) := by
  rcases args with _ | ⟨v, _ | ⟨w, args⟩⟩
  · exact .error rfl
  · exact .ok v
  · exact .error rfl

theorem corresponds_leading (args : List Value) :
    Corresponds (Value.rename ρ) (leading args) (leading (args.map (Value.rename ρ))) := by
  cases args with
  | nil => exact .error rfl
  | cons v args => exact .ok v

theorem headD_map (vs : List Value) :
    (vs.map (Value.rename ρ)).headD .nil = (vs.headD .nil).rename ρ := by
  cases vs <;> rfl

theorem corresponds_rangeOf (bounds : List Int) :
    Corresponds (Value.rename ρ) (rangeOf bounds) (rangeOf bounds) := by
  unfold rangeOf
  dsimp only
  split
  · exact .error rfl
  split
  · exact .error rfl
  split
  · exact .error rfl
  · have hlist := Corresponds.ok (f := Value.rename ρ) (.list ((integerRange (rangeBounds bounds).1
      (rangeBounds bounds).2.1 (rangeBounds bounds).2.2).map Value.int))
    rw [Value.rename_list, List.map_map] at hlist
    exact hlist

theorem corresponds_list (args : List Value) :
    Corresponds (Value.rename ρ) (.ok (.list args)) (.ok (.list (args.map (Value.rename ρ)))) := by
  have hlist := Corresponds.ok (f := Value.rename ρ) (.list args)
  rwa [Value.rename_list] at hlist

theorem corresponds_makeCons (args : List Value) :
    Corresponds (Value.rename ρ) (makeCons args) (makeCons (args.map (Value.rename ρ))) := by
  rcases args with _ | ⟨v, _ | ⟨vs, _ | ⟨w, args⟩⟩⟩
  · exact .error rfl
  · exact .error rfl
  · exact (corresponds_sequence ρ "cons" vs).map fun items =>
      (Value.rename_list ρ (v :: items)).symm
  · exact .error rfl

theorem corresponds_makeRange (args : List Value) :
    Corresponds (Value.rename ρ) (makeRange args) (makeRange (args.map (Value.rename ρ))) := by
  unfold makeRange
  rw [List.length_map, List.isEmpty_map]
  split
  · exact .error rfl
  · refine (Corresponds.mapM (corresponds_integer ρ "range") args).bind fun bounds => ?_
    rw [List.map_id]
    exact corresponds_rangeOf ρ bounds

theorem corresponds_headD (who : String) (args : List Value) :
    Corresponds (List.map (Value.rename ρ)) (sequence who (args.headD .nil))
      (sequence who ((args.map (Value.rename ρ)).headD .nil)) := by
  rw [headD_map]
  exact corresponds_sequence ρ who _

theorem corresponds_only_sequence (who : String) {k : List Value → Value}
    (hk : ∀ items, k (items.map (Value.rename ρ)) = (k items).rename ρ) (args : List Value) :
    Corresponds (Value.rename ρ) (do pure (k (← sequence who (← only who args))))
      (do pure (k (← sequence who (← only who (args.map (Value.rename ρ)))))) :=
  (corresponds_only ρ who args).bind fun v => (corresponds_sequence ρ who v).map hk

theorem corresponds_leading_integer (who : String) (k : Int → Int) (args : List Value) :
    Corresponds (Value.rename ρ) (do pure (.int (k (← integer who (← leading args)))))
      (do pure (.int (k (← integer who (← leading (args.map (Value.rename ρ))))))) :=
  (corresponds_leading ρ args).bind fun v => (corresponds_integer ρ who v).map fun _ => rfl

/-- Structural helpers do not see names. -/
theorem corresponds_course {h : Helper} (hh : h.IsStructural) (args : List Value) :
    ∃ r r', h.course args = .done r ∧ h.course (args.map (Value.rename ρ)) = .done r' ∧
      Corresponds (Value.rename ρ) r r' := by
  cases h with
  | list => exact ⟨_, _, rfl, rfl, corresponds_list ρ args⟩
  | vec =>
      exact ⟨_, _, rfl, rfl, corresponds_only_sequence ρ "vec"
        (fun items => (Value.rename_list ρ items).symm) args⟩
  | concat =>
      refine ⟨_, _, rfl, rfl, (Corresponds.mapM (corresponds_sequence ρ "concat") args).map
        fun parts => ?_⟩
      rw [Value.rename_list, List.map_flatten]
  | cons => exact ⟨_, _, rfl, rfl, corresponds_makeCons ρ args⟩
  | first => exact ⟨_, _, rfl, rfl, (corresponds_headD ρ "first" args).map (headD_map ρ)⟩
  | rest =>
      refine ⟨_, _, rfl, rfl, (corresponds_headD ρ "rest" args).map fun items => ?_⟩
      rw [Value.rename_list, List.map_tail]
  | count =>
      refine ⟨_, _, rfl, rfl, corresponds_only_sequence ρ "count" (fun items => ?_) args⟩
      rw [List.length_map]
      rfl
  | range => exact ⟨_, _, rfl, rfl, corresponds_makeRange ρ args⟩
  | inc => exact ⟨_, _, rfl, rfl, corresponds_leading_integer ρ "inc" (· + 1) args⟩
  | dec => exact ⟨_, _, rfl, rfl, corresponds_leading_integer ρ "dec" (· - 1) args⟩
  | host call => exact hh ρ args
  | _ => exact hh.elim

end Helper

variable {ρ : Renaming} {offset : Int}

theorem Allocator.fits_of_gives_issue {a b : Allocator} {lead : String}
    {r : Except Failure String} (h : Gives (m := StateM Allocator) (issue lead) a r b)
    (hfits : (allocators offset).Fits b) : (allocators offset).Fits a := by
  obtain ⟨-, rfl⟩ := gives_issue.mp h
  simp only [allocators] at hfits ⊢
  omega

theorem Allocator.exists_gives_issue {a b a' : Allocator} {lead : String}
    {r : Except Failure String} (h : Gives (m := StateM Allocator) (issue lead) a r b)
    (ha : (allocators offset).Related a a') (hfits : (allocators offset).Fits b) :
    0 ≤ a.next ∧ r = .ok (lead ++ toString a.next) ∧ ∃ b' : Allocator,
      (allocators offset).Related b b' ∧
        Gives (m := StateM Allocator) (issue lead) a' (.ok (lead ++ toString (a.next + offset)))
          b' := by
  obtain ⟨rfl, rfl⟩ := gives_issue.mp h
  simp only [allocators] at ha hfits ⊢
  rw [if_pos ((isWritable_iff ha.1).mpr (by omega)), ← ha.2.2]
  exact ⟨ha.1, rfl, ⟨a'.next + 1⟩, by simp only; omega,
    gives_issue_ok.mpr ⟨(isWritable_iff ha.2.1).mpr (by omega), rfl, rfl⟩⟩

theorem carries_renamed (hρ : ρ.Shifts offset) (s : Symbol) :
    (builds ρ offset).Carries ρ (renamed s) (renamed s) where
  moves p r q h hfits := by
    rcases gives_renamed.mp h with
      ⟨_, -, -, rfl⟩ | ⟨-, ⟨f, hfresh, -, -⟩ | ⟨name, t, hfresh, -, rfl⟩⟩
    · exact hfits
    · exact Allocator.fits_of_gives_issue hfresh hfits
    · exact Allocator.fits_of_gives_issue hfresh hfits
  follows {p p' q r} hp h hfits := by
    obtain ⟨htables, hallocators⟩ := hp
    rcases gives_renamed.mp h with
      ⟨known, hknown, rfl, rfl⟩ | ⟨hnone, ⟨f, hfresh, rfl, -⟩ | ⟨name, t, hfresh, rfl, rfl⟩⟩
    · refine ⟨.ok (ρ known), p', gives_renamed.mpr (.inl ⟨_, ?_, rfl, rfl⟩), .ok known,
        htables, hallocators⟩
      rw [htables, hknown, Option.map_some]
    · exact nomatch (Allocator.exists_gives_issue hfresh hallocators hfits).2.1
    · obtain ⟨hnonneg, hname, t', ht', hfresh'⟩ :=
        Allocator.exists_gives_issue hfresh hallocators hfits
      cases hname
      have hnumbered : ρ (.numbered (s.unmarkedName ++ "__") p.2.next) =
          .numbered (s.unmarkedName ++ "__") (p.2.next + offset) := hρ _ _ hnonneg
      refine ⟨_, _, gives_renamed.mpr (.inr ⟨?_, .inr ⟨_, t', hfresh', rfl, rfl⟩⟩), ?_, ?_, ht'⟩
      · rw [htables, hnone, Option.map_none]
      · have hok := Corresponds.ok (f := ρ) (.numbered (s.unmarkedName ++ "__") p.2.next)
        rw [hnumbered] at hok
        exact hok
      · intro name
        simp only [Table.find?_insert]
        split
        · exact congrArg some hnumbered.symm
        · exact htables name

theorem carries_qualify (hρ : ρ.Shifts offset) {site site' : Site (StateM Allocator)}
    (hsite : Site.Renames ρ site site') {s : Symbol} (hs : ¬s.HasRenameEnding) :
    (builds ρ offset).Carries ρ (qualify site.ns s) (qualify site'.ns s) := by
  obtain ⟨ns, hns, hns'⟩ := hsite.ns
  rw [hns, hns']
  have plain {r : Symbol} (hr : r.name = s.name) :
      (builds ρ offset).Carries ρ (pure r) (pure r) := by
    have hpure := carries_pure (S := builds ρ offset) (f := ρ) r
    have hfixed : ρ r = r := ρ.fixed (by rwa [Symbol.HasRenameEnding, hr])
    rwa [hfixed] at hpure
  unfold qualify
  split
  · exact carries_renamed hρ s
  split
  · exact plain rfl
  · exact plain (ns.name_resolve s)

theorem corresponds_insertion {site site' : Site (StateM Allocator)} {s : Symbol}
    {form form' value : Value} :
    Corresponds (Value.rename ρ) (Template.insertion site s form value)
      (Template.insertion site' s form' (value.rename ρ)) := by
  have splice (items : List Value) : Corresponds (Value.rename ρ) (.ok (.splice items))
      (.ok (.splice (items.map (Value.rename ρ)))) := by
    have h := Corresponds.ok (f := Value.rename ρ) (.splice items)
    rwa [Value.rename_splice] at h
  have malformed {v : Value} {site site' : Site (StateM Allocator)} : Corresponds (Value.rename ρ)
      (if v.isWritable then throw (.expansion site.macroName (some form) (.malformedSplice v))
        else throw .unwritable : Except Failure Value)
      (if (v.rename ρ).isWritable then
        throw (.expansion site'.macroName (some form') (.malformedSplice (v.rename ρ)))
        else throw .unwritable) := by
    rw [v.isWritable_rename ρ]
    split
    · exact .error rfl
    · exact .error rfl
  unfold Template.insertion
  split
  · rw [Value.single_rename]
    exact .ok value.single
  · cases value with
    | nil => exact splice []
    | list items =>
        rw [Value.rename_list]
        exact splice items
    | tuple items =>
        rw [Value.rename_tuple]
        exact splice items
    | splice items =>
        rw [Value.rename_splice]
        exact splice items
    | _ => exact malformed

namespace Template

/-- The helpers that are called when an expression is resolved. -/
inductive Calls (helpers : Table String Helper) : Value → Helper → Prop
  | call {s : Symbol} {args : List Value} {h : Helper} : ¬s.IsEscape → s ≠ .quote →
      s ≠ .syntaxQuote → s.isQualified = false → helpers.find? s.name = some h →
      Calls helpers (.list (.sym s :: args)) h
  | argument {s : Symbol} {args : List Value} {arg : Value} {h h' : Helper} : ¬s.IsEscape →
      s ≠ .quote → s ≠ .syntaxQuote → s.isQualified = false → helpers.find? s.name = some h' →
      arg ∈ args → Calls helpers arg h → Calls helpers (.list (.sym s :: args)) h
  | escape {t : Value} {e : Escape} {h : Helper} : e ∈ escapes 1 t → e.level ≤ 1 →
      Calls helpers e.arg h → Calls helpers (.list [.sym .syntaxQuote, t]) h

/-- Whether an expression calls structural helpers only when it is resolved. -/
def CallsStructural (helpers : Table String Helper) (expr : Value) : Prop :=
  ∀ h, Calls helpers expr h → h.IsStructural

/-- Whether the escapes of a template that are answered call structural helpers only. -/
def AnswersStructural (helpers : Table String Helper) (level : Int) (t : Value) : Prop :=
  ∀ e ∈ escapes level t, e.level ≤ 1 → CallsStructural helpers e.arg

variable {site site' : Site (StateM Allocator)}

theorem carries_resolveArguments {args : List Value}
    (h : ∀ v ∈ args, (builds ρ offset).Carries (Value.rename ρ) (resolve site v)
      (resolve site' v)) :
    (builds ρ offset).Carries (List.map (Value.rename ρ)) (resolveArguments site args)
      (resolveArguments site' args) := by
  induction args with
  | nil => exact carries_pure []
  | cons v vs ih =>
      rw [resolveArguments, resolveArguments]
      refine carries_bind (h v (by simp)) fun value => ?_
      refine carries_bind_pure (ih fun w hw => h w (by simp [hw])) fun values => ?_
      rw [Value.single_rename, List.map_cons]

theorem carries_buildItems {level : Int} {items : List Value}
    (h : ∀ v ∈ items, (builds ρ offset).Carries (Value.rename ρ) (build site .macroTime level v)
      (build site' .macroTime level v)) :
    (builds ρ offset).Carries (List.map (Value.rename ρ)) (buildItems site .macroTime level items)
      (buildItems site' .macroTime level items) := by
  induction items with
  | nil => exact carries_pure []
  | cons v vs ih =>
      rw [buildItems, buildItems]
      refine carries_bind (h v (by simp)) fun built => ?_
      refine carries_bind_pure (ih fun w hw => h w (by simp [hw])) fun values => ?_
      rw [Value.spread_rename, List.map_append]

theorem carries_call {h : Helper} (hh : h.IsStructural) (args : List Value) :
    (builds ρ offset).Carries (Value.rename ρ) (h.call args)
      (h.call (args.map (Value.rename ρ))) := by
  obtain ⟨r, r', hr, hr', hcorresponds⟩ := Helper.corresponds_course ρ hh args
  rw [Helper.call, Helper.call, hr, hr']
  exact carries_ofExcept hcorresponds

theorem carries_self {v : Value} (hv : ∀ s ∈ v.symbols, ¬s.HasRenameEnding) :
    (builds ρ offset).Carries (Value.rename ρ) (pure v) (pure v) := by
  have hpure := carries_pure (S := builds ρ offset) (f := Value.rename ρ) v
  rwa [Value.rename_eq_self ρ v hv] at hpure

/-- Whether what a value is built to, and what it is resolved to, is renamed with the arguments. -/
structure Carried (ρ : Renaming) (offset : Int) (site site' : Site (StateM Allocator)) (v : Value) :
    Prop where
  build (level : Int) : AnswersStructural site.helpers level v →
    (builds ρ offset).Carries (Value.rename ρ) (build site .macroTime level v)
      (build site' .macroTime level v)
  resolve : CallsStructural site.helpers v →
    (builds ρ offset).Carries (Value.rename ρ) (resolve site v) (resolve site' v)

theorem carried_atom {v : Value} (h : v.IsAtom) (hv : ∀ s ∈ v.symbols, ¬s.HasRenameEnding) :
    Carried ρ offset site site' v where
  build level _ := by
    rw [build_atom _ _ level h, build_atom _ _ level h]
    exact carries_self hv
  resolve _ := by
    cases v with
    | sym s => exact h.elim
    | list items => exact h.elim
    | _ =>
        simp only [Template.resolve]
        exact carries_self hv

theorem carries_kept {s : Symbol} (hs : ¬s.HasRenameEnding) {level : Int} {arg : Value}
    (h : (builds ρ offset).Carries (Value.rename ρ) (build site .macroTime level arg)
      (build site' .macroTime level arg)) :
    (builds ρ offset).Carries (Value.rename ρ)
      (do pure (.list [.sym s, ← build site .macroTime level arg]))
      (do pure (.list [.sym s, ← build site' .macroTime level arg])) :=
  carries_bind_pure h fun w => by
    rw [Value.rename_list, List.map_cons, List.map_singleton, Value.rename_sym, ρ.fixed hs]

section

variable (hsite : Site.Renames ρ site site')
include hsite

theorem carried_symbol (hρ : ρ.Shifts offset) {s : Symbol} (hs : ¬s.HasRenameEnding) :
    Carried ρ offset site site' (.sym s) where
  build level _ := by
    rw [build_symbol, build_symbol]
    exact carries_bind_pure (carries_qualify hρ hsite hs) fun _ => rfl
  resolve _ := by
    rw [Template.resolve.eq_def, Template.resolve.eq_def]
    dsimp only
    rw [hsite.bindings]
    cases s.isQualified with
    | true => exact carries_throw rfl
    | false =>
        cases site.bindings.find? s.name with
        | some v => exact carries_pure v
        | none => exact carries_throw rfl

theorem carries_resolve_list {items : List Value}
    (hitems : ∀ v ∈ items, ∀ s ∈ v.symbols, ¬s.HasRenameEnding)
    (hargs : ∀ v ∈ items.tail, Carried ρ offset site site' v)
    (hcalls : CallsStructural site.helpers (.list items)) :
    (builds ρ offset).Carries (Value.rename ρ) (resolve site (.list items))
      (resolve site' (.list items)) := by
  rcases items with _ | ⟨head, args⟩
  · rw [resolve, resolve]
    exact carries_pure _
  cases head with
  | sym s =>
      rw [resolve.eq_def, resolve.eq_def]
      dsimp only
      rw [hsite.helpers]
      split
      · rename_i hs
        split
        · split
          · exact carries_self (hitems _ (by simp))
          · obtain rfl := hs.resolve_left ‹_›
            exact (hargs _ (by simp)).build 1 fun e he hlevel h hh =>
              hcalls h (.escape he hlevel hh)
        · exact carries_throw rfl
      rename_i hs
      rw [not_or] at hs
      split
      · exact carries_throw rfl
      rename_i hescape
      split
      · rename_i helper heq
        have hhelper : s.isQualified = false ∧ site.helpers.find? s.name = some helper := by
          revert heq
          cases s.isQualified <;> simp
        refine carries_bind (carries_resolveArguments fun v hv => (hargs v hv).resolve fun h hh => ?_)
          fun values => carries_call ?_ values
        · exact hcalls h (.argument hescape hs.1 hs.2 hhelper.1 hhelper.2 hv hh)
        · exact hcalls helper (.call hescape hs.1 hs.2 hhelper.1 hhelper.2)
      · exact carries_throw rfl
  | _ =>
      simp only [resolve]
      exact carries_bind (carries_ofExcept (.refl _)) fun _ => carries_throw rfl

theorem carried_escape {s : Symbol} {arg : Value} (h : s.IsEscape)
    (hitems : ∀ v ∈ [.sym s, arg], ∀ s ∈ v.symbols, ¬s.HasRenameEnding)
    (harg : Carried ρ offset site site' arg) :
    Carried ρ offset site site' (.list [.sym s, arg]) where
  build level hanswers := by
    rw [AnswersStructural, escapes_escape level arg h] at hanswers
    by_cases hl : 1 < level
    · rw [build_kept _ _ level arg h hl, build_kept _ _ level arg h hl]
      rw [if_pos hl] at hanswers
      exact carries_kept (hitems (.sym s) (by simp) s (by simp [Value.symbols]))
        (harg.build _ fun e he => hanswers e (List.mem_cons_of_mem _ he))
    · rw [build_answered _ _ level arg h hl, build_answered _ _ level arg h hl]
      exact carries_bind (harg.resolve (hanswers _ List.mem_cons_self (Int.not_lt.mp hl)))
        fun value => carries_ofExcept corresponds_insertion
  resolve := carries_resolve_list hsite hitems (List.forall_mem_singleton.mpr harg)

theorem carried_template {arg : Value}
    (hitems : ∀ v ∈ [.sym .syntaxQuote, arg], ∀ s ∈ v.symbols, ¬s.HasRenameEnding)
    (harg : Carried ρ offset site site' arg) :
    Carried ρ offset site site' (.list [.sym .syntaxQuote, arg]) where
  build level hanswers := by
    rw [AnswersStructural, escapes_template] at hanswers
    by_cases hl : site.maxNesting < level + 1
    · rw [build_tooNested site _ level arg hl, build_tooNested site' _ level arg
        (hsite.maxNesting ▸ hl)]
      exact carries_throw rfl
    · rw [build_template site _ level arg (by omega), build_template site' _ level arg
        (by rw [hsite.maxNesting]; omega)]
      exact carries_kept (by decide) (harg.build _ hanswers)
  resolve := carries_resolve_list hsite hitems (List.forall_mem_singleton.mpr harg)

theorem carried_malformed {s : Symbol} {args : List Value} (h : s.IsEscape ∨ s = .syntaxQuote)
    (hn : args.length ≠ 1)
    (hitems : ∀ v ∈ .sym s :: args, ∀ s ∈ v.symbols, ¬s.HasRenameEnding)
    (hargs : ∀ v ∈ args, Carried ρ offset site site' v) :
    Carried ρ offset site site' (.list (.sym s :: args)) where
  build level _ := by
    rw [build_malformed site _ level h hn, build_malformed site' _ level h hn]
    exact carries_throw rfl
  resolve := carries_resolve_list hsite hitems hargs

theorem carried_plain {items : List Value} (h : ¬IsHeaded items)
    (hitems : ∀ v ∈ items, ∀ s ∈ v.symbols, ¬s.HasRenameEnding)
    (hcarried : ∀ v ∈ items, Carried ρ offset site site' v) :
    Carried ρ offset site site' (.list items) where
  build level hanswers := by
    rw [build_plain site _ level h, build_plain site' _ level h]
    rw [AnswersStructural, escapes_plain level h] at hanswers
    exact carries_bind_pure (carries_buildItems fun v hv => (hcarried v hv).build level fun e he =>
      hanswers e (List.mem_flatMap.mpr ⟨v, hv, he⟩)) fun built => (Value.rename_list ρ built).symm
  resolve := carries_resolve_list hsite hitems fun v hv => hcarried v (List.mem_of_mem_tail hv)

/-- What is built or resolved with renamed arguments, from an allocator with another number, is
renamed. -/
theorem carried (hρ : ρ.Shifts offset) (v : Value) (hv : ∀ s ∈ v.symbols, ¬s.HasRenameEnding) :
    Carried ρ offset site site' v := by
  have hitems {items : List Value} (h : ∀ s ∈ (Value.list items).symbols, ¬s.HasRenameEnding)
      (w : Value) (hw : w ∈ items) : ∀ s ∈ w.symbols, ¬s.HasRenameEnding :=
    fun s hs => h s (Value.mem_symbols_list hw hs)
  induction v using Template.induction with
  | atom v h => exact carried_atom h hv
  | symbol s => exact carried_symbol hsite hρ (hv s (by simp [Value.symbols]))
  | escape s arg h ih =>
      exact carried_escape hsite h (hitems hv) (ih (hitems hv arg (by simp)))
  | template arg ih => exact carried_template hsite (hitems hv) (ih (hitems hv arg (by simp)))
  | malformed s args h hn ih =>
      exact carried_malformed hsite h hn (hitems hv) fun w hw =>
        ih w hw (hitems hv w (List.mem_cons_of_mem _ hw))
  | plain items h ih =>
      exact carried_plain hsite h (hitems hv) fun w hw => ih w hw (hitems hv w hw)

end

end Template

end Quasiquote
