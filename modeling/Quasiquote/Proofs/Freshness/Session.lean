import Mathlib.Order.RelClasses
import Quasiquote.Proofs.Evaluation.Congruence
import Quasiquote.Proofs.Evaluation.Template
import Quasiquote.Proofs.Expansion.All
import Quasiquote.Proofs.Freshness.Build
import Quasiquote.Proofs.Template.Built

namespace Quasiquote

open Stateful

namespace Expander

/-- Expansions one after the other. Each resolves the body of a macro in a context of its own, and
the renamings with which these contexts end are listed. -/
inductive Contexts (e : Expander) : Allocator → List RenameTable → Allocator → Prop
  | nil (a : Allocator) : Contexts e a [] a
  | cons {m : Macro} {bound : Table String Value} {r : Except Failure Value}
      {table : RenameTable} {tables : List RenameTable} {a b c : Allocator} :
      Gives (Template.resolve (e.site m bound) m.body) (Table.empty, a) r (table, b) →
      Contexts e b tables c → Contexts e a (table :: tables) c

variable {e : Expander} {caller : Option Namespace}

theorem Contexts.append {a b c : Allocator} {tables more : List RenameTable}
    (h : e.Contexts a tables b) (h' : e.Contexts b more c) : e.Contexts a (tables ++ more) c := by
  induction h with
  | nil => exact h'
  | cons hr _ ih => exact .cons hr (ih h')

/-- What expansion does to its state, as far as fresh names are concerned. -/
def Expands (e : Expander) (s t : ExpansionState) : Prop :=
  ∃ tables, e.Contexts s.allocator tables t.allocator

instance : IsPreorder ExpansionState e.Expands where
  refl s := ⟨[], .nil s.allocator⟩
  trans _ _ _ := by
    rintro ⟨tables, h⟩ ⟨more, h'⟩
    exact ⟨tables ++ more, h.append h'⟩

theorem movesAlong_expands (e : Expander) : e.MovesAlong e.Expands where
  body h := by
    obtain ⟨table, h⟩ := Building.gives_runFrom.mp h
    exact ⟨[table], .cons h (.nil _)⟩
  log s _ := ⟨[], .nil s.allocator⟩

end Expander

namespace Ledger

section

variable {e : Expander} {m : Macro} {bound : Table String Value} {v : Value}
variable {p q : RenameTable × Allocator} {r : Except Failure Value}

theorem macroSite_movesAlong_inContext (e : Expander) (m : Macro) (bound : Table String Value) :
    (e.site m bound).MovesAlong (InContext (m := StateM Allocator)) :=
  site_movesAlong_inContext (m := StateM Allocator) fun _ _ _ h => (yields_pure.mp h).2

theorem inContext_of_gives_resolve (h : Gives (Template.resolve (e.site m bound) v) p r q) :
    InContext (m := StateM Allocator) p q :=
  (Template.moves_build_and_resolve (macroSite_movesAlong_inContext e m bound) v).2 h

theorem inContext_of_gives_build {level : Int}
    (h : Gives (Template.build (e.site m bound) .macroTime level v) p r q) :
    InContext (m := StateM Allocator) p q :=
  (Template.moves_build_and_resolve (macroSite_movesAlong_inContext e m bound) v).1
    .macroTime Resolver.macroTime_movesAlong level h

end

theorem run_of_expansions {e : Expander} {a b : Allocator} {tables : List RenameTable}
    (h : e.Contexts a tables b) (before : List RenameTable) :
    Run ⟨a, before⟩ ⟨b, before ++ tables⟩ := by
  induction h generalizing before with
  | nil a => rw [List.append_nil]
  | @cons m bound r table tables a b c hr _ ih =>
      have own : Run ⟨a, before ++ [Table.empty]⟩ ⟨b, before ++ [table]⟩ :=
        inContext_of_gives_resolve hr before []
      have rest : Run ⟨b, before ++ [table]⟩ ⟨c, before ++ [table] ++ tables⟩ :=
        ih (before ++ [table])
      rw [List.append_assoc, List.singleton_append] at rest
      exact .head (.opens ⟨a, before⟩) (own.trans rest)

end Ledger

namespace Evaluation

open Ledger

mutual

/-- What goes on between two sessions: expansions and templates, each in a context of its own, and
steps that take no fresh names. The renamings with which the contexts end are listed. -/
inductive Contexts : Session → List RenameTable → Session → Prop
  | none {s t : Session} : t.expansion.allocator = s.expansion.allocator → Contexts s [] t
  | append {s t u : Session} {tables more : List RenameTable} :
      Contexts s tables t → Contexts t more u → Contexts s (tables ++ more) u
  | expansions {s t : Session} {tables : List RenameTable} :
      s.expander.Contexts s.expansion.allocator tables t.expansion.allocator → Contexts s tables t
  | template {ev : Evaluator} {locals : List Frame} {form : Value} {s t : Session}
      {r : Except Failure Value} {table : RenameTable} {inner : List RenameTable} :
      Gives (Template.build (templateSite s) (templateResolver ev locals) 1 form)
        (Table.empty, s) r (table, t) →
      Within (Table.empty, s) inner (table, t) → Contexts s (table :: inner) t

/-- What goes on in one context, and in those that are opened before it ends. -/
inductive Within : RenameTable × Session → List RenameTable → RenameTable × Session → Prop
  | own {p q : RenameTable × Session} :
      InContext (m := StateT Session Option) p q → Within p [] q
  | append {p q r : RenameTable × Session} {tables more : List RenameTable} :
      Within p tables q → Within q more r → Within p (tables ++ more) r
  | inner {table : RenameTable} {s t : Session} {tables : List RenameTable} :
      Contexts s tables t → Within (table, s) tables (table, t)

end

mutual

theorem run_of_contexts : ∀ {s t : Session} {tables : List RenameTable}, Contexts s tables t →
    ∀ before, Run ⟨s.expansion.allocator, before⟩ ⟨t.expansion.allocator, before ++ tables⟩
  | _, _, _, .none h, before => by
      rw [h, List.append_nil]
  | _, _, _, .append h h', before => by
      rw [← List.append_assoc]
      exact (run_of_contexts h before).trans (run_of_contexts h' _)
  | _, _, _, .expansions h, before => run_of_expansions h before
  | _, _, _, .template _ h, before => by
      have hrun := run_of_within h before []
      rw [List.append_assoc] at hrun
      exact .head (.opens ⟨_, before⟩) hrun

theorem run_of_within : ∀ {p q : RenameTable × Session} {tables : List RenameTable},
    Within p tables q → ∀ before after, Run ⟨p.2.expansion.allocator, before ++ p.1 :: after⟩
      ⟨q.2.expansion.allocator, before ++ q.1 :: after ++ tables⟩
  | _, _, _, .own h, before, after => by
      rw [List.append_nil]
      exact h before after
  | _, _, _, @Within.append _ _ _ tables _ h h', before, after => by
      have first := run_of_within h before after
      have second := run_of_within h' before (after ++ tables)
      simp only [List.append_assoc, List.cons_append] at first second ⊢
      exact first.trans second
  | _, _, _, .inner h, before, after => run_of_contexts h _

end

/-- What an evaluation does to its session, as far as fresh names are concerned. -/
def Proceeds (s t : Session) : Prop := ∃ tables, Contexts s tables t

instance : IsPreorder (State (StateT Session Option)) Proceeds where
  refl _ := ⟨[], .none rfl⟩
  trans _ _ _ := by
    rintro ⟨tables, h⟩ ⟨more, h'⟩
    exact ⟨tables ++ more, h.append h'⟩

/-- What the building of a template that is evaluated does. -/
def Weaves (p q : RenameTable × Session) : Prop := ∃ tables, Within p tables q

instance : IsPreorder (RenameTable × State (StateT Session Option)) Weaves where
  refl p := ⟨[], .own (refl_of (InContext (m := StateT Session Option)) p)⟩
  trans _ _ _ := by
    rintro ⟨tables, h⟩ ⟨more, h'⟩
    exact ⟨tables ++ more, h.append h'⟩

theorem templateSite_movesAlong_weaves (s : Session) : (templateSite s).MovesAlong Weaves := by
  have own : (templateSite s).MovesAlong (InContext (m := StateT Session Option)) := by
    refine site_movesAlong_inContext (m := StateT Session Option) fun u ns t h => ?_
    cases h
    rfl
  exact own.mono fun _ _ h => ⟨[], .own h⟩

/-- A change of the session that takes no fresh names. -/
def KeepsAllocator (f : Session → Session) : Prop :=
  ∀ s, (f s).expansion.allocator = s.expansion.allocator

theorem changesBy_keepsAllocator (form : SpecialForm) : form.ChangesBy KeepsAllocator := by
  cases form with
  | define => exact ⟨fun _ _ => rfl, fun _ _ _ _ => rfl⟩
  | defineMacro => exact fun _ _ => rfl
  | enterNamespace =>
      intro name s
      unfold Session.enter
      dsimp only
      split <;> rfl
  | aliasNamespace => exact fun _ _ _ => rfl
  | _ => trivial

theorem closed_moves_proceeds : Closed KeepsAllocator fun (α : Type) (x : Unit → Evaluating α) =>
    Moves (m := StateT Session Option) Proceeds (x ()) := by
  refine closed_moves (fun f hf s => ⟨[], .none (hf s)⟩) (fun _ => rfl) ?_ ?_ ?_
  · intro effect s
    cases effect <;> rfl
  · intro tree s r t h
    obtain ⟨u, hu, rfl⟩ := Evaluating.gives_expanding.mp h
    obtain ⟨tables, h⟩ := Expander.moves_expandOnceIfCall s.expander.movesAlong_expands tree hu
    exact ⟨tables, .expansions h⟩
  · intro tree s r t h
    obtain ⟨u, hu, rfl⟩ := Evaluating.gives_expanding.mp h
    obtain ⟨tables, h⟩ := Expander.moves_expandAll s.expander.movesAlong_expands tree hu
    exact ⟨tables, .expansions h⟩

section

variable {ev : Evaluator} {locals : List Frame}
variable (hev : ∀ form, Moves (m := StateT Session Option) Proceeds (ev locals form))
include hev

theorem exists_contexts_of_gives_template {form : Value} {s t : Session}
    {r : Except Failure Value} {table : RenameTable}
    (h : Gives (Template.build (templateSite s) (templateResolver ev locals) 1 form)
      (Table.empty, s) r (table, t)) : ∃ inner, Contexts s (table :: inner) t := by
  have hresolver : (templateResolver ev locals).MovesAlong Weaves := by
    refine templateResolver_movesAlong fun form table u r w h => ?_
    obtain ⟨tables, h⟩ := hev form h
    exact ⟨tables, .inner h⟩
  obtain ⟨inner, hwithin⟩ := (Template.moves_build_and_resolve
    (templateSite_movesAlong_weaves s) form).1 _ hresolver 1 h
  exact ⟨inner, .template h hwithin⟩

theorem moves_evalTemplate (form : Value) :
    Moves (m := StateT Session Option) Proceeds (evalTemplate ev locals [form]) := by
  intro s r t h
  obtain ⟨built, table, hbuild, -⟩ := gives_evalTemplate.mp h
  obtain ⟨inner, hcontexts⟩ := exists_contexts_of_gives_template hev hbuild
  exact ⟨table :: inner, hcontexts⟩

end

theorem moves_exhausted {α : Type} :
    Moves (m := StateT Session Option) Proceeds (Evaluating.exhausted : Evaluating α) :=
  fun _ _ _ h => nomatch h

theorem moves_evalTree (n : Nat) (locals : List Frame) (tree : Value) :
    Moves (m := StateT Session Option) Proceeds (evalTree n locals tree) := by
  induction n generalizing locals tree with
  | zero => exact moves_exhausted
  | succ n ih =>
      rw [evalTree_succ]
      exact closed_moves_proceeds.evalLevelBy _ (fun _ => evalTree n) (fun _ => evaluate n)
        (fun _ => locals) (fun form _ => changesBy_keepsAllocator form)
        (fun s _ => closed_moves_proceeds.lookup locals s)
        (fun inner _ form _ => ih (inner ++ locals) form) closed_moves_proceeds.call
        (fun _ form _ _ => moves_evalTemplate (ih locals) form)
        (moves_bind (m := StateT Session Option) (closed_moves_proceeds.expanded tree)
          fun _ => ih locals _)

theorem moves_evaluate (n : Nat) (locals : List Frame) (tree : Value) :
    Moves (m := StateT Session Option) Proceeds (evaluate n locals tree) :=
  moves_bind (m := StateT Session Option) (closed_moves_proceeds.expanded tree)
    fun _ => moves_evalTree n locals _

end Evaluation

open Evaluation Ledger in
/-- Renamings are consistent and fresh in every run that begins without contexts. Macro time, single
and complete expansion, templates that are evaluated, and evaluation are such runs, and what is built
in a context has its marked names replaced as the context records it, then or later. -/
theorem renamings_fresh (start : Int) (e : Expander) (caller : Option Namespace) (n : Nat)
    (locals : List Frame) :
    (∀ l, Run ⟨⟨start⟩, []⟩ l → l.Fresh) ∧
    (∀ (m : Macro) (bound : Table String Value) (v : Value) (p q : RenameTable × Allocator)
        (r : Except Failure Value),
      (Gives (Template.resolve (e.site m bound) v) p r q →
        InContext (m := StateM Allocator) p q) ∧
      ∀ level, Gives (Template.build (e.site m bound) .macroTime level v) p r q →
        InContext (m := StateM Allocator) p q ∧
        ∀ tree table, r = .ok tree → Grows q.1 table →
          ∃ answers, Template.Built (e.site m bound) ((e.site m bound).Replaces table) level v
            answers tree) ∧
    (∀ (form : Value) (s t : ExpansionState) (r : Except Failure Value),
      Gives (e.expandOnce caller form) s r t ∨ Gives (e.expandAll caller form) s r t →
        ∃ tables, e.Contexts s.allocator tables t.allocator ∧
          ∀ before, Run ⟨s.allocator, before⟩ ⟨t.allocator, before ++ tables⟩) ∧
    (∀ (form : Value) (s t : Session) (r : Except Failure Value),
      Gives (evalTemplate (evalTree n) locals [form]) s r t →
        ∃ built table inner, r = built.map Value.single ∧
          Gives (Template.build (templateSite s) (templateResolver (evalTree n) locals) 1 form)
            (Table.empty, s) built (table, t) ∧
          Contexts s (table :: inner) t ∧
          ∀ tree, built = .ok tree → ∃ answers, Template.Built (templateSite s)
            ((templateSite s).Replaces table) 1 form answers tree) ∧
    ∀ (form : Value) (s t : Session) (r : Except Failure Value),
      Gives (evaluate n locals form) s r t →
        ∃ tables, Contexts s tables t ∧
          ∀ before, Run ⟨s.expansion.allocator, before⟩
            ⟨t.expansion.allocator, before ++ tables⟩ := by
  refine ⟨fun l => fresh_of_run, fun m bound v p q r => ⟨inContext_of_gives_resolve, ?_⟩, ?_, ?_, ?_⟩
  · intro level h
    refine ⟨inContext_of_gives_build h, ?_⟩
    rintro tree table rfl hgrows
    obtain ⟨answers, hbuilt, -⟩ := Template.built_of_gives Resolver.macroTime_movesAlong h hgrows
    exact ⟨answers, hbuilt⟩
  · intro form s t r h
    have hexpands : e.Expands s t := by
      rcases h with h | h
      · exact Expander.moves_expandOnce e.movesAlong_expands form h
      · exact Expander.moves_expandAll e.movesAlong_expands form h
    obtain ⟨tables, hcontexts⟩ := hexpands
    exact ⟨tables, hcontexts, run_of_expansions hcontexts⟩
  · intro form s t r h
    obtain ⟨built, table, hbuild, hr⟩ := gives_evalTemplate.mp h
    obtain ⟨inner, hcontexts⟩ := exists_contexts_of_gives_template (moves_evalTree n locals) hbuild
    refine ⟨built, table, inner, hr, hbuild, hcontexts, ?_⟩
    rintro tree rfl
    obtain ⟨answers, hbuilt, -⟩ := Template.built_of_gives templateResolver_movesAlong_grows hbuild
      fun _ _ h => h
    exact ⟨answers, hbuilt⟩
  · intro form s t r h
    obtain ⟨tables, hcontexts⟩ := moves_evaluate n locals form h
    exact ⟨tables, hcontexts, run_of_contexts hcontexts⟩

/-- A macro whose body reads `(x# x#)` in a template. -/
def Macro.marking : Macro where
  name := "m"
  parameters := ⟨[], none, List.nodup_nil⟩
  body := .list [.sym .syntaxQuote, .list [.bare "x#", .bare "x#"]]
  ns := "u"

theorem renamings_fresh_marking :
    ∃ (t : ExpansionState) (tables : List RenameTable),
      Gives ((Expander.only .marking).expandAll none
        (.list [.list [.bare "m"], .list [.bare "m"]])) ({ allocator := ⟨-1⟩ } : ExpansionState)
        (.ok (.list [.list [.bare "x__-1__auto__", .bare "x__-1__auto__"],
          .list [.bare "x__0__auto__", .bare "x__0__auto__"]])) t ∧
      (Expander.only .marking).Contexts ⟨-1⟩ tables t.allocator ∧
        Ledger.Fresh ⟨t.allocator, tables⟩ := by
  have h := renamings_fresh (-1) (.only .marking) none 0 []
  obtain ⟨tables, hcontexts, hrun⟩ := h.2.2.1
    (.list [.list [.bare "m"], .list [.bare "m"]]) { allocator := ⟨-1⟩ } _ _ (.inr rfl)
  exact ⟨_, tables, rfl, hcontexts, h.1 _ (hrun [])⟩

end Quasiquote
