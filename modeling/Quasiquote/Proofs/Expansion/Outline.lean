import Quasiquote.Proofs.Expansion.Once
import Quasiquote.Proofs.Template.Outline

namespace Quasiquote

open Stateful

/-- A call of a macro with a number of arguments, and all that may differ from one call to another.
The tables of the defining namespace, the bound on nesting and the allocator are given. -/
structure MacroCall (m : Macro) (n : Nat) (ns : Namespace) (maxNesting : Int) (a : Allocator) where
  expander : Expander
  caller : Option Namespace
  head : Symbol
  args : List Value
  state : ExpansionState
  finds : expander.registry.lookup caller head = some m
  count : args.length = n
  namespaceNamed : expander.namespaceNamed m.ns = ns
  nesting : expander.maxNesting = maxNesting
  allocator : state.allocator = a

namespace MacroCall

variable {m : Macro} {n : Nat} {ns : Namespace} {maxNesting : Int} {a : Allocator}
variable (c : MacroCall m n ns maxNesting a)

def form : Value := .list (.sym c.head :: c.args)

/-- What one expansion of the form results in, and the state after it. -/
def expand : Except Failure Value × ExpansionState :=
  (c.expander.expandOnce c.caller c.form).run.run c.state

theorem expand_eq_iff {r : Except Failure Value} {s : ExpansionState} :
    c.expand = (r, s) ↔ Gives (c.expander.expandCall m c.form c.args) c.state r s := by
  have hcall : c.expander.expandOnce c.caller c.form = c.expander.expandCall m c.form c.args := by
    simp only [Expander.expandOnce, Expander.macroFor, form, c.finds]
  rw [expand, hcall]
  rfl

/-- What the calls have in common. -/
def origin (m : Macro) (ns : Namespace) (maxNesting : Int) : Template.Origin where
  ns := ns
  macroName := some m.name
  maxNesting := maxNesting
  parameters := m.parameters

theorem site_eq : c.expander.site m (m.parameters.bind c.args) =
    (origin m ns maxNesting).site c.expander.helpers c.args := by
  rw [Expander.site, c.namespaceNamed, c.nesting]
  rfl

end MacroCall

/-- The outline of the expansions of a macro whose body is a template, with the tables of the
namespace in which it was defined and the renamings of an expansion. -/
def Macro.outline (m : Macro) (ns : Namespace) (names : RenameTable) (t : Value) : Outline :=
  (Template.outline m.parameters (ns.symbolIn names) 1 t).sequenced

/-- A macro whose body is a template with parameters for escapes either fails in one way for all
arguments, or gives the outline of the template, filled with the arguments. The renamings are the
same for all arguments, and the names in them are fresh. -/
theorem expand_eq_fill (m : Macro) (t : Value) (hbody : m.body = .list [.sym .syntaxQuote, t])
    (he : ∀ e ∈ Template.escapes 1 t, e.level ≤ 1 → e.IsParameter m.parameters) (n : Nat)
    (ns : Namespace) (maxNesting : Int) (a : Allocator) :
    (∃ kind a', ∀ c : MacroCall m n ns maxNesting a, ∃ f,
      c.expand = (.error f, { c.state with allocator := a' }) ∧ f.kind = kind) ∨
    ∃ (names : RenameTable) (a' : Allocator),
      (∀ name s, names.find? name = some s → s.IsRenaming a.next a'.next) ∧
      (t.isNode = true → (m.outline ns names t).Hygienic (Symbol.IsSafe a.next a'.next)) ∧
        ∀ c : MacroCall m n ns maxNesting a, ∃ s', s'.allocator = a' ∧
          c.expand = (if c.state.log.traced && !((m.outline ns names t).fill c.args).isWritable then
            .error .unwritable else .ok ((m.outline ns names t).fill c.args), s') := by
  by_cases hn : m.parameters.accepts n = true
  · have houtline : Template.HasOutline (MacroCall.origin m ns maxNesting) n a.next 1 t :=
      Template.hasOutline_of_isParameter hn he
    have hempty : Template.Recorded a.next (Table.empty, a) := fun _ _ h => nomatch h
    obtain ⟨r, q, -, hrecorded, -, hlater⟩ := houtline (Table.empty, a) (Int.le_refl _) hempty
    obtain ⟨hsafe, hgives⟩ := hlater q.1 fun _ _ h => h
    let o := Template.outline m.parameters (ns.symbolIn q.1) 1 t
    have hbody (c : MacroCall m n ns maxNesting a) :
        Gives (c.expander.resolveBody m (m.parameters.bind c.args)) c.state.allocator
          (r.map fun _ => o.fill c.args) q.2 := by
      refine Building.gives_runFrom.mpr ⟨q.1, ?_⟩
      rw [hbody, c.site_eq, c.allocator, Template.resolve_template]
      exact hgives c.expander.helpers c.args c.count
    have hbound (c : MacroCall m n ns maxNesting a) :
        Expander.bindings m c.form c.args = .ok (m.parameters.bind c.args) :=
      Expander.bindings_eq_ok_iff.mpr ⟨c.count.symm ▸ hn, rfl⟩
    cases r with
    | error f =>
        refine .inl ⟨f.kind, q.2, fun c => ⟨f.locate m.name c.form, ?_, Expander.kind_locate _ _ _⟩⟩
        exact c.expand_eq_iff.mpr ((Expander.gives_expandCall (hbound c)).mpr
          (.inl ⟨f, q.2, hbody c, rfl, rfl⟩))
    | ok =>
        refine .inr ⟨q.1, q.2, hrecorded, fun hnode => ?_, fun c => ?_⟩
        · exact (hsafe rfl hnode).sequenced (.inr (.inl (by decide)))
        · obtain ⟨s', ⟨hs', -⟩, hfinished⟩ := Expander.exists_gives_finished m (o.fill c.args)
            { c.state with allocator := q.2 }
          refine ⟨s', hs', c.expand_eq_iff.mpr ((Expander.gives_expandCall (hbound c)).mpr
            (.inr ⟨o.fill c.args, q.2, hbody c, ?_⟩))⟩
          rw [Macro.outline, Outline.fill_sequenced]
          exact hfinished
  · refine .inl ⟨"ArityMismatch", a, fun c => ?_⟩
    have hbound : Expander.bindings m c.form c.args = .error (.expansion (some m.name)
        (some c.form) (.arity m.parameters.least m.parameters.most c.args.length)) := by
      rw [Expander.bindings, c.count]
      exact if_neg hn
    refine ⟨_, c.expand_eq_iff.mpr ((Expander.gives_expandCall_error hbound).mpr ⟨rfl, ?_⟩), rfl⟩
    exact congrArg (ExpansionState.mk · c.state.log) c.allocator.symm

def Macro.namingTemplate : Value :=
  .list [.sym .sequence, .list [.bare "x#", .list [.sym .unquote, .bare "v"]],
    .list [.bare "f", .bare "x#", .list [.sym .unquoteSplicing, .bare "vs"]]]

/-- A macro that names its first argument. -/
def Macro.naming : Macro where
  name := "m"
  parameters := ⟨["v"], some "vs", by decide⟩
  body := .list [.sym .syntaxQuote, namingTemplate]
  ns := "u"

def Macro.namingCall : MacroCall .naming 2 { name := "u" } 4 {} :=
  ⟨.only .naming, none, ⟨"m", none⟩, [.int 1, .int 2], {}, rfl, rfl, rfl, rfl, rfl⟩

/-- The renaming of `x#` at both of its places, the first argument behind it, and all others at the
end. -/
def Macro.namingOutline : Outline :=
  .list [.leaf (.sym .sequence), .list [.leaf (.bare "x__1__auto__"), .argument 0],
    .list [.leaf (.sym ⟨"f", some "u"⟩), .leaf (.bare "x__1__auto__"), .further 1]]

theorem expand_eq_fill_naming :
    ∃ a', ∀ c : MacroCall .naming 2 { name := "u" } 4 {}, ∃ s', s'.allocator = a' ∧
      c.expand = (if c.state.log.traced && !(Macro.namingOutline.fill c.args).isWritable then
        .error .unwritable else .ok (Macro.namingOutline.fill c.args), s') := by
  have hescapes : Template.escapes 1 Macro.namingTemplate =
      [⟨1, .unquote, .bare "v"⟩, ⟨1, .unquoteSplicing, .bare "vs"⟩] := rfl
  have he : ∀ e ∈ Template.escapes 1 Macro.namingTemplate, e.level ≤ 1 →
      e.IsParameter Macro.naming.parameters := by
    rw [hescapes]
    intro e he _
    rcases List.mem_cons.mp he with rfl | he
    · exact .inl ⟨rfl, "v", by decide, rfl⟩
    · obtain rfl := List.mem_singleton.mp he
      exact .inr ⟨rfl, "vs", rfl, rfl⟩
  have hexpand : Macro.namingCall.expand.1 = .ok (Macro.namingOutline.fill [.int 1, .int 2]) := rfl
  rcases expand_eq_fill .naming Macro.namingTemplate rfl he 2 { name := "u" } 4 {} with
    ⟨kind, a', hfails⟩ | ⟨names, a', -, -, hfill⟩
  · obtain ⟨f, hf, -⟩ := hfails Macro.namingCall
    rw [hf] at hexpand
    exact nomatch hexpand
  · let x := Namespace.symbolIn { name := "u" } names ⟨"x#", none⟩
    have houtline : Macro.naming.outline { name := "u" } names Macro.namingTemplate =
        .list [.leaf (.sym .sequence), .list [.leaf (.sym x), .argument 0],
          .list [.leaf (.sym ⟨"f", some "u"⟩), .leaf (.sym x), .further 1]] := rfl
    -- The same call says what `x#` became.
    have hx : x = ⟨"x__1__auto__", none⟩ := by
      obtain ⟨s', -, hs'⟩ := hfill Macro.namingCall
      rw [hs', houtline] at hexpand
      simpa [Macro.namingCall, Macro.namingOutline, Outline.fill, Outline.fillItems,
        Value.spread, Value.bare] using hexpand
    rw [hx] at houtline
    rw [houtline] at hfill
    exact ⟨a', hfill⟩

end Quasiquote
