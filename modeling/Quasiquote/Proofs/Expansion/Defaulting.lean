import Quasiquote.Proofs.Expansion.Fixpoint
import Quasiquote.Proofs.Template.Step
import Quasiquote.Session

namespace Quasiquote

open Stateful

/-- The part of the template that logs the failure and the value of the default. -/
def reportingTemplate : Value :=
  .list [.sym ⟨"debug", some "log"⟩, .str "The following error occurred:", .bare "x#",
    .str ", defaulting to:", .bare "default#"]

/-- The part of the template that evaluates the default. -/
def handlingTemplate : Value :=
  .list [.bare "let", .list [.bare "default#", .list [.sym .unquote, .bare "default-value"]],
    reportingTemplate, .bare "default#"]

def defaultingTemplate : Value :=
  .list [.sym .attempt, .list [.sym .unquote, .bare "operation"],
    .list [.sym .handler, .bare "x#", handlingTemplate]]

namespace Macro

/-- The macro, defined in the given namespace. -/
def defaulting (ns : String) : Macro where
  name := "default-to"
  parameters := ⟨["default-value", "operation"], none, by decide⟩
  body := .list [.sym .syntaxQuote, defaultingTemplate]
  ns := ns

def defaultingCall (d op : Value) : Value := .list [.bare "default-to", d, op]

def scopeName : Symbol := ⟨"let", some coreNamespace⟩

def debugName : Symbol := ⟨"debug", some logNamespace⟩

def failureName (k : Int) : Symbol := .numbered "x__" k

def defaultName (k : Int) : Symbol := .numbered "default__" (k + 1)

theorem failureName_ne_defaultName (k : Int) : failureName k ≠ defaultName k := by
  have hfailure : "x__" = "x" ++ "__" := by decide
  have hdefault : "default__" = "default" ++ "__" := by decide
  intro h
  rw [failureName, defaultName, hfailure, hdefault] at h
  have hk := Symbol.numbered_injective h
  omega

def reporting (k : Int) : Value :=
  .list [.sym debugName, .str "The following error occurred:", .sym (failureName k),
    .str ", defaulting to:", .sym (defaultName k)]

def handling (d : Value) (k : Int) : Value :=
  .list [.sym scopeName, .list [.sym (defaultName k), d], reporting k, .sym (defaultName k)]

/-- What a call expands to, if the first of its two names has the given number. -/
def defaulted (d op : Value) (k : Int) : Value :=
  .list [.sym .attempt, op, .list [.sym .handler, .sym (failureName k), handling d k]]

end Macro

open Macro

namespace Template

section

variable {site : Site (StateM Allocator)} {k : Int} {table : RenameTable}
variable {p : RenameTable × Allocator}
variable {ns : Namespace} {d op : Value} (hns : site.ns = pure ns)
include hns

theorem gives_build_reporting (hdebug : ns.resolve ⟨"debug", some "log"⟩ = debugName)
    (hfailure : p.1.find? "x#" = some (failureName k))
    (hdefault : p.1.find? "default#" = some (defaultName k)) :
    Gives (m := StateT RenameTable (StateM Allocator)) (build site .macroTime 1 reportingTemplate) p
      (.ok (reporting k)) p :=
  gives_build_list (by decide) <|
    gives_buildItems_single (gives_build_resolved hns rfl rfl hdebug) rfl <|
    gives_buildItems_single (gives_build_atom trivial) rfl <|
    gives_buildItems_single (gives_build_known rfl hfailure) rfl <|
    gives_buildItems_single (gives_build_atom trivial) rfl <|
    gives_buildItems_single (gives_build_known rfl hdefault) rfl gives_buildItems_nil

variable (table) in
theorem gives_build_handling (hscope : ns.resolve ⟨"let", none⟩ = scopeName)
    (hdebug : ns.resolve ⟨"debug", some "log"⟩ = debugName)
    (hd : site.bindings.find? "default-value" = some d)
    (hfailure : table.find? "x#" = some (failureName k)) (hnone : table.find? "default#" = none)
    (hk : (⟨k + 1⟩ : Allocator).isWritable = true) :
    Gives (m := StateT RenameTable (StateM Allocator)) (build site .macroTime 1 handlingTemplate)
      (table, ⟨k + 1⟩) (.ok (handling d.single k))
      (table.insert "default#" (defaultName k), ⟨k + 2⟩) := by
  have hlead : Symbol.unmarkedName ⟨"default#", none⟩ ++ "__" = "default__" := by decide
  have hdefault : (table.insert "default#" (defaultName k)).find? "default#" =
      some (defaultName k) := Table.find?_insert_self _ _ _
  have hkept : (table.insert "default#" (defaultName k)).find? "x#" = some (failureName k) := by
    rw [Table.find?_insert, if_neg (by decide), hfailure]
  -- The default takes its name where it is bound, and so before the part that logs is built.
  have hbinding := gives_build_list (by decide) <|
    gives_buildItems_single (gives_build_fresh rfl hlead hnone hk) rfl <|
    gives_buildItems_single (gives_build_parameter hd) d.spread_single gives_buildItems_nil
  rw [show k + 2 = k + 1 + 1 by omega]
  exact gives_build_list (by decide) <|
    gives_buildItems_single (gives_build_resolved hns rfl rfl hscope) rfl <|
    gives_buildItems_single hbinding rfl <|
    gives_buildItems_single (gives_build_reporting hns hdebug hkept hdefault) rfl <|
    gives_buildItems_single (gives_build_known rfl hdefault) rfl gives_buildItems_nil

theorem gives_resolve_defaulting (hscope : ns.resolve ⟨"let", none⟩ = scopeName)
    (hdebug : ns.resolve ⟨"debug", some "log"⟩ = debugName) (name : String)
    (hd : site.bindings.find? "default-value" = some d)
    (hop : site.bindings.find? "operation" = some op)
    (hk : (⟨k⟩ : Allocator).isWritable = true) (hk' : (⟨k + 1⟩ : Allocator).isWritable = true) :
    ∃ table, Gives (m := StateT RenameTable (StateM Allocator))
      (resolve site (defaulting name).body) (Table.empty, ⟨k⟩)
      (.ok (defaulted d.single op.single k)) (table, ⟨k + 2⟩) := by
  have hlead : Symbol.unmarkedName ⟨"x#", none⟩ ++ "__" = "x__" := by decide
  have hhandling := gives_build_handling (Table.empty.insert "x#" (failureName k)) hns hscope hdebug
    hd rfl rfl hk'
  refine ⟨(Table.empty.insert "x#" (failureName k)).insert "default#" (defaultName k), ?_⟩
  have hclause : Gives (m := StateT RenameTable (StateM Allocator))
      (build site .macroTime 1 (.list [.sym .handler, .bare "x#", handlingTemplate]))
      (Table.empty, ⟨k⟩) (.ok (.list [.sym .handler, .sym (failureName k), handling d.single k])) _ :=
    gives_build_list (by decide) <|
    gives_buildItems_single (gives_build_bare rfl rfl) rfl <|
    gives_buildItems_single (gives_build_fresh rfl hlead rfl hk) rfl <|
    gives_buildItems_single hhandling rfl gives_buildItems_nil
  change Gives (m := StateT RenameTable (StateM Allocator))
    (resolve site (.list [.sym .syntaxQuote, defaultingTemplate])) _ _ _
  rw [resolve_template]
  exact gives_build_list (by decide) <|
    gives_buildItems_single (gives_build_bare rfl rfl) rfl <|
    gives_buildItems_single (gives_build_parameter hop) op.spread_single <|
    gives_buildItems_single hclause rfl gives_buildItems_nil

end

end Template

namespace ExpansionState

/-- The names that the expansion of a call takes can be written, and so can, in a trace, its
arguments. -/
structure Permits (s : ExpansionState) (d op : Value) : Prop where
  first : s.allocator.isWritable = true
  second : (⟨s.allocator.next + 1⟩ : Allocator).isWritable = true
  traced : s.log.traced = true → d.isWritable = true ∧ op.isWritable = true

theorem Permits.isWritable_defaulted {s : ExpansionState} {d op : Value} (h : s.Permits d op)
    (ht : s.log.traced = true) (k : Int) : (defaulted d op k).isWritable = true := by
  obtain ⟨hd, hop⟩ := h.traced ht
  simp [defaulted, handling, reporting, Value.isWritable, Value.areWritable, hd, hop]

/-- What the expansion of a call leaves: two names are taken, and a trace shows the result. -/
def afterDefaulting (s : ExpansionState) (d op : Value) : ExpansionState where
  allocator := ⟨s.allocator.next + 2⟩
  log := s.log.record (.expanded "default-to" (defaulted d op s.allocator.next).quoted)

end ExpansionState

namespace Expander

/-- An expander that has the macro, to which a bare `default-to` refers, and in which the names in the
template mean what they mean in a new interpreter. -/
structure HasDefaulting (e : Expander) (caller : Namespace) (name : String) : Prop where
  depth : 1 ≤ e.maxDepth
  called : e.registry.lookup (some caller) ⟨"default-to", none⟩ = some (.defaulting name)
  uncalled : ∀ x ∈ [.attempt, scopeName, debugName], e.registry.lookup (some caller) x = none
  scope : (e.namespaceNamed name).resolve ⟨"let", none⟩ = scopeName
  debug : (e.namespaceNamed name).resolve ⟨"debug", some "log"⟩ = debugName

section

variable {e : Expander} {caller : Namespace} {name : String} {d op : Value}

theorem HasDefaulting.macroFor_eq_none (h : e.HasDefaulting caller name) {x : Symbol}
    (hx : x ∈ [.attempt, scopeName, debugName]) (args : List Value) :
    e.macroFor (some caller) (.list (.sym x :: args)) = none :=
  h.uncalled x hx

theorem HasDefaulting.isExpanded_defaulted (h : e.HasDefaulting caller name)
    (hd : e.IsExpanded (some caller) d) (hop : e.IsExpanded (some caller) op) (k : Int) :
    e.IsExpanded (some caller) (defaulted d op k) := by
  have atom {v : Value} (hm : e.macroFor (some caller) v = none) (hparts : v.parts = []) :
      e.IsExpanded (some caller) v := .intro hm fun w hw => by
    rw [hparts] at hw
    exact nomatch hw
  have symbol (s : Symbol) : e.IsExpanded (some caller) (.sym s) := atom rfl rfl
  have text (s : String) : e.IsExpanded (some caller) (.str s) := atom rfl rfl
  have hreporting : e.IsExpanded (some caller) (reporting k) := by
    refine isExpanded_of_args (h.macroFor_eq_none (by decide) _) ?_ nofun
    simp only [List.forall_mem_cons]
    exact ⟨text _, symbol _, text _, symbol _, List.forall_mem_nil _⟩
  have hhandling : e.IsExpanded (some caller) (handling d k) := by
    refine .intro (h.macroFor_eq_none (by decide) _) ?_
    rw [handling, Value.parts, Value.positions_binding rfl]
    simp only [List.cons_append, List.nil_append, List.forall_mem_cons]
    exact ⟨symbol _, hd, hreporting, symbol _, List.forall_mem_nil _⟩
  refine .intro (h.macroFor_eq_none (by decide) _) fun w hw => ?_
  rw [defaulted, Value.parts, Value.positions_attempt] at hw
  obtain ⟨c, hc, hw⟩ := List.mem_flatMap.mp hw
  rcases List.mem_pair.mp hc with hc | hc
  · exact isExpanded_of_mem_clausePositions hop (hc ▸ hw)
  · rw [hc] at hw
    rw [List.mem_singleton.mp hw]
    exact hhandling

theorem HasDefaulting.gives_expandAll (h : e.HasDefaulting caller name) {s : ExpansionState}
    (hd : e.IsExpanded (some caller) d.single) (hop : e.IsExpanded (some caller) op.single)
    (hs : s.Permits d.single op.single) :
    Gives (m := StateM ExpansionState) (e.expandAll (some caller) (defaultingCall d op)) s
      (.ok (defaulted d.single op.single s.allocator.next))
      (s.afterDefaulting d.single op.single) := by
  have hm : e.macroFor (some caller) (defaultingCall d op) = some (.defaulting name) := h.called
  have honce : e.expandOnce (some caller) (defaultingCall d op) =
      e.expandCall (.defaulting name) (defaultingCall d op) [d, op] := by
    obtain ⟨x, args, heq, -, honce⟩ := exists_of_macroFor hm
    cases heq
    exact honce
  obtain ⟨bound, hbound, hdefault, hoperation⟩ : ∃ bound,
      bindings (.defaulting name) (defaultingCall d op) [d, op] = .ok bound ∧
        bound.find? "default-value" = some d ∧ bound.find? "operation" = some op :=
    ⟨_, rfl, rfl, rfl⟩
  have hns : (e.site (.defaulting name) bound).ns = pure (e.namespaceNamed name) := rfl
  obtain ⟨table, hbody⟩ := Template.gives_resolve_defaulting hns h.scope h.debug name hdefault
    hoperation hs.first hs.second
  obtain ⟨n, hn⟩ : ∃ n, e.maxDepth.toNat = n + 1 := by
    have hdepth := h.depth
    exact ⟨e.maxDepth.toNat - 1, by omega⟩
  rw [expandAll, hn, expandWithin_succ hm, honce]
  refine gives_bind_ok.mpr ⟨_, _, ?_, (h.isExpanded_defaulted hd hop _).gives_expandWithin _ _⟩
  exact (gives_expandCall hbound).mpr (.inr ⟨_, _, Building.gives_runFrom.mpr ⟨table, hbody⟩,
    gives_finished fun ht => hs.isWritable_defaulted ht _⟩)

end

end Expander
end Quasiquote
