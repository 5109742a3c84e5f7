import Quasiquote.Proofs.Evaluation.Form
import Quasiquote.Proofs.Evaluation.Operand
import Quasiquote.Proofs.Expansion.Defaulting
import Quasiquote.Proofs.Freshness.Renumbering

namespace Quasiquote.Evaluation

open Stateful

/-- The session after the function that logs has been called. -/
def logged (s : Session) (text : String) : Session :=
  { s with identities := s.identities + 1 }.record (.message .debug text)

/-- What the log shows of a failure that has been handled. -/
def reported (err v : Value) : Except Failure String :=
  Primitive.displayed " "
    [.str "The following error occurred:", err, .str ", defaulting to:", v]

/-- A session in which the macro can be called. -/
structure HasDefaulting (s : Session) (name : String) : Prop where
  expander : s.expander.HasDefaulting s.currentNamespace name
  logger : s.globals.find? (s.currentNamespace.resolve Macro.debugName) = some (.fn (.log .debug))

namespace HasDefaulting

open Macro

variable {s t : Session} {name : String} {d op : Value} {k : Int} {locals : List Frame} {n : Nat}

theorem of_alike (h : HasDefaulting s name) (ht : Alike s t) : HasDefaulting t name where
  expander := by
    rw [ht.1, ht.currentNamespace]
    exact h.expander
  logger := by
    rw [ht.2.2, ht.currentNamespace]
    exact h.logger

theorem gives_reporting (h : HasDefaulting s name) {err v : Value} {text : String}
    (hfailure : (Environment.mk locals s.globals).find? (failureName k) = some err)
    (hdefault : (Environment.mk locals s.globals).find? (defaultName k) = some v)
    (htext : reported err v = .ok text) (n : Nat) :
    Gives (m := StateT Session Option) (evalTree (n + 2) locals (reporting k)) s (.ok .nil)
      (logged s text) := by
  have text (x : String) : Gives (m := StateT Session Option) (evalTree (n + 1) locals (.str x)) s
      (.ok (.str x)) s := rfl
  exact gives_evalTree_call rfl (h.expander.macroFor_eq_none (by decide) _)
    (gives_evalTree_global rfl h.logger n)
    (gives_mapM_cons (text _) <| gives_mapM_cons (gives_evalTree_local rfl hfailure n) <|
      gives_mapM_cons (text _) <| gives_mapM_cons (gives_evalTree_local rfl hdefault n) <|
      gives_mapM_nil)
    (gives_call_log htext)

theorem gives_handling_error {g : Failure}
    (h : Gives (m := StateT Session Option) (evalTree n (Table.empty :: locals) d) s (.error g) t) :
    Gives (m := StateT Session Option) (evalTree (n + 1) locals (handling d k)) s (.error g) t := by
  change Gives (m := StateT Session Option) (evalScope (evalTree n) locals
    (.list [.sym (defaultName k), d] :: [reporting k, .sym (defaultName k)])) s (.error g) t
  rw [evalScope_one rfl]
  exact gives_bind.mpr (.inl ⟨g, h, rfl⟩)

theorem gives_handling_ok (h : HasDefaulting t name) {err v : Value} {text : String}
    (hfailure : (Environment.mk locals t.globals).find? (failureName k) = some err)
    (htext : reported err v = .ok text)
    (hd : Gives (m := StateT Session Option) (evalTree (n + 2) (Table.empty :: locals) d) s (.ok v)
      t) :
    Gives (m := StateT Session Option) (evalTree (n + 3) locals (handling d k)) s (.ok v)
      (logged t text) := by
  have hdefault (root : Frame) : (Environment.mk (Table.empty.insert (defaultName k) v :: locals)
      root).find? (defaultName k) = some v := by
    rw [find?_locals, List.findSome?_cons, Table.find?_insert_self]
    rfl
  have hinner : (Environment.mk (Table.empty.insert (defaultName k) v :: locals) t.globals).find?
      (failureName k) = some err := by
    rw [find?_locals, List.findSome?_cons, Table.find?_insert,
      if_neg (failureName_ne_defaultName k), Table.find?_empty, ← find?_locals, hfailure]
  change Gives (m := StateT Session Option) (evalScope (evalTree (n + 2)) locals
    (.list [.sym (defaultName k), d] :: [reporting k, .sym (defaultName k)])) s (.ok v) _
  rw [evalScope_one rfl]
  refine gives_bind.mpr (.inr ⟨v, t, hd, ?_⟩)
  refine gives_bind.mpr (.inr ⟨.nil, logged t text, ?_, ?_⟩)
  · exact h.gives_reporting hinner (hdefault _) htext n
  · exact gives_evalTree_local rfl (hdefault _) (n + 1)

theorem gives_expanded_defaultingCall (h : HasDefaulting s name) (hd : IsOperand s d)
    (hop : IsOperand s op) (hs : s.expansion.Permits d op) :
    Gives (m := StateT Session Option) (expanded (defaultingCall d op)) s
      (.ok (defaulted d op s.expansion.allocator.next))
      { s with expansion := s.expansion.afterDefaulting d op } := by
  have hd' := Expander.isExpanded_of_hasCode hd.calls
  have hop' := Expander.isExpanded_of_hasCode hop.calls
  rw [← hd.single_eq] at hd' hs
  rw [← hop.single_eq] at hop' hs
  have hexpand := h.expander.gives_expandAll hd' hop' hs
  rw [hd.single_eq, hop.single_eq] at hexpand
  rw [expanded, if_neg (by exact Bool.false_ne_true)]
  exact Evaluating.gives_expanding.mpr ⟨_, hexpand, rfl⟩

end HasDefaulting

open Macro

section

variable {s t : Session} {d op : Value} {locals : List Frame} {n : Nat} {r : Except Failure Value}

theorem IsOperand.agreeOn (h : IsOperand s d) (root : Frame) (k : Int) (err : Value)
    (locals : List Frame) :
    AgreeOn d root (Table.empty :: Table.empty.insert (failureName k) err :: locals) locals := by
  have hframes : AgreeOn d root
      ([] ++ ([Table.empty, Table.empty.insert (failureName k) err] ++ locals)) ([] ++ locals) := by
    refine agreeOn_append fun frame hframe x hx _ => ?_
    rcases List.mem_pair.mp hframe with rfl | rfl
    · rfl
    · have hne : x ≠ failureName k := by
        rintro rfl
        exact h.unrenamed _ hx (Symbol.hasRenameEnding_numbered _ _)
      rw [Table.find?_insert, if_neg hne, Table.find?_empty]
  exact hframes

theorem HasDefaulting.outcome_call {name : String} (h : HasDefaulting s name) (hd : IsOperand s d)
    (hop : IsOperand s op) (hs : s.expansion.Permits d op)
    (hgives : Gives (m := StateT Session Option)
      (evalAttempt (evalTree n) locals [op, .list [.sym .handler,
        .sym (failureName s.expansion.allocator.next), handling d s.expansion.allocator.next]])
      { s with expansion := s.expansion.afterDefaulting d op } r t) :
    Call.Outcome ⟨locals, defaultingCall d op, s⟩ (r, t) :=
  ⟨n + 1, gives_bind.mpr (.inr ⟨_, _, h.gives_expanded_defaultingCall hd hop hs, hgives⟩)⟩

end

def defaultingText : List Char :=
  ["(defmacro default-to [default-value operation]",
    "  `(try",
    "     ~operation",
    "     (catch x#",
    "       (let [default# ~default-value]",
    "         (log/debug \"The following error occurred:\" x#",
    "                    \", defaulting to:\" default#)",
    "         default#))))"].flatMap fun line => line.toList ++ ['\n']

/-- A new session in which the macro has been defined. -/
def defaultingSession (name : String) (depth nesting : Int) (allocator : Allocator) : Session :=
  ((Session.start name depth nesting allocator).unrefer "default-to").defineMacro (.defaulting name)

set_option maxRecDepth 4000 in
theorem gives_evalText_defaultingText (name : String) (depth nesting : Int) (allocator : Allocator) :
    Gives (m := StateT Session Option) (Interpreter.evalText defaultingText)
      (Session.start name depth nesting allocator) (.ok (.sym ⟨"default-to", some name⟩))
      (defaultingSession name depth nesting allocator) := by
  have hread : Reader.readAll defaultingText = .ok
      [.list [.bare "defmacro", .bare "default-to",
        .list [.bare "default-value", .bare "operation"],
        .list [.sym .syntaxQuote, defaultingTemplate]]] := rfl
  unfold Interpreter.evalText
  rw [hread, ofExcept_ok, pure_bind]
  refine gives_evalForm ?_
  rw [Interpreter.stepBound, evaluate_defineMacro 999]
  rfl

/-- The namespace in which the macro has just been defined. -/
def defaultingNamespace (name : String) : Namespace :=
  (Session.newNamespace name).unrefer "default-to"

theorem refers_defaultingNamespace (name : String) :
    (defaultingNamespace name).refers = (defaultingNamespace "").refers :=
  rfl

theorem name_defaultingNamespace (name : String) : (defaultingNamespace name).name = name :=
  rfl

theorem namespaceNamed_putNamespace (s : Session) (ns : Namespace) :
    (s.putNamespace ns).expander.namespaceNamed ns.name = ns := by
  change ((s.expander.namespaces.insert ns.name ns).find? ns.name).getD _ = ns
  rw [Table.find?_insert_self]
  rfl

theorem currentNamespace_start (name : String) (depth nesting : Int) (allocator : Allocator) :
    (Session.start name depth nesting allocator).currentNamespace = Session.newNamespace name := by
  have hcontains : (Table.empty : Table String Namespace).contains name = false := rfl
  unfold Session.start Session.enter
  dsimp only
  rw [hcontains, if_neg Bool.false_ne_true]
  exact namespaceNamed_putNamespace _ (Session.newNamespace name)

theorem namespaceNamed_defaultingSession (name : String) (depth nesting : Int)
    (allocator : Allocator) :
    (defaultingSession name depth nesting allocator).expander.namespaceNamed name =
      defaultingNamespace name := by
  change ((Session.start name depth nesting allocator).putNamespace
    ((Session.start name depth nesting allocator).currentNamespace.unrefer
      "default-to")).expander.namespaceNamed name = _
  rw [currentNamespace_start]
  exact namespaceNamed_putNamespace _ (defaultingNamespace name)

theorem hasDefaulting_defaultingSession (name : String) {depth : Int} (nesting : Int)
    (allocator : Allocator) (hdepth : 1 ≤ depth) :
    HasDefaulting (defaultingSession name depth nesting allocator) name := by
  have hnamed := namespaceNamed_defaultingSession name depth nesting allocator
  have hcurrent : (defaultingSession name depth nesting allocator).currentNamespace =
      defaultingNamespace name := hnamed
  have hregistry : (defaultingSession name depth nesting allocator).expander.registry =
      Registry.empty.define (.defaulting name) := rfl
  have hcalled : (defaultingNamespace "").refers.find? "default-to" = none := by decide
  have hscope : (defaultingNamespace "").refers.find? "let" = some coreNamespace := by decide
  refine ⟨⟨hdepth, ?_, ?_, ?_, ?_⟩, ?_⟩
  · rw [hcurrent, hregistry]
    simp only [Registry.lookup, Namespace.resolve, refers_defaultingNamespace, hcalled,
      Symbol.withNamespace, Option.getD_some, Option.getD_none]
    exact List.find?_singleton.trans
      (if_pos (by simp [Macro.key, defaulting, name_defaultingNamespace]))
  · have hnames : ∀ x ∈ [.attempt, scopeName, debugName], "default-to" ≠ x.name := by decide
    intro x hx
    rw [hregistry]
    exact Registry.lookup_eq_none (List.forall_mem_singleton.mpr (hnames x hx))
  · rw [hnamed, Namespace.resolve]
    simp only [refers_defaultingNamespace, hscope, Option.getD_some, Symbol.withNamespace]
    rfl
  · rw [hnamed]
    rfl
  · rw [hcurrent]
    rfl

/-- In a new interpreter that may expand calls, the macro can be defined. After that, in any session
in which it can be called, the operation of a call is evaluated where the call stands. What it gives
is what the call gives, and the default is not evaluated. If it fails, the default is evaluated once
where the call stands, in the session that the operation has left; its failure is the failure of the
call. What it gives is what the call gives, and is logged beside the failure of the operation, if
both can be written. -/
theorem outcome_defaultingCall (name : String) (depth nesting : Int) (allocator : Allocator)
    (hdepth : 1 ≤ depth) :
    (∃ s, Gives (m := StateT Session Option) (Interpreter.evalText defaultingText)
      (Session.start name depth nesting allocator) (.ok (.sym ⟨"default-to", some name⟩)) s ∧
        HasDefaulting s name) ∧
    ∀ s d op, HasDefaulting s name → IsOperand s d → IsOperand s op → ¬IsClause op →
      s.expansion.Permits d op → ∀ locals, ∃ first t,
        Call.Outcome ⟨locals, op, { s with expansion := s.expansion.afterDefaulting d op }⟩
          (first, t) ∧
        (∀ v, first = .ok v → Call.Outcome ⟨locals, defaultingCall d op, s⟩ (.ok v, t)) ∧
        ∀ f, first = .error f → ∃ err u second w,
          Gives (m := StateT Session Option) (Evaluating.caughtValue f) t (.ok err) u ∧
          Call.Outcome ⟨locals, d, u⟩ (second, w) ∧
          (∀ g, second = .error g → Call.Outcome ⟨locals, defaultingCall d op, s⟩ (.error g, w)) ∧
          ∀ v text, second = .ok v → reported err v = .ok text →
            Call.Outcome ⟨locals, defaultingCall d op, s⟩ (.ok v, logged w text) := by
  refine ⟨⟨_, gives_evalText_defaultingText name depth nesting allocator,
    hasDefaulting_defaultingSession name nesting allocator hdepth⟩, ?_⟩
  intro s d op h hd hop hclause hs locals
  have hs' : Alike s { s with expansion := s.expansion.afterDefaulting d op } := ⟨rfl, rfl, rfl⟩
  obtain ⟨first, t, ht, hfirst, hop'⟩ := (hop.of_alike hs').exists_outcome locals
  have hinside := hop' locals fun _ _ _ => rfl
  refine ⟨first, t, hfirst, ?_, ?_⟩
  · rintro v rfl
    exact h.outcome_call hd hop hs
      (gives_evalAttempt_ok hclause rfl (hinside _ (Nat.le_refl _)))
  rintro f rfl
  obtain ⟨err, u, hu, hcaught⟩ := exists_gives_caughtValue f t
  have hlike := hs'.trans (ht.trans hu)
  have hd' := hd.of_alike hlike
  obtain ⟨second, w, hw, hsecond, hdefault⟩ := hd'.exists_outcome locals
  have hdefault := hdefault _ (hd'.agreeOn u.globals s.expansion.allocator.next err locals)
    (sizeOf op + sizeOf d + 2) (by omega)
  -- With one step more the handler can be evaluated, and the operation too.
  have hcall {r : Except Failure Value} {w' : Session}
      (hhandling : Gives (m := StateT Session Option) (evalTree (sizeOf op + sizeOf d + 3)
        (Table.empty.insert (failureName s.expansion.allocator.next) err :: locals)
        (handling d s.expansion.allocator.next)) u r w') :
      Call.Outcome ⟨locals, defaultingCall d op, s⟩ (r, w') :=
    h.outcome_call hd hop hs
      (gives_evalAttempt_error hclause rfl (hinside _ (by omega)) hcaught hhandling)
  refine ⟨err, u, second, w, hcaught, hsecond, ?_, ?_⟩
  · rintro g rfl
    exact hcall (HasDefaulting.gives_handling_error hdefault)
  · rintro v text rfl htext
    refine hcall ((h.of_alike (hlike.trans hw)).gives_handling_ok ?_ htext hdefault)
    rw [find?_locals, List.findSome?_cons, Table.find?_insert_self]
    rfl

/-- A frame around the call `(default-to (list b) (/ 1 0))`. -/
def boundFrame : Frame := Table.empty.insert ⟨"b", none⟩ (.str "none")

def listedDefault : Value := .list [.bare "list", .bare "b"]

def division : Value := .list [.bare "/", .int 1, .int 0]

/-- The session in which a call with these arguments has been expanded. -/
def dividingSession : Session :=
  let s := defaultingSession "user" 100 4 {}
  { s with expansion := s.expansion.afterDefaulting listedDefault division }

theorem outcome_defaultingCall_division :
    ∃ t, Call.Outcome ⟨[boundFrame], defaultingCall listedDefault division,
        defaultingSession "user" 100 4 {}⟩ (.ok (.list [.str "none"]), t) ∧
      t.expansion.log.events = [.message .debug ("The following error occurred: " ++
        "ZeroDivisionError: Fraction(1, 0) , defaulting to: (\"none\")")] := by
  have hdefined := hasDefaulting_defaultingSession "user" 4 {} (show (1 : Int) ≤ 100 by decide)
  have hd : IsOperand (defaultingSession "user" 100 4 {}) listedDefault :=
    .of_symbols (by decide) (by decide) (by decide) (by simp [listedDefault])
  have hop : IsOperand (defaultingSession "user" 100 4 {}) division :=
    .of_symbols (by decide) (by decide) (by decide) (by simp [division])
  have hclause : ¬IsClause division := by
    simp [IsClause, division, Value.bare, Symbol.handler, Symbol.cleanup]
  obtain ⟨first, t, ⟨m, hfirst⟩, -, herror⟩ := (outcome_defaultingCall "user" 100 4 {} (by decide)).2
    _ _ _ hdefined hd hop hclause ⟨by decide, by decide, fun h => absurd h (by decide)⟩ [boundFrame]
  have hoperation : Call.Answered ⟨[boundFrame], division, dividingSession⟩ (evaluate 4)
      (.error (.arithmetic (.exactDivision 1))) { dividingSession with identities := 1 } := rfl
  obtain ⟨rfl, rfl⟩ := Call.answered_unique hoperation hfirst
  obtain ⟨err, u, second, w, hcaught, ⟨n, hsecond⟩, -, hok⟩ := herror _ rfl
  have hvalue : Gives (m := StateT Session Option)
      (Evaluating.caughtValue (.arithmetic (.exactDivision 1)))
      { dividingSession with identities := 1 }
      (.ok (.error 1 (.arithmetic (.exactDivision 1)))) { dividingSession with identities := 2 } :=
    rfl
  obtain ⟨herr, rfl⟩ := Evaluating.gives_unique hvalue hcaught
  cases herr
  have hdefault : Call.Answered
      ⟨[boundFrame], listedDefault, { dividingSession with identities := 2 }⟩ (evaluate 4)
      (.ok (.list [.str "none"])) { dividingSession with identities := 3 } := rfl
  obtain ⟨rfl, rfl⟩ := Call.answered_unique hdefault hsecond
  exact ⟨_, hok _ _ rfl rfl, rfl⟩

end Quasiquote.Evaluation
