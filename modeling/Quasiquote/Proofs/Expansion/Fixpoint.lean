import Mathlib.Data.List.Forall2
import Quasiquote.Proofs.Expansion.Course

/-!
Expanded trees: those with no macro call at a position that expansion visits. Complete expansion
leaves exactly these as they are. Main statement: its results are expanded trees, unless the expansion
of a head turns the list around it into a call, or into a `let` with unexpanded bindings.
-/

namespace Quasiquote

open Stateful

namespace Expander

/-- Neither a tree nor what stands at a position below it is a macro call. -/
inductive IsExpanded (e : Expander) (caller : Option Namespace) : Value → Prop
  | intro {v : Value} : e.macroFor caller v = none → (∀ w ∈ v.parts, IsExpanded e caller w) →
      IsExpanded e caller v

variable {e : Expander} {caller : Option Namespace}

theorem IsExpanded.macroFor {v : Value} (h : e.IsExpanded caller v) :
    e.macroFor caller v = none := by
  cases h with
  | intro hm _ => exact hm

theorem IsExpanded.parts {v : Value} (h : e.IsExpanded caller v) {w : Value} (hw : w ∈ v.parts) :
    e.IsExpanded caller w := by
  cases h with
  | intro _ hp => exact hp w hw

theorem gives_mapM_self {f : Value → Expanding Value} {ws : List Value} {s : ExpansionState}
    (h : ∀ w ∈ ws, Gives (m := StateM ExpansionState) (f w) s (.ok w) s) :
    Gives (m := StateM ExpansionState) (ws.mapM f) s (.ok ws) s := by
  induction ws with
  | nil => exact gives_mapM_nil
  | cons w ws ih => exact gives_mapM_cons (h w (by simp)) (ih fun v hv => h v (by simp [hv]))

theorem IsExpanded.gives_expandWithin {v : Value} (h : e.IsExpanded caller v) (n : Nat)
    (s : ExpansionState) :
    Gives (m := StateM ExpansionState) (e.expandWithin caller n v) s (.ok v) s := by
  induction h with
  | @intro v hm _ ih =>
      rw [expandWithin_of_none hm]
      exact gives_bind_pure_ok.mpr ⟨v.parts, gives_mapM_self ih, v.fill_parts.symm⟩

theorem exists_gives_of_mem {f : Value → Expanding Value} {vs ws : List Value}
    {s t : ExpansionState} (h : Gives (m := StateM ExpansionState) (vs.mapM f) s (.ok ws) t)
    {v : Value} (hv : v ∈ vs) :
    ∃ (s' t' : ExpansionState) (w : Value),
      Gives (m := StateM ExpansionState) (f v) s' (.ok w) t' := by
  obtain ⟨hlength, hget⟩ := List.forall₂_iff_get.mp (forall₂_of_gives_mapM h)
  obtain ⟨i, hi, rfl⟩ := List.mem_iff_getElem.mp hv
  obtain ⟨s', t', hw⟩ := hget i hi (hlength ▸ hi)
  exact ⟨s', t', _, hw⟩

theorem isExpanded_of_gives_expandWithin_zero {v w : Value} {s t : ExpansionState}
    (h : Gives (m := StateM ExpansionState) (e.expandWithin caller 0 v) s (.ok w) t) :
    e.IsExpanded caller v := by
  induction hsize : sizeOf v using Nat.strongRecOn generalizing v w s t with
  | ind size ih =>
      subst hsize
      cases hm : e.macroFor caller v with
      | some m =>
          rw [expandWithin_zero hm] at h
          exact nomatch (gives_throw.mp h).1
      | none =>
          rw [expandWithin_of_none hm] at h
          obtain ⟨ws, hws, -⟩ := gives_bind_pure_ok.mp h
          refine .intro hm fun p hp => ?_
          obtain ⟨s', t', w', hw'⟩ := exists_gives_of_mem hws hp
          exact ih _ (Value.sizeOf_lt_of_mem_parts hp) hw' rfl

theorem isExpanded_boundedBy {bound : Nat} {v : Value} :
    (e.boundedBy bound).IsExpanded caller v ↔ e.IsExpanded caller v := by
  constructor <;> intro h <;>
    induction h with
    | intro hm _ ih => exact .intro hm ih

/-- A tree is expanded exactly if expansion gives it back and changes nothing, whatever its bound. -/
theorem isExpanded_iff {v : Value} :
    e.IsExpanded caller v ↔ ∀ (bound : Nat) (s : ExpansionState),
      Gives (m := StateM ExpansionState) ((e.boundedBy bound).expandAll caller v) s (.ok v) s := by
  constructor
  · intro h bound s
    exact (isExpanded_boundedBy.mpr h).gives_expandWithin _ s
  · intro h
    exact isExpanded_boundedBy.mp (isExpanded_of_gives_expandWithin_zero (h 0 {}))

theorem isExpanded_of_mem_clausePositions {c w : Value} (h : e.IsExpanded caller c)
    (hw : w ∈ c.clausePositions.forms) : e.IsExpanded caller w := by
  rcases c.clausePositions_cases with ⟨args, rfl⟩ | ⟨args, rfl⟩ | hc
  · have hw : w ∈ args := List.mem_of_mem_tail hw
    exact h.parts hw
  · have hw : w ∈ args := hw
    exact h.parts hw
  · rw [hc] at hw
    rwa [List.mem_singleton.mp hw]

theorem isExpanded_of_args {s : Symbol} {args : List Value}
    (hm : e.macroFor caller (.list (.sym s :: args)) = none)
    (hargs : ∀ w ∈ args, e.IsExpanded caller w)
    (hlet : ∀ bindings body, s.isCore "let" = true → args = .list bindings :: body →
      ∀ w ∈ bindings, e.IsExpanded caller w) : e.IsExpanded caller (.list (.sym s :: args)) := by
  refine .intro hm fun w hw => ?_
  unfold Value.parts at hw
  rcases Value.positions_cases (.list (.sym s :: args)) with hv | ⟨s', bindings, body, heq, hl⟩ |
    ⟨clauses, heq⟩ | ⟨s', args', heq, hv, -⟩ | ⟨items, -, -, hcall⟩
  · rw [hv] at hw
    exact nomatch hw
  · cases heq
    rw [Value.positions_binding hl] at hw
    rcases List.mem_append.mp hw with hw | hw
    · exact hlet bindings body hl rfl w hw
    · exact hargs w (List.mem_cons_of_mem _ hw)
  · cases heq
    obtain ⟨c, hc, hw⟩ := List.mem_flatMap.mp hw
    exact isExpanded_of_mem_clausePositions (hargs c hc) hw
  · cases heq
    rw [hv] at hw
    exact hargs w hw
  · exact nomatch hcall

/-- What the expansion of a tree is: an expanded tree, and the same tree if it is no list. -/
def Settles (e : Expander) (caller : Option Namespace) (v w : Value) : Prop :=
  e.IsExpanded caller w ∧ ((∀ items, v ≠ .list items) → w = v)

/-- The expansion of its head has turned a list into a macro call, or into a `let` with bindings that
are not expanded. -/
def Reheads (e : Expander) (caller : Option Namespace) (before after : Value) : Prop :=
  before.call? = none ∧ ((e.macroFor caller after).isSome = true ∨
    ∃ s bindings body, after = .list (.sym s :: .list bindings :: body) ∧ s.isCore "let" = true ∧
      ∃ w ∈ bindings, ¬e.IsExpanded caller w)

theorem isExpanded_of_forall₂ {vs ws : List Value} (h : List.Forall₂ (e.Settles caller) vs ws)
    {w : Value} (hw : w ∈ ws) : e.IsExpanded caller w := by
  induction h with
  | nil => exact nomatch hw
  | cons hv _ ih =>
      rcases List.mem_cons.mp hw with rfl | hw
      · exact hv.1
      · exact ih hw

theorem isExpanded_clauseForms {c w : Value} {ws : List Value}
    (h : List.Forall₂ (e.Settles caller) c.clausePositions.forms ws)
    (hw : w ∈ (c.clausePositions.fill ws).clausePositions.forms) : e.IsExpanded caller w := by
  rcases c.clausePositions_cases with ⟨args, rfl⟩ | ⟨args, rfl⟩ | hc
  · have hmem : w ∈ ws := by
      cases args with
      | nil => exact List.mem_of_mem_tail hw
      | cons name body => exact hw
    exact isExpanded_of_forall₂ h hmem
  · exact isExpanded_of_forall₂ h hw
  · rw [hc] at h hw
    obtain ⟨u, rest, hu, -, rfl⟩ := List.forall₂_cons_left_iff.mp h
    exact isExpanded_of_mem_clausePositions hu.1 hw

theorem isExpanded_clauses {cs ws : List Value}
    (h : List.Forall₂ (e.Settles caller) (cs.flatMap fun c => c.clausePositions.forms) ws)
    {w : Value} (hw : w ∈ (Value.fillClauses cs ws).flatMap fun c => c.clausePositions.forms) :
    e.IsExpanded caller w := by
  induction cs generalizing ws with
  | nil => exact nomatch hw
  | cons c cs ih =>
      rw [Value.fillClauses, List.flatMap_cons] at hw
      rw [List.flatMap_cons] at h
      rcases List.mem_append.mp hw with hw | hw
      · have hfirst := List.forall₂_take c.clausePositions.forms.length h
        rw [List.take_left] at hfirst
        exact isExpanded_clauseForms hfirst hw
      · have hrest := List.forall₂_drop c.clausePositions.forms.length h
        rw [List.drop_left] at hrest
        exact ih hrest hw

/-- The expansions of the parts of a tree make an expanded tree, unless the head has become one that
calls a macro or holds bindings. -/
theorem isExpanded_fill {v : Value} {ws : List Value} (hm : e.macroFor caller v = none)
    (h : List.Forall₂ (e.Settles caller) v.parts ws)
    (hr : ¬e.Reheads caller v (v.positions.fill ws)) :
    e.IsExpanded caller (v.positions.fill ws) := by
  have hws : ∀ w ∈ ws, e.IsExpanded caller w := fun w hw => isExpanded_of_forall₂ h hw
  unfold Value.parts at h
  rcases v.positions_cases with hv | ⟨s, bindings, body, rfl, hl⟩ | ⟨args, rfl⟩ |
    ⟨s, args, rfl, hv, hargs⟩ | ⟨items, rfl, hv, hcall⟩
  · rw [hv]
    refine .intro hm fun w hw => ?_
    unfold Value.parts at hw
    rw [hv] at hw
    exact nomatch hw
  · rw [Value.positions_binding hl] at h ⊢
    refine .intro hm fun w hw => ?_
    unfold Value.parts at hw
    rw [Value.positions_binding hl, List.take_append_drop] at hw
    exact hws w hw
  · refine .intro hm fun w hw => ?_
    exact isExpanded_clauses h hw
  · rw [hv] at h ⊢
    refine isExpanded_of_args hm hws fun bindings body hl heq => ?_
    -- The first argument would be bindings before its expansion too, for all else stays as it is.
    subst heq
    obtain ⟨a, rest, ha, -, rfl⟩ := List.forall₂_cons_right_iff.mp h
    have hkept := ha.2 fun items hitems => hargs hl items rest (by rw [hitems])
    exact absurd (by rw [hkept]) (hargs hl bindings rest)
  · rw [hv] at hr ⊢
    have hnone : e.macroFor caller (.list ws) = none := by
      cases hfound : e.macroFor caller (.list ws) with
      | none => rfl
      | some m => exact absurd ⟨hcall, .inl (by rw [hfound]; rfl)⟩ hr
    rcases Value.call?_cases ws with hhead | ⟨s, args, rfl⟩
    · refine .intro hnone fun w hw => ?_
      unfold Value.parts at hw
      rw [Value.positions_of_call?_eq_none hhead] at hw
      exact hws w hw
    · refine isExpanded_of_args hnone (fun w hw => hws w (List.mem_cons_of_mem _ hw)) ?_
      rintro bindings body hl rfl w hw
      by_contra hn
      exact hr ⟨hcall, .inr ⟨s, bindings, body, rfl, hl, w, hw, hn⟩⟩

mutual

theorem Follows.settles {n : Nat} {v w : Value} {s t : ExpansionState} {c : Course}
    {r : Except Failure Value} (h : Follows e caller n v s c r t) (hw : r = .ok w)
    (hc : ∀ before after, c.Leaves before after → ¬e.Reheads caller before after) :
    e.Settles caller v w := by
  cases h with
  | bound hm => exact nomatch hw
  | failed hm he => exact nomatch hw
  | call hm he hrest =>
      obtain ⟨_, args, rfl, -⟩ := exists_of_macroFor hm
      have hsettles := Follows.settles hrest hw fun before after hl => hc before after hl.call
      exact ⟨hsettles.1, fun hlist => absurd rfl (hlist _)⟩
  | @tree _ _ _ _ cs rs hm hparts =>
      cases rs with
      | error f => exact nomatch hw
      | ok ws =>
          cases hw
          have hws := FollowsAll.settles hparts rfl fun c hmem before after hl =>
            hc before after (hl.part hmem)
          refine ⟨isExpanded_fill hm hws (hc _ _ ⟨[], cs, .here _⟩), fun hlist => ?_⟩
          exact Value.fill_of_ne_list hlist ws

theorem FollowsAll.settles {n : Nat} {vs ws : List Value} {s t : ExpansionState} {cs : List Course}
    {rs : Except Failure (List Value)} (h : FollowsAll e caller n vs s cs rs t) (hws : rs = .ok ws)
    (hc : ∀ c ∈ cs, ∀ before after, c.Leaves before after → ¬e.Reheads caller before after) :
    List.Forall₂ (e.Settles caller) vs ws := by
  cases h with
  | nil =>
      cases hws
      exact .nil
  | failed hv => exact nomatch hws
  | @cons _ _ w _ _ _ _ c cs rs hv hvs =>
      cases rs with
      | error f => exact nomatch hws
      | ok ws =>
          cases hws
          exact .cons (Follows.settles hv rfl (hc c (by simp)))
            (FollowsAll.settles hvs rfl fun c hmem => hc c (by simp [hmem]))

end

/-- A tree that complete expansion gives is expanded, which is to say that expansion gives it back and
takes no name, if on the course to it no expansion of a head has made a macro call of a list or bound
what is not expanded. -/
theorem isExpanded_of_not_reheads (e : Expander) (caller : Option Namespace) {v r : Value}
    {s t : ExpansionState}
    (h : Gives (m := StateM ExpansionState) (e.expandAll caller v) s (.ok r) t) :
    (∃ c, Follows e caller e.maxDepth.toNat v s c (.ok r) t) ∧
    (∀ c, Follows e caller e.maxDepth.toNat v s c (.ok r) t →
      (∀ before after, c.Leaves before after → ¬e.Reheads caller before after) →
        e.IsExpanded caller r) ∧
    (e.IsExpanded caller r ↔ ∀ (bound : Nat) (s' : ExpansionState),
      Gives (m := StateM ExpansionState) ((e.boundedBy bound).expandAll caller r) s' (.ok r) s') :=
  ⟨exists_follows h, fun _ hc hk => (hc.settles rfl hk).1, isExpanded_iff⟩

end Expander

/-- A macro that stands for the symbol `m`. -/
def Macro.referring : Macro where
  name := "h"
  parameters := ⟨[], none, List.nodup_nil⟩
  body := .list [.sym .quote, .bare "m"]
  ns := "u"

/-- An expander that knows a macro that stands for its argument and one that stands for its name. -/
def Expander.referring : Expander where
  registry := (Registry.empty.define .passing).define .referring
  maxDepth := 100
  maxNesting := 4

/-- The form `((m f) (m 1))`, whose head is a call. -/
def headCall : Value := .list [.list [.bare "m", .bare "f"], .list [.bare "m", .int 1]]

theorem isExpanded_of_not_reheads_headCall :
    Gives (m := StateM ExpansionState) (Expander.referring.expandAll none headCall)
      ({} : ExpansionState) (.ok (.list [.bare "f", .int 1])) ({} : ExpansionState) ∧
    Expander.referring.IsExpanded none (.list [.bare "f", .int 1]) := by
  have h : Gives (m := StateM ExpansionState) (Expander.referring.expandAll none headCall)
      ({} : ExpansionState) (.ok (.list [.bare "f", .int 1])) ({} : ExpansionState) := rfl
  have hhead : Expander.referring.Follows none 100 (.list [.bare "m", .bare "f"]) {}
      (.call (.list [.bare "m", .bare "f"]) (.tree (.bare "f") (some (.bare "f")) []))
      (.ok (.bare "f")) {} := by
    apply Expander.Follows.call (m := .passing) (w := .bare "f") (u := {}) rfl
    · rfl
    · exact @Expander.Follows.tree _ _ _ (.bare "f") _ _ [] (.ok []) rfl .nil
  have harg : Expander.referring.Follows none 100 (.list [.bare "m", .int 1]) {}
      (.call (.list [.bare "m", .int 1]) (.tree (.int 1) (some (.int 1)) []))
      (.ok (.int 1)) {} := by
    apply Expander.Follows.call (m := .passing) (w := .int 1) (u := {}) rfl
    · rfl
    · exact @Expander.Follows.tree _ _ _ (.int 1) _ _ [] (.ok []) rfl .nil
  have hparts : Expander.referring.FollowsAll none 100 headCall.parts {} [_, _]
      (.ok [.bare "f", .int 1]) {} := .cons hhead (.cons harg .nil)
  refine ⟨h, (Expander.isExpanded_of_not_reheads .referring none h).2.1 _
    (@Expander.Follows.tree _ _ _ headCall _ _ _ _ rfl hparts) ?_⟩
  rintro before after ⟨calls, parts, hp⟩ ⟨-, hr⟩
  have hafter : after = .list [.bare "f", .int 1] ∨ after = .bare "f" ∨ after = .int 1 := by
    cases hp with
    | here => exact .inl rfl
    | part hc hp =>
        rcases List.mem_pair.mp hc with rfl | rfl <;> cases hp with
        | call hp =>
            cases hp with
            | here => simp
            | part hc _ => cases hc
  have hcall : Expander.referring.macroFor none after = none := by
    rcases hafter with rfl | rfl | rfl <;> rfl
  rcases hr with hr | ⟨s, bindings, body, rfl, -⟩
  · rw [hcall] at hr
    cases hr
  · simp [Value.bare, Value.int] at hafter

/-- In `((h) 1)` the head becomes `m`, and the call `(m 1)` is left. -/
theorem not_gives_expandAll_referring :
    ¬∀ (e : Expander) (caller : Option Namespace) (v r : Value) (s t : ExpansionState),
      Gives (m := StateM ExpansionState) (e.expandAll caller v) s (.ok r) t →
        Gives (m := StateM ExpansionState) (e.expandAll caller r) t (.ok r) t := by
  intro h
  have again := h .referring none (.list [.list [.bare "h"], .int 1]) (.list [.bare "m", .int 1])
    {} {} rfl
  have hone : Gives (m := StateM ExpansionState) (Expander.referring.expandAll none
      (.list [.bare "m", .int 1])) ({} : ExpansionState) (.ok (.int 1)) ({} : ExpansionState) := rfl
  have heq : Value.list [.bare "m", .int 1] = .int 1 :=
    Except.ok.inj (Prod.mk.inj (again.symm.trans hone)).1
  exact nomatch heq

end Quasiquote
