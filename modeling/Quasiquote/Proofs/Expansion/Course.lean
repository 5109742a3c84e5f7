import Quasiquote.Proofs.Expansion.Once
import Quasiquote.Proofs.Expansion.Position

/-!
The courses of complete expansions: the calls that are replaced between a tree and its leaves, and the
trees that are left, with what becomes of them. Main statement: an expansion has a course in which no
way to a leaf replaces more calls than the bound allows, and a larger bound changes nothing unless the
bound was reached.
-/

namespace Quasiquote

open Stateful

/-- What happens below a tree while it is expanded. -/
inductive Course where
  | stop
  /-- A macro call is replaced. -/
  | call (form : Value) (rest : Course)
  /-- The parts of a tree whose head names no macro are expanded. If none of them fails, the tree
  with their expansions comes after it. -/
  | tree (before : Value) (after : Option Value) (parts : List Course)

/-- The calls that are replaced on the way from a course down to another one. -/
inductive Course.Path : Course → List Value → Course → Prop
  | here (c : Course) : Path c [] c
  | call {form : Value} {rest last : Course} {calls : List Value} :
      Path rest calls last → Path (.call form rest) (form :: calls) last
  | part {before : Value} {after : Option Value} {parts : List Course} {c last : Course}
      {calls : List Value} :
      c ∈ parts → Path c calls last → Path (.tree before after parts) calls last

/-- On a course, the parts of a tree are expanded, which gives another tree. -/
def Course.Leaves (c : Course) (before after : Value) : Prop :=
  ∃ calls parts, c.Path calls (.tree before (some after) parts)

theorem Course.Leaves.call {form before after : Value} {rest : Course}
    (h : rest.Leaves before after) : (Course.call form rest).Leaves before after := by
  obtain ⟨calls, parts, hp⟩ := h
  exact ⟨form :: calls, parts, .call hp⟩

theorem Course.Leaves.part {before after v : Value} {w : Option Value} {c : Course}
    {cs : List Course} (h : c.Leaves before after) (hc : c ∈ cs) :
    (Course.tree v w cs).Leaves before after := by
  obtain ⟨calls, parts, hp⟩ := h
  exact ⟨calls, parts, .part hc hp⟩

/-- Whether a failure says that the bound of an expansion was reached. -/
def Failure.IsTooDeep : Failure → Prop
  | .expansion _ _ (.tooDeep _) => True
  | _ => False

namespace Expander

def tooDeep (e : Expander) (m : Macro) (call : Value) : Failure :=
  .expansion (some m.name) (some call) (.tooDeep e.maxDepth)

/-- Induction along complete expansion: on the calls that may still be replaced, and then on the
tree. -/
theorem induction (e : Expander) (caller : Option Namespace) {P : Nat → Value → Prop}
    (bound : ∀ v m, e.macroFor caller v = some m → P 0 v)
    (call : ∀ n v m, e.macroFor caller v = some m → (∀ w, P n w) → P (n + 1) v)
    (parts : ∀ n v, e.macroFor caller v = none → (∀ w ∈ v.parts, P n w) → P n v) (n : Nat) :
    ∀ v, P n v := by
  have trees {n : Nat} (calls : ∀ v m, e.macroFor caller v = some m → P n v) (v : Value) :
      P n v := by
    induction hsize : sizeOf v using Nat.strongRecOn generalizing v with
    | ind size ih =>
        subst hsize
        cases hm : e.macroFor caller v with
        | some m => exact calls v m hm
        | none => exact parts n v hm fun w hw => ih _ (Value.sizeOf_lt_of_mem_parts hw) w rfl
  induction n with
  | zero => exact trees bound
  | succ n ih => exact trees fun v m hm => call n v m hm ih

mutual

/-- The expansion of a tree, with a number of calls that may still be replaced on the way to each
leaf. -/
inductive Follows (e : Expander) (caller : Option Namespace) :
    Nat → Value → ExpansionState → Course → Except Failure Value → ExpansionState → Prop
  | bound {v : Value} {m : Macro} {s : ExpansionState} :
      e.macroFor caller v = some m → Follows e caller 0 v s .stop (.error (e.tooDeep m v)) s
  | failed {n : Nat} {v : Value} {m : Macro} {s t : ExpansionState} {f : Failure} :
      e.macroFor caller v = some m →
      Gives (m := StateM ExpansionState) (e.expandOnce caller v) s (.error f) t →
      Follows e caller (n + 1) v s (.call v .stop) (.error f) t
  | call {n : Nat} {v w : Value} {m : Macro} {s u t : ExpansionState} {c : Course}
      {r : Except Failure Value} :
      e.macroFor caller v = some m →
      Gives (m := StateM ExpansionState) (e.expandOnce caller v) s (.ok w) u →
      Follows e caller n w u c r t → Follows e caller (n + 1) v s (.call v c) r t
  | tree {n : Nat} {v : Value} {s t : ExpansionState} {cs : List Course}
      {rs : Except Failure (List Value)} :
      e.macroFor caller v = none → FollowsAll e caller n v.parts s cs rs t →
      Follows e caller n v s (.tree v (rs.map v.positions.fill).toOption cs)
        (rs.map v.positions.fill) t

/-- The expansion of some trees, one after the other, up to the first failure. -/
inductive FollowsAll (e : Expander) (caller : Option Namespace) :
    Nat → List Value → ExpansionState → List Course → Except Failure (List Value) →
      ExpansionState → Prop
  | nil {n : Nat} {s : ExpansionState} : FollowsAll e caller n [] s [] (.ok []) s
  | failed {n : Nat} {v : Value} {vs : List Value} {s t : ExpansionState} {c : Course}
      {f : Failure} :
      Follows e caller n v s c (.error f) t → FollowsAll e caller n (v :: vs) s [c] (.error f) t
  | cons {n : Nat} {v w : Value} {vs : List Value} {s u t : ExpansionState} {c : Course}
      {cs : List Course} {rs : Except Failure (List Value)} :
      Follows e caller n v s c (.ok w) u → FollowsAll e caller n vs u cs rs t →
      FollowsAll e caller n (v :: vs) s (c :: cs) (rs.map (w :: ·)) t

end

variable {e : Expander} {caller : Option Namespace}

mutual

/-- A way down a course replaces no more calls than there may be, and where the parts of a tree are
expanded at its end, there is an expansion of that tree. -/
theorem Follows.of_path {n : Nat} {v : Value} {s t : ExpansionState} {c last : Course}
    {r : Except Failure Value} (h : Follows e caller n v s c r t) {calls : List Value}
    (hp : c.Path calls last) :
    calls.length ≤ n ∧ ∀ before after parts, last = .tree before after parts →
      ∃ n s r t, Follows e caller n before s last r t := by
  cases h with
  | bound hm =>
      cases hp
      exact ⟨Nat.zero_le _, nofun⟩
  | failed hm he =>
      rcases hp with _ | hp | _
      · exact ⟨Nat.zero_le _, nofun⟩
      · cases hp
        exact ⟨by simp, nofun⟩
  | call hm he hrest =>
      cases hp with
      | here => exact ⟨Nat.zero_le _, nofun⟩
      | call hp =>
          obtain ⟨hlength, hlast⟩ := Follows.of_path hrest hp
          exact ⟨Nat.succ_le_succ hlength, hlast⟩
  | @tree n v s t _ _ hm hparts =>
      cases hp with
      | here =>
          refine ⟨Nat.zero_le _, fun before after parts heq => ?_⟩
          cases heq
          exact ⟨n, s, _, t, .tree hm hparts⟩
      | part hc hp => exact FollowsAll.of_path hparts hc hp

theorem FollowsAll.of_path {n : Nat} {vs : List Value} {s t : ExpansionState} {cs : List Course}
    {rs : Except Failure (List Value)} (h : FollowsAll e caller n vs s cs rs t) {c last : Course}
    (hc : c ∈ cs) {calls : List Value} (hp : c.Path calls last) :
    calls.length ≤ n ∧ ∀ before after parts, last = .tree before after parts →
      ∃ n s r t, Follows e caller n before s last r t := by
  cases h with
  | nil => exact nomatch hc
  | failed hv =>
      cases List.mem_singleton.mp hc
      exact Follows.of_path hv hp
  | cons hv hvs =>
      rcases List.mem_cons.mp hc with rfl | hc
      · exact Follows.of_path hv hp
      · exact FollowsAll.of_path hvs hc hp

end

theorem expandWithin_zero {v : Value} {m : Macro} (h : e.macroFor caller v = some m) :
    e.expandWithin caller 0 v = throw (e.tooDeep m v) := by
  rw [expandWithin, expandParts_of_macroFor h]
  rfl

theorem expandWithin_succ {n : Nat} {v : Value} {m : Macro} (h : e.macroFor caller v = some m) :
    e.expandWithin caller (n + 1) v = e.expandOnce caller v >>= e.expandWithin caller n := by
  rw [expandWithin, expandParts_of_macroFor h]

theorem expandWithin_of_none {n : Nat} {v : Value} (h : e.macroFor caller v = none) :
    e.expandWithin caller n v =
      v.parts.mapM (e.expandWithin caller n) >>= fun ws => pure (v.positions.fill ws) := by
  cases n with
  | zero =>
      have hparts : e.expandWithin caller 0 = e.expandParts caller fun m call =>
          throw (e.tooDeep m call) := by
        funext w
        rw [expandWithin]
        rfl
      rw [hparts, expandParts_eq_mapM h]
  | succ n =>
      have hparts : e.expandWithin caller (n + 1) = e.expandParts caller fun _ call =>
          e.expandOnce caller call >>= e.expandWithin caller n := by
        funext w
        rw [expandWithin]
      rw [hparts, expandParts_eq_mapM h]

theorem exists_followsAll {n : Nat} {vs : List Value} {s t : ExpansionState}
    {rs : Except Failure (List Value)}
    (hvs : ∀ v ∈ vs, ∀ {s t : ExpansionState} {r : Except Failure Value},
      Gives (m := StateM ExpansionState) (e.expandWithin caller n v) s r t →
        ∃ c, Follows e caller n v s c r t)
    (h : Gives (m := StateM ExpansionState) (vs.mapM (e.expandWithin caller n)) s rs t) :
    ∃ cs, FollowsAll e caller n vs s cs rs t := by
  induction vs generalizing s t rs with
  | nil =>
      rw [List.mapM_nil] at h
      obtain ⟨rfl, rfl⟩ := gives_pure.mp h
      exact ⟨[], .nil⟩
  | cons v vs ih =>
      rw [List.mapM_cons] at h
      rcases gives_bind.mp h with ⟨f, hv, rfl⟩ | ⟨w, u, hv, h⟩
      · obtain ⟨c, hc⟩ := hvs v (by simp) hv
        exact ⟨[c], .failed hc⟩
      · obtain ⟨c, hc⟩ := hvs v (by simp) hv
        obtain ⟨rest, hrest, rfl⟩ := gives_bind_pure.mp h
        obtain ⟨cs, hcs⟩ := ih (fun w hw => hvs w (by simp [hw])) hrest
        exact ⟨c :: cs, .cons hc hcs⟩

theorem exists_follows {n : Nat} {v : Value} {s t : ExpansionState} {r : Except Failure Value}
    (h : Gives (m := StateM ExpansionState) (e.expandWithin caller n v) s r t) :
    ∃ c, Follows e caller n v s c r t := by
  induction n, v using e.induction caller generalizing s t r with
  | bound v m hm =>
      rw [expandWithin_zero hm] at h
      obtain ⟨rfl, rfl⟩ := gives_throw.mp h
      exact ⟨.stop, .bound hm⟩
  | call n v m hm ih =>
      rw [expandWithin_succ hm] at h
      rcases gives_bind.mp h with ⟨f, he, rfl⟩ | ⟨w, u, he, h⟩
      · exact ⟨.call v .stop, .failed hm he⟩
      · obtain ⟨c, hc⟩ := ih w h
        exact ⟨.call v c, .call hm he hc⟩
  | parts n v hm ih =>
      rw [expandWithin_of_none hm] at h
      obtain ⟨rs, hparts, rfl⟩ := gives_bind_pure.mp h
      obtain ⟨cs, hcs⟩ := exists_followsAll ih hparts
      exact ⟨_, .tree hm hcs⟩

/-- The same expander with another bound. -/
def boundedBy (e : Expander) (bound : Nat) : Expander := { e with maxDepth := bound }

mutual

/-- An expansion that does not fail at its bound goes the same way with more calls left, whatever the
bound that a failure would report. -/
theorem Follows.of_le {a b n n' : Nat} (hn : n ≤ n') {v : Value} {s t : ExpansionState} {c : Course}
    {r : Except Failure Value} (h : Follows (e.boundedBy a) caller n v s c r t)
    (hr : ∀ f, r = .error f → ¬f.IsTooDeep) : Follows (e.boundedBy b) caller n' v s c r t := by
  cases h with
  | bound hm => exact absurd trivial (hr _ rfl)
  | failed hm he =>
      obtain ⟨k, rfl⟩ : ∃ k, n' = k + 1 := ⟨n' - 1, by omega⟩
      exact .failed hm he
  | call hm he hrest =>
      obtain ⟨k, rfl⟩ : ∃ k, n' = k + 1 := ⟨n' - 1, by omega⟩
      exact .call hm he (Follows.of_le (by omega) hrest hr)
  | tree hm hparts =>
      refine .tree hm (FollowsAll.of_le hn hparts fun f hf => hr f ?_)
      rw [hf]
      rfl

theorem FollowsAll.of_le {a b n n' : Nat} (hn : n ≤ n') {vs : List Value} {s t : ExpansionState}
    {cs : List Course} {rs : Except Failure (List Value)}
    (h : FollowsAll (e.boundedBy a) caller n vs s cs rs t)
    (hr : ∀ f, rs = .error f → ¬f.IsTooDeep) :
    FollowsAll (e.boundedBy b) caller n' vs s cs rs t := by
  cases h with
  | nil => exact .nil
  | failed hv => exact .failed (Follows.of_le hn hv fun f hf => hr f (by cases hf; rfl))
  | cons hv hvs =>
      refine .cons (Follows.of_le hn hv fun f hf => nomatch hf)
        (FollowsAll.of_le hn hvs fun f hf => hr f ?_)
      rw [hf]
      rfl

end

mutual

theorem Follows.gives {n : Nat} {v : Value} {s t : ExpansionState} {c : Course}
    {r : Except Failure Value} (h : Follows e caller n v s c r t) :
    Gives (m := StateM ExpansionState) (e.expandWithin caller n v) s r t := by
  cases h with
  | bound hm =>
      rw [expandWithin_zero hm]
      exact gives_throw.mpr ⟨rfl, rfl⟩
  | failed hm he =>
      rw [expandWithin_succ hm]
      exact gives_bind.mpr (.inl ⟨_, he, rfl⟩)
  | call hm he hrest =>
      rw [expandWithin_succ hm]
      exact gives_bind.mpr (.inr ⟨_, _, he, Follows.gives hrest⟩)
  | tree hm hparts =>
      rw [expandWithin_of_none hm]
      exact gives_bind_pure.mpr ⟨_, FollowsAll.gives hparts, rfl⟩

theorem FollowsAll.gives {n : Nat} {vs : List Value} {s t : ExpansionState} {cs : List Course}
    {rs : Except Failure (List Value)} (h : FollowsAll e caller n vs s cs rs t) :
    Gives (m := StateM ExpansionState) (vs.mapM (e.expandWithin caller n)) s rs t := by
  cases h with
  | nil =>
      rw [List.mapM_nil]
      exact gives_pure.mpr ⟨rfl, rfl⟩
  | failed hv =>
      rw [List.mapM_cons]
      exact gives_bind.mpr (.inl ⟨_, Follows.gives hv, rfl⟩)
  | cons hv hvs =>
      rw [List.mapM_cons]
      exact gives_bind.mpr (.inr ⟨_, _, Follows.gives hv,
        gives_bind_pure.mpr ⟨_, FollowsAll.gives hvs, rfl⟩⟩)

end

theorem Follows.gives_of_leaves {n : Nat} {v : Value} {s t : ExpansionState} {c : Course}
    {r : Except Failure Value} (h : Follows e caller n v s c r t) {before after : Value}
    (hl : c.Leaves before after) :
    e.macroFor caller before = none ∧ ∃ (n : Nat) (s t : ExpansionState),
      Gives (m := StateM ExpansionState) (e.expandWithin caller n before) s (.ok after) t := by
  obtain ⟨calls, parts, hp⟩ := hl
  obtain ⟨n, s, r, t, hlast⟩ := (h.of_path hp).2 _ _ _ rfl
  generalize hafter : some after = w at hlast
  cases hlast with
  | @tree _ _ _ _ _ rs hm hparts =>
      refine ⟨hm, n, s, t, ?_⟩
      cases rs with
      | error f => exact nomatch hafter
      | ok ws =>
          rw [Option.some.inj hafter]
          exact (Follows.tree hm hparts).gives

/-- Complete expansion ends, whatever the macros do, and on no way down its course more calls are
replaced than its bound says. Unless it fails because the bound is reached, it takes the same course
to the same end with every larger bound. -/
theorem exists_course_expandAll (e : Expander) (caller : Option Namespace) (bound : Nat) (v : Value)
    (s : ExpansionState) :
    ∃ c r t, Follows (e.boundedBy bound) caller bound v s c r t ∧
      Gives (m := StateM ExpansionState) ((e.boundedBy bound).expandAll caller v) s r t ∧
      (∀ calls last, c.Path calls last → calls.length ≤ bound) ∧
      ((∀ f, r = .error f → ¬f.IsTooDeep) → ∀ larger, bound ≤ larger →
        Follows (e.boundedBy larger) caller larger v s c r t ∧
        Gives (m := StateM ExpansionState) ((e.boundedBy larger).expandAll caller v) s r t) := by
  have h : Gives (m := StateM ExpansionState) ((e.boundedBy bound).expandWithin caller bound v) s
      ((e.boundedBy bound).expandWithin caller bound v s).1
      ((e.boundedBy bound).expandWithin caller bound v s).2 := rfl
  obtain ⟨c, hc⟩ := exists_follows h
  refine ⟨c, _, _, hc, hc.gives, fun calls last hp => (hc.of_path hp).1, fun hr larger hl => ?_⟩
  have hlarger : Follows (e.boundedBy larger) caller larger v s c _ _ := hc.of_le hl hr
  exact ⟨hlarger, hlarger.gives⟩

end Expander

/-- A macro that stands for its argument. -/
def Macro.passing : Macro where
  name := "m"
  parameters := ⟨["x"], none, by simp⟩
  body := .bare "x"
  ns := "u"

theorem exists_course_expandAll_passing :
    ∃ c t, Expander.Follows ((Expander.only .passing).boundedBy 9) none 9
      (.list [.bare "m", .list [.bare "m", .int 1]]) {} c (.ok (.int 1)) t ∧
      ∀ calls last, c.Path calls last → calls.length ≤ 2 := by
  obtain ⟨c, r, t, -, h, hp, hl⟩ := Expander.exists_course_expandAll (.only .passing) none 2
    (.list [.bare "m", .list [.bare "m", .int 1]]) {}
  have hr : r = .ok (.int 1) := (congrArg Prod.fst h).symm
  subst hr
  exact ⟨c, t, (hl (fun f hf => nomatch hf) 9 (by decide)).1, hp⟩

end Quasiquote
