import Quasiquote.Proofs.Expansion.Once
import Quasiquote.Proofs.Freshness.Renumbering
import Quasiquote.Proofs.Macro.Parameters

namespace Quasiquote

open Stateful Simulation

namespace Parameters

theorem find?_bind_map {p : Parameters} {args : List Value} (h : p.accepts args.length = true)
    (ρ : Renaming) (name : String) :
    (p.bind (args.map (Value.rename ρ))).find? name =
      ((p.bind args).find? name).map (Value.rename ρ) := by
  have h' : p.accepts (args.map (Value.rename ρ)).length = true := by rwa [List.length_map]
  refine Option.ext fun v => ?_
  rw [find?_bind_iff h', Option.map_eq_some_iff]
  simp only [find?_bind_iff h, List.getElem?_map, Option.map_eq_some_iff, ← List.map_drop]
  constructor
  · rintro (⟨i, hi, w, hw, rfl⟩ | ⟨hv, rfl⟩)
    · exact ⟨w, .inl ⟨i, hi, hw⟩, rfl⟩
    · exact ⟨_, .inr ⟨hv, rfl⟩, Value.rename_list ρ _⟩
  · rintro ⟨w, ⟨i, hi, hw⟩ | ⟨hv, rfl⟩, rfl⟩
    · exact .inl ⟨i, hi, w, hw, rfl⟩
    · exact .inr ⟨hv, Value.rename_list ρ _⟩

end Parameters

variable {ρ : Renaming} {offset : Int}

/-- Expansions whose allocators differ by an offset. What has been logged may differ. -/
def Simulation.expansions (offset : Int) : Simulation (StateM ExpansionState) where
  Related (s t : ExpansionState) :=
    (allocators offset).Related s.allocator t.allocator ∧ t.log.traced = s.log.traced
  Fits (s : ExpansionState) := (allocators offset).Fits s.allocator

theorem carries_runFrom {α β : Type} {f : α → β} {x : Building (StateM Allocator) α}
    {y : Building (StateM Allocator) β} (h : (builds ρ offset).Carries f x y) :
    (allocators offset).Carries f (x.runFrom Table.empty) (y.runFrom Table.empty) where
  moves s r t hx hfits := by
    obtain ⟨table, hx⟩ := Building.gives_runFrom.mp hx
    exact h.moves hx hfits
  follows {s s' t r} hs hx hfits := by
    obtain ⟨table, hx⟩ := Building.gives_runFrom.mp hx
    have hempty : (builds ρ offset).Related (Table.empty, s) (Table.empty, s') :=
      ⟨fun _ => rfl, hs⟩
    obtain ⟨r', ⟨table', t'⟩, hy, hr, ht⟩ := h.follows hempty hx hfits
    exact ⟨r', t', Building.gives_runFrom.mpr ⟨table', hy⟩, hr, ht.2⟩

theorem carries_adapt {m : Type → Type} [Monad m] [LawfulMonad m] [Stateful m] {S : Simulation m}
    {α β : Type} {f : α → β} {g g' : Failure → Failure} {x : ExceptT Failure m α}
    {y : ExceptT Failure m β} (hg : ∀ e, (g e).kind = e.kind) (hg' : ∀ e, (g' e).kind = e.kind)
    (h : S.Carries f x y) : S.Carries f (ExceptT.adapt g x) (ExceptT.adapt g' y) where
  moves s r t hx hfits := by
    obtain ⟨r', hx, -⟩ := Expander.gives_adapt.mp hx
    exact h.moves hx hfits
  follows {s s' t r} hs hx hfits := by
    obtain ⟨r, hrun, rfl⟩ := Expander.gives_adapt.mp hx
    obtain ⟨r', t', hy, hr, ht⟩ := h.follows hs hrun hfits
    refine ⟨_, t', Expander.gives_adapt.mpr ⟨r', hy, rfl⟩, ?_, ht⟩
    cases hr with
    | ok a => exact .ok a
    | error hkind => exact .error (by rw [hg, hg', hkind])

theorem carries_allocating {α β : Type} {f : α → β} {x : ExceptT Failure (StateM Allocator) α}
    {y : ExceptT Failure (StateM Allocator) β} (h : (allocators offset).Carries f x y) :
    (expansions offset).Carries f (Expander.allocating x) (Expander.allocating y) where
  moves s r t hx hfits := by
    obtain ⟨a, hrun, rfl⟩ := Expander.gives_allocating.mp hx
    exact h.moves hrun hfits
  follows {s s' t r} hs hx hfits := by
    obtain ⟨a, hrun, rfl⟩ := Expander.gives_allocating.mp hx
    obtain ⟨r', a', hy, hr, ha⟩ := h.follows hs.1 hrun hfits
    exact ⟨r', _, Expander.gives_allocating.mpr ⟨a', hy, rfl⟩, hr, ha, hs.2⟩

namespace Expander

/-- Whether names of renamings are mere names to an expander: no macro has one, the bodies name none,
and they call structural helpers only. -/
structure IsStructural (e : Expander) : Prop where
  name {m : Macro} : m ∈ e.registry.macros → ¬renameEnding.toList <:+ m.name.toList
  body {m : Macro} : m ∈ e.registry.macros → ∀ s ∈ m.body.symbols, ¬s.HasRenameEnding
  calls {m : Macro} : m ∈ e.registry.macros → Template.CallsStructural e.helpers m.body

variable {e : Expander} {caller : Option Namespace}

theorem carries_finished (m : Macro) (v : Value) :
    (expansions offset).Carries (Value.rename ρ) (finished m v) (finished m (v.rename ρ)) where
  moves s r t h hfits := by
    obtain ⟨u, ⟨ha, -⟩, hu⟩ := exists_gives_finished m v s
    obtain rfl : t = u := congrArg Prod.snd (h.symm.trans hu)
    change (allocators offset).Fits s.allocator
    rw [← ha]
    exact hfits
  follows {s s' t r} hs h _ := by
    obtain ⟨u, ⟨ha, hl⟩, hu⟩ := exists_gives_finished m v s
    obtain ⟨u', ⟨ha', hl'⟩, hu'⟩ := exists_gives_finished m (v.rename ρ) s'
    obtain ⟨rfl, rfl⟩ := Prod.mk.inj (h.symm.trans hu)
    refine ⟨_, u', hu', ?_, ?_, ?_⟩
    · rw [Value.sequenced_rename, Value.isWritable_rename, hs.2]
      split
      · exact .error rfl
      · exact .ok v.sequenced
    · rw [ha, ha']
      exact hs.1
    · rw [hl, hl', hs.2]

theorem carries_expandCall (he : e.IsStructural) (hρ : ρ.Shifts offset) {m : Macro}
    (hm : m ∈ e.registry.macros) (call call' : Value) (args : List Value) :
    (expansions offset).Carries (Value.rename ρ) (e.expandCall m call args)
      (e.expandCall m call' (args.map (Value.rename ρ))) := by
  by_cases haccepts : m.parameters.accepts args.length = true
  · have hbind : bindings m call args = .ok (m.parameters.bind args) :=
      bindings_eq_ok_iff.mpr ⟨haccepts, rfl⟩
    have hbind' : bindings m call' (args.map (Value.rename ρ)) =
        .ok (m.parameters.bind (args.map (Value.rename ρ))) :=
      bindings_eq_ok_iff.mpr ⟨by rwa [List.length_map], rfl⟩
    have hsite : Site.Renames ρ (e.site m (m.parameters.bind args))
        (e.site m (m.parameters.bind (args.map (Value.rename ρ)))) :=
      ⟨⟨e.namespaceNamed m.ns, rfl, rfl⟩, rfl, rfl, Parameters.find?_bind_map haccepts ρ⟩
    have hbody := (Template.carried hsite hρ m.body (he.body hm)).resolve (he.calls hm)
    rw [expandCall_eq hbind, expandCall_eq hbind']
    exact carries_bind (carries_allocating (carries_adapt (kind_locate _ _) (kind_locate _ _)
      (carries_runFrom hbody))) fun v => carries_finished m v
  · have hbind {form : Value} {vs : List Value} (hvs : vs.length = args.length) :
        bindings m form vs = .error (.expansion (some m.name) (some form)
          (.arity m.parameters.least m.parameters.most vs.length)) := by
      rw [bindings, hvs]
      exact if_neg haccepts
    unfold expandCall
    rw [hbind rfl, hbind (List.length_map _)]
    exact carries_throw rfl

theorem lookup_rename (he : e.IsStructural) (s : Symbol) :
    e.registry.lookup caller (ρ s) = e.registry.lookup caller s := by
  by_cases hs : s.HasRenameEnding
  · have hnone {t : Symbol} (ht : t.HasRenameEnding) : e.registry.lookup caller t = none :=
      Registry.lookup_eq_none fun m hm hname => he.name hm (hname ▸ ht)
    rw [hnone hs, hnone (ρ.ending hs)]
  · rw [ρ.fixed hs]

theorem macroFor_rename (he : e.IsStructural) (v : Value) :
    e.macroFor caller (v.rename ρ) = e.macroFor caller v := by
  cases v with
  | list items =>
      rw [Value.rename_list]
      rcases items with _ | ⟨head, args⟩
      · rfl
      cases head with
      | sym s => exact lookup_rename he s
      | list items =>
          rw [List.map_cons, Value.rename_list]
          rfl
      | _ => rfl
  | _ => rfl

theorem carries_expandOnce (he : e.IsStructural) (hρ : ρ.Shifts offset) {m : Macro} {v : Value}
    (hm : e.macroFor caller v = some m) :
    (expansions offset).Carries (Value.rename ρ) (e.expandOnce caller v)
      (e.expandOnce caller (v.rename ρ)) := by
  have hm' : e.macroFor caller (v.rename ρ) = some m := (macroFor_rename he v).trans hm
  obtain ⟨s, args, rfl, hlookup, hcall⟩ := exists_of_macroFor hm
  obtain ⟨s', args', hargs, -, hcall'⟩ := exists_of_macroFor hm'
  rw [Value.rename_list, List.map_cons] at hargs
  cases hargs
  rw [hcall, hcall']
  exact carries_expandCall he hρ (Registry.mem_of_lookup hlookup).1 _ _ args

theorem carries_expandParts (he : e.IsStructural) {onCall : Macro → Value → Expanding Value}
    (h : ∀ m v, e.macroFor caller v = some m → (expansions offset).Carries (Value.rename ρ)
      (onCall m v) (onCall m (v.rename ρ))) (v : Value) :
    (expansions offset).Carries (Value.rename ρ) (e.expandParts caller onCall v)
      (e.expandParts caller onCall (v.rename ρ)) := by
  induction hn : sizeOf v using Nat.strongRecOn generalizing v with
  | ind n ih =>
      subst hn
      cases hm : e.macroFor caller v with
      | some m =>
          rw [expandParts_of_macroFor hm, expandParts_of_macroFor ((macroFor_rename he v).trans hm)]
          exact h m v hm
      | none =>
          have hpositions := v.positions_rename ρ
          rw [expandParts_eq_mapM hm, expandParts_eq_mapM ((macroFor_rename he v).trans hm),
            Value.parts, Value.parts, hpositions.forms]
          exact carries_bind_pure (carries_mapM fun w hw =>
            ih _ (Value.sizeOf_lt_of_mem_parts hw) w rfl) hpositions.fill

theorem carries_expandWithin (he : e.IsStructural) (hρ : ρ.Shifts offset) (n : Nat) (v : Value) :
    (expansions offset).Carries (Value.rename ρ) (e.expandWithin caller n v)
      (e.expandWithin caller n (v.rename ρ)) := by
  induction n generalizing v with
  | zero =>
      rw [expandWithin]
      refine carries_expandParts he (fun m call _ => ?_) v
      exact carries_throw rfl
  | succ n ih =>
      rw [expandWithin]
      refine carries_expandParts he (fun m call hm => ?_) v
      exact carries_bind (carries_expandOnce he hρ hm) ih

/-- Complete expansion depends on the numbers of the allocator up to renumbering. From two
allocators, it fails in both runs with failures of one kind, or in none; then the trees differ by
the numbers of the symbols that stand for marked names. Both runs take equally many numbers. -/
theorem expandAll_renumbered (he : e.IsStructural) (caller : Option Namespace) {node : Value}
    (hnode : ∀ s ∈ node.symbols, ¬s.HasRenameEnding) {a b : Int} (ha : 0 ≤ a) (hb : 0 ≤ b)
    {s s' t : ExpansionState} (hs : s.allocator = ⟨a⟩) (hs' : s'.allocator = ⟨b⟩)
    (htraced : s'.log.traced = s.log.traced) {r : Except Failure Value}
    (h : Gives (e.expandAll caller node) s r t) (hfits : t.allocator.next ≤ Number.textBound)
    (hfits' : t.allocator.next - a + b ≤ Number.textBound) :
    ∃ r' t', Gives (e.expandAll caller node) s' r' t' ∧
      Corresponds (Value.rename (.renumbering (b - a))) r r' ∧
        t'.allocator.next - b = t.allocator.next - a := by
  have hcarries : (expansions (b - a)).Carries _ (e.expandAll caller node) _ :=
    carries_expandWithin he (Renaming.shifts_renumbering (b - a)) e.maxDepth.toNat node
  rw [node.rename_eq_self _ hnode] at hcarries
  have hrelated : (expansions (b - a)).Related s s' := by
    refine ⟨?_, htraced⟩
    rw [hs, hs']
    exact ⟨ha, hb, by simp only; omega⟩
  obtain ⟨r', t', hgives, hr, ht⟩ := hcarries.follows hrelated h ⟨hfits, by omega⟩
  refine ⟨r', t', hgives, hr, ?_⟩
  have hnext : t'.allocator.next = t.allocator.next + (b - a) := ht.1.2.2
  omega

end Expander

/-- A macro whose body reads `(x# y#)` in a template. -/
def Macro.pairing : Macro where
  name := "m"
  parameters := ⟨[], none, List.nodup_nil⟩
  body := .list [.sym .syntaxQuote, .list [.bare "x#", .bare "y#"]]
  ns := "u"

theorem Number.hundred_le_textBound : 100 ≤ Number.textBound := by
  unfold Number.textBound
  generalize hlimit : 4300 = k
  exact (Nat.pow_le_pow_right (by decide) (by omega) : 10 ^ 2 ≤ 10 ^ k)

namespace Expander

theorem isStructural_pairing : (only .pairing).IsStructural := by
  have macros {m : Macro} (hm : m ∈ (only .pairing).registry.macros) : m = .pairing :=
    List.mem_singleton.mp hm
  refine ⟨fun hm => ?_, fun hm => ?_, fun hm => ?_⟩
  · rw [macros hm]
    decide
  · rw [macros hm]
    decide
  · rw [macros hm]
    rintro h (⟨-, -, hs, -⟩ | ⟨-, -, hs, -⟩ | ⟨he, -⟩)
    · exact absurd rfl hs
    · exact absurd rfl hs
    · exact nomatch he

theorem expandAll_renumbered_pairing :
    ∃ t', Gives ((only .pairing).expandAll none (.list [.bare "m"]))
      ({ allocator := ⟨40⟩ } : ExpansionState)
      (.ok (.list [.bare "x__40__auto__", .bare "y__41__auto__"])) t' ∧
        t'.allocator.next - 40 = 2 := by
  have hbound {n : Nat} (hn : n ≤ 100) : (n : Int) ≤ Number.textBound :=
    Int.ofNat_le.mpr (Nat.le_trans hn Number.hundred_le_textBound)
  have hcall : ∀ s ∈ (Value.list [.bare "m"]).symbols, ¬s.HasRenameEnding := by decide
  have hfirst : Gives ((only .pairing).expandAll none (.list [.bare "m"]))
      ({ allocator := ⟨1⟩ } : ExpansionState)
      (.ok (.list [.bare "x__1__auto__", .bare "y__2__auto__"])) { allocator := ⟨3⟩ } := rfl
  have hfrom (k : Int) : ({ allocator := ⟨k⟩ } : ExpansionState).allocator = ⟨k⟩ := rfl
  obtain ⟨r', t', hgives, hr, hnext⟩ := expandAll_renumbered isStructural_pairing none hcall
    (by decide) (by decide) (hfrom 1) (hfrom 40) rfl hfirst (hbound (n := 3) (by decide))
    (hbound (n := 42) (by decide))
  cases hr
  exact ⟨t', hgives, hnext⟩

theorem exists_gives_expandAll_pairing {a : Allocator} (ha : a.isWritable = true)
    (ha' : (⟨a.next + 1⟩ : Allocator).isWritable = false) :
    ∃ f t, Gives ((only .pairing).expandAll none (.list [.bare "m"]))
      ({ allocator := a } : ExpansionState) (.error f) t := by
  let call : Value := .list [.bare "m"]
  let table : RenameTable := Table.empty.insert "x#" (.numbered "x__" a.next)
  have hx := gives_renamed_ok (s := ⟨"x#", none⟩) (p := (Table.empty, a)) rfl ha
  have hy := gives_renamed_unwritable (s := ⟨"y#", none⟩) (p := (table, ⟨a.next + 1⟩)) rfl ha'
  have hbuilt : Gives (Template.build ((only .pairing).site .pairing Table.empty) .macroTime 1
      (.list [.bare "x#", .bare "y#"])) (Table.empty, a) (.error .unwritable)
      (table, ⟨a.next + 1 + 1⟩) := by
    rw [Template.build_plain _ _ _ (by unfold Template.IsHeaded Value.bare; decide)]
    refine gives_bind_pure.mpr ⟨.error .unwritable, ?_, rfl⟩
    refine gives_bind.mpr (.inr ⟨_, _, gives_bind_pure.mpr ⟨_, hx, rfl⟩, ?_⟩)
    refine gives_bind.mpr (.inl ⟨_, ?_, rfl⟩)
    exact gives_bind.mpr (.inl ⟨_, gives_bind_pure.mpr ⟨_, hy, rfl⟩, rfl⟩)
  have hbody : Gives ((only .pairing).resolveBody .pairing Table.empty) a (.error .unwritable)
      ⟨a.next + 1 + 1⟩ := Building.gives_runFrom.mpr ⟨table, hbuilt⟩
  have honce : Gives ((only .pairing).expandOnce none call) ({ allocator := a } : ExpansionState)
      (.error (Failure.unwritable.locate "m" call)) { allocator := ⟨a.next + 1 + 1⟩ } :=
    (gives_expandCall rfl).mpr (.inl ⟨_, _, hbody, rfl, rfl⟩)
  exact ⟨_, _, gives_bind.mpr (.inl ⟨_, honce, rfl⟩)⟩

/-- If the numbers are not bounded, an expansion may fail from one allocator only: here from that
with the last number that can be written. -/
theorem not_corresponds_expandAll_pairing :
    (only .pairing).IsStructural ∧
    ¬∀ (a b : Int) (r r' : Except Failure Value) (t t' : ExpansionState), 0 ≤ a → 0 ≤ b →
      Gives ((only .pairing).expandAll none (.list [.bare "m"]))
        ({ allocator := ⟨a⟩ } : ExpansionState) r t →
      Gives ((only .pairing).expandAll none (.list [.bare "m"]))
        ({ allocator := ⟨b⟩ } : ExpansionState) r' t' →
      Corresponds (Value.rename (.renumbering (b - a))) r r' := by
  refine ⟨isStructural_pairing, fun h => ?_⟩
  have hpos := Number.hundred_le_textBound
  have hlast : 0 ≤ (Number.textBound : Int) - 1 := by omega
  have hnext : (Number.textBound : Int) - 1 + 1 = Number.textBound := by omega
  have hwritable : (⟨Number.textBound - 1⟩ : Allocator).isWritable = true :=
    (Allocator.isWritable_iff hlast).mpr (by simp only; omega)
  have hunwritable : (⟨Number.textBound - 1 + 1⟩ : Allocator).isWritable = false := by
    rw [hnext, ← Bool.not_eq_true, Allocator.isWritable_iff (Int.natCast_nonneg _)]
    exact Int.lt_irrefl _
  obtain ⟨f, t', hfails⟩ := exists_gives_expandAll_pairing hwritable hunwritable
  exact nomatch h 1 (Number.textBound - 1) (.ok (.list [.bare "x__1__auto__", .bare "y__2__auto__"]))
    _ _ _ (by decide) hlast rfl hfails

end Expander

end Quasiquote
