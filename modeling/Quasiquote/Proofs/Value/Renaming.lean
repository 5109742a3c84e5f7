import Quasiquote.Proofs.Expansion.Position
import Quasiquote.Proofs.Value.Symbols

namespace Quasiquote

/-- Whether a symbol ends as the symbols do that stand for marked names. -/
def Symbol.HasRenameEnding (s : Symbol) : Prop := renameEnding.toList <:+ s.name.toList

instance (s : Symbol) : Decidable s.HasRenameEnding := inferInstanceAs (Decidable (_ <:+ _))

/-- A map of symbols that keeps the symbols without the ending of renamings, and that gives others
the ending again. -/
structure Renaming where
  toFun : Symbol → Symbol
  fixed {s : Symbol} : ¬s.HasRenameEnding → toFun s = s
  ending {s : Symbol} : s.HasRenameEnding → (toFun s).HasRenameEnding

namespace Renaming

instance : CoeFun Renaming fun _ => Symbol → Symbol := ⟨toFun⟩

variable (ρ : Renaming)

theorem eq_iff {s t : Symbol} (ht : ¬t.HasRenameEnding) : ρ s = t ↔ s = t := by
  by_cases hs : s.HasRenameEnding
  · constructor
    · rintro rfl
      exact absurd (ρ.ending hs) ht
    · rintro rfl
      exact absurd hs ht
  · rw [ρ.fixed hs]

theorem name_eq_iff {s : Symbol} {name : String} (h : ¬renameEnding.toList <:+ name.toList) :
    (ρ s).name = name ↔ s.name = name := by
  by_cases hs : s.HasRenameEnding
  · constructor
    · rintro rfl
      exact absurd (ρ.ending hs) h
    · rintro rfl
      exact absurd hs h
  · rw [ρ.fixed hs]

theorem isCore_eq (s : Symbol) {name : String} (h : ¬renameEnding.toList <:+ name.toList) :
    (ρ s).isCore name = s.isCore name := by
  by_cases hs : s.HasRenameEnding
  · have hname : s.name ≠ name := fun heq => h (heq ▸ hs)
    have hname' : (ρ s).name ≠ name := mt (ρ.name_eq_iff h).mp hname
    simp [Symbol.isCore, hname, hname']
  · rw [ρ.fixed hs]

end Renaming

namespace Value

mutual

def rename (ρ : Renaming) : Value → Value
  | sym s => sym (ρ s)
  | list items => list (renameAll ρ items)
  | tuple items => tuple (renameAll ρ items)
  | splice items => splice (renameAll ρ items)
  | v => v
termination_by structural v => v

def renameAll (ρ : Renaming) : List Value → List Value
  | [] => []
  | v :: vs => v.rename ρ :: renameAll ρ vs
termination_by structural vs => vs

end

variable (ρ : Renaming)

theorem renameAll_eq_map (vs : List Value) : renameAll ρ vs = vs.map (rename ρ) := by
  induction vs with
  | nil => rfl
  | cons v vs ih => rw [renameAll, ih, List.map_cons]

@[simp] theorem rename_sym (s : Symbol) : (sym s).rename ρ = sym (ρ s) := rfl

@[simp] theorem rename_list (items : List Value) :
    (list items).rename ρ = list (items.map (rename ρ)) := by
  rw [rename, renameAll_eq_map]

@[simp] theorem rename_tuple (items : List Value) :
    (tuple items).rename ρ = tuple (items.map (rename ρ)) := by
  rw [rename, renameAll_eq_map]

@[simp] theorem rename_splice (items : List Value) :
    (splice items).rename ρ = splice (items.map (rename ρ)) := by
  rw [rename, renameAll_eq_map]

mutual

theorem rename_eq_self : ∀ (v : Value), (∀ s ∈ v.symbols, ¬s.HasRenameEnding) → v.rename ρ = v
  | sym s, h => congrArg sym (ρ.fixed (h s (by simp [symbols])))
  | list items, h => congrArg list (renameAll_eq_self items h)
  | tuple items, h => congrArg tuple (renameAll_eq_self items h)
  | splice items, h => congrArg splice (renameAll_eq_self items h)
  | nil, _ => rfl
  | bool _, _ => rfl
  | num _, _ => rfl
  | str _, _ => rfl
  | kw _, _ => rfl
  | error _ _, _ => rfl
  | fn _, _ => rfl
termination_by structural v => v

theorem renameAll_eq_self :
    ∀ (vs : List Value), (∀ s ∈ symbolsOfItems vs, ¬s.HasRenameEnding) → renameAll ρ vs = vs
  | [], _ => rfl
  | v :: vs, h => by
      rw [renameAll, rename_eq_self v fun s hs => h s (List.mem_append_left _ hs),
        renameAll_eq_self vs fun s hs => h s (List.mem_append_right _ hs)]
termination_by structural vs => vs

end

mutual

theorem isWritable_rename : ∀ v : Value, (v.rename ρ).isWritable = v.isWritable
  | sym _ => rfl
  | list items => areWritable_renameAll items
  | tuple items => areWritable_renameAll items
  | splice items => areWritable_renameAll items
  | nil => rfl
  | bool _ => rfl
  | num _ => rfl
  | str _ => rfl
  | kw _ => rfl
  | error _ _ => rfl
  | fn _ => rfl
termination_by structural v => v

theorem areWritable_renameAll : ∀ vs : List Value, areWritable (renameAll ρ vs) = areWritable vs
  | [] => rfl
  | v :: vs => by
      rw [renameAll, areWritable, areWritable, isWritable_rename v, areWritable_renameAll vs]
termination_by structural vs => vs

end

theorem spread_rename (v : Value) : (v.rename ρ).spread = v.spread.map (rename ρ) := by
  cases v with
  | splice items => rw [rename_splice, spread, spread]
  | _ => rfl

theorem single_rename (v : Value) : (v.rename ρ).single = v.single.rename ρ := by
  cases v with
  | splice items => rw [rename_splice, single, single, rename_list]
  | _ => rfl

theorem sequenced_rename (v : Value) : (v.rename ρ).sequenced = v.sequenced.rename ρ := by
  cases v with
  | splice items =>
      have hhead : ρ .sequence = .sequence := ρ.fixed (by decide)
      rw [rename_splice, sequenced, sequenced, rename_list, List.map_cons, rename_sym, hhead]
  | _ => rfl

end Value

/-- A renaming moves positions: the forms there are renamed, and renamed forms can be put there. -/
structure Positions.Renames (ρ : Renaming) (p q : Positions) : Prop where
  forms : q.forms = p.forms.map (Value.rename ρ)
  fill (ws : List Value) : q.fill (ws.map (Value.rename ρ)) = (p.fill ws).rename ρ

namespace Value

variable (ρ : Renaming)

theorem clausePositions_rename (c : Value) :
    c.clausePositions.Renames ρ (c.rename ρ).clausePositions := by
  have whole {v : Value} (hv : v.clausePositions = ⟨[v], fun ws => ws.headD .nil⟩)
      (hw : (v.rename ρ).clausePositions = ⟨[v.rename ρ], fun ws => ws.headD .nil⟩) :
      v.clausePositions.Renames ρ (v.rename ρ).clausePositions := by
    rw [hv, hw]
    refine ⟨rfl, fun ws => ?_⟩
    cases ws <;> rfl
  cases c with
  | list items =>
      rcases items with _ | ⟨head, args⟩
      · exact whole rfl rfl
      cases head with
      | sym s =>
          have hhandler : ρ s = .handler ↔ s = .handler := ρ.eq_iff (by decide)
          have hcleanup : ρ s = .cleanup ↔ s = .cleanup := ρ.eq_iff (by decide)
          rw [rename_list, List.map_cons, rename_sym, clausePositions, clausePositions]
          simp only [hhandler, hcleanup]
          split
          · exact ⟨List.map_tail.symm, fun ws => by simp⟩
          split
          · exact ⟨rfl, fun ws => by simp⟩
          · refine ⟨by simp, fun ws => ?_⟩
            cases ws <;> rfl
      | list items =>
          refine whole rfl ?_
          rw [rename_list, List.map_cons, rename_list]
          rfl
      | _ => exact whole rfl rfl
  | _ => exact whole rfl rfl

theorem fillClauses_rename (cs ws : List Value) :
    fillClauses (cs.map (rename ρ)) (ws.map (rename ρ)) = (fillClauses cs ws).map (rename ρ) := by
  induction cs generalizing ws with
  | nil => rfl
  | cons c cs ih =>
      have hc := clausePositions_rename ρ c
      rw [List.map_cons, fillClauses, fillClauses, hc.forms, List.length_map, ← List.map_take,
        hc.fill, ← List.map_drop, ih, List.map_cons]

theorem positions_rename (v : Value) : v.positions.Renames ρ (v.rename ρ).positions := by
  have literal {w : Value} (hw : w.positions = ⟨[], fun _ => w⟩)
      (hw' : (w.rename ρ).positions = ⟨[], fun _ => w.rename ρ⟩) :
      w.positions.Renames ρ (w.rename ρ).positions := by
    rw [hw, hw']
    exact ⟨rfl, fun _ => rfl⟩
  have items {vs : List Value} (hvs : (list vs).call? = none)
      (hvs' : (list (vs.map (rename ρ))).call? = none) :
      (list vs).positions.Renames ρ ((list vs).rename ρ).positions := by
    rw [rename_list, positions_of_call?_eq_none hvs, positions_of_call?_eq_none hvs']
    exact ⟨rfl, fun ws => (rename_list ρ ws).symm⟩
  cases v with
  | list vs =>
      rcases vs with _ | ⟨head, args⟩
      · exact items rfl rfl
      cases head with
      | sym s =>
          have hquote : (ρ s).isCore "quote" = s.isCore "quote" := ρ.isCore_eq s (by decide)
          have htemplate : (ρ s).isCore "syntax-quote" = s.isCore "syntax-quote" :=
            ρ.isCore_eq s (by decide)
          have hlet : (ρ s).isCore "let" = s.isCore "let" := ρ.isCore_eq s (by decide)
          have hattempt : ρ s = .attempt ↔ s = .attempt := ρ.eq_iff (by decide)
          rw [rename_list, List.map_cons, rename_sym, positions.eq_def, positions.eq_def]
          simp only [hquote, htemplate, hlet, hattempt]
          split
          · exact ⟨rfl, fun ws => by simp⟩
          split
          · rcases args with _ | ⟨first, body⟩
            · exact ⟨rfl, fun ws => by simp⟩
            cases first with
            | list bindings =>
                simp only [List.map_cons, rename_list]
                exact ⟨by simp, fun ws => by simp⟩
            | _ => exact ⟨rfl, fun ws => (rename_list ρ (sym s :: ws)).symm⟩
          split
          · refine ⟨?_, fun ws => ?_⟩
            · simp only [List.flatMap_map, List.map_flatMap, (clausePositions_rename ρ _).forms]
            · simp [fillClauses_rename]
          · exact ⟨rfl, fun ws => by simp⟩
      | list _ =>
          refine items rfl ?_
          rw [List.map_cons, rename_list]
          rfl
      | _ => exact items rfl rfl
  | _ => exact literal rfl rfl

end Value

end Quasiquote
