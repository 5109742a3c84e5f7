import Quasiquote.Proofs.Template.Outline

namespace Quasiquote

open Stateful

namespace Template

variable {site : Site (StateM Allocator)} {k : Int} {table : RenameTable}
variable {p q u : RenameTable × Allocator} {s : Symbol}

theorem gives_build_atom {v : Value} (hv : v.IsAtom) :
    Gives (m := StateT RenameTable (StateM Allocator)) (build site .macroTime 1 v) p (.ok v) p := by
  rw [build_atom _ _ _ hv]
  exact gives_pure.mpr ⟨rfl, rfl⟩

theorem gives_build_fresh {lead : String} (hs : s.isMarked = true)
    (hlead : s.unmarkedName ++ "__" = lead) (hnone : table.find? s.name = none)
    (hk : (⟨k⟩ : Allocator).isWritable = true) :
    Gives (m := StateT RenameTable (StateM Allocator)) (build site .macroTime 1 (.sym s)) (table, ⟨k⟩)
      (.ok (.sym (.numbered lead k))) (table.insert s.name (.numbered lead k), ⟨k + 1⟩) := by
  refine gives_build_symbol ?_
  rw [qualify, if_pos hs, ← hlead]
  exact gives_renamed_ok hnone hk

theorem gives_build_known {known : Symbol} (hs : s.isMarked = true)
    (h : p.1.find? s.name = some known) :
    Gives (m := StateT RenameTable (StateM Allocator)) (build site .macroTime 1 (.sym s)) p
      (.ok (.sym known)) p := by
  refine gives_build_symbol ?_
  rw [qualify, if_pos hs]
  exact gives_renamed.mpr (.inl ⟨known, h, rfl, rfl⟩)

theorem gives_build_bare (hs : s.isMarked = false)
    (hbare : (!s.isQualified && bareNames.contains s.name) = true) :
    Gives (m := StateT RenameTable (StateM Allocator)) (build site .macroTime 1 (.sym s)) p
      (.ok (.sym s)) p :=
  gives_build_symbol (gives_qualify_bare (by simp [hs]) hbare)

theorem gives_build_resolved {ns : Namespace} {s' : Symbol} (hns : site.ns = pure ns)
    (hs : s.isMarked = false) (hbare : (!s.isQualified && bareNames.contains s.name) = false)
    (hresolve : ns.resolve s = s') :
    Gives (m := StateT RenameTable (StateM Allocator)) (build site .macroTime 1 (.sym s)) p
      (.ok (.sym s')) p := by
  refine gives_build_symbol ?_
  rw [hns, ← hresolve]
  exact gives_qualify_resolve ns (by simp [hs]) (Bool.eq_false_iff.mp hbare)

theorem gives_build_parameter {name : String} {v : Value}
    (hv : site.bindings.find? name = some v) :
    Gives (m := StateT RenameTable (StateM Allocator))
      (build site .macroTime 1 (.list [.sym .unquote, .bare name])) p (.ok v.single) p := by
  rw [build_parameter (.inl rfl) (by decide) hv rfl]
  exact gives_pure.mpr ⟨rfl, rfl⟩

theorem gives_buildItems_single {v w : Value} {vs ws : List Value}
    (hv : Gives (m := StateT RenameTable (StateM Allocator)) (build site .macroTime 1 v) p (.ok w) q)
    (hw : w.spread = [w])
    (hvs : Gives (m := StateT RenameTable (StateM Allocator)) (buildItems site .macroTime 1 vs) q
      (.ok ws) u) :
    Gives (m := StateT RenameTable (StateM Allocator)) (buildItems site .macroTime 1 (v :: vs)) p
      (.ok (w :: ws)) u := by
  have hcons := gives_buildItems_cons hv hvs
  rwa [hw] at hcons

theorem gives_build_list {items ws : List Value} (hs : ¬(s.IsEscape ∨ s = .syntaxQuote))
    (h : Gives (m := StateT RenameTable (StateM Allocator))
      (buildItems site .macroTime 1 (.sym s :: items)) p (.ok ws) q) :
    Gives (m := StateT RenameTable (StateM Allocator))
      (build site .macroTime 1 (.list (.sym s :: items))) p (.ok (.list ws)) q :=
  gives_build_plain hs h

end Template
end Quasiquote
