import Quasiquote.Proofs.Macro.Parameters
import Quasiquote.Proofs.Macro.Registry
import Quasiquote.Session

namespace Quasiquote.Session

/-- The namespace of a name, as it is or as it will be when it is entered first. -/
def namespaceOf (s : Session) (name : String) : Namespace :=
  (s.expander.namespaces.find? name).getD (newNamespace name)

/-- A namespace does not refer a name from elsewhere. -/
def Unrefers (s : Session) (ns name : String) : Prop :=
  (s.namespaceOf ns).refers.find? name = none

/-- A namespace has a global or a macro of its own with a name. -/
def Owns (s : Session) (ns name : String) : Prop :=
  s.globals.find? ⟨name, some ns⟩ ≠ none ∨ s.expander.registry.find? (ns, name) ≠ none

/-- What holds of a session between any two steps. The core namespace is left out: it refers its own
names. -/
structure Consistent (s : Session) : Prop where
  current : s.expander.namespaces.find? s.current ≠ none
  named : ∀ name ns, s.expander.namespaces.find? name = some ns → ns.name = name
  qualified : ∀ name v, s.globals.find? name = some v → name.isQualified = true
  known : ∀ m ∈ s.expander.registry.macros, s.expander.namespaces.find? m.ns ≠ none
  unrefers : ∀ ns name, ns ≠ coreNamespace → s.Owns ns name → s.Unrefers ns name

/-- A consistent session stays consistent, and no namespace refers a name that it did not refer. -/
def Preserves (s t : Session) : Prop :=
  s.Consistent → t.Consistent ∧ ∀ ns name, s.Unrefers ns name → t.Unrefers ns name

instance : IsPreorder Session Preserves where
  refl _ hs := ⟨hs, fun _ _ h => h⟩
  trans _ _ _ h h' hs :=
    let ⟨ht, hunrefers⟩ := h hs
    let ⟨hu, hunrefers'⟩ := h' ht
    ⟨hu, fun ns name hns => hunrefers' ns name (hunrefers ns name hns)⟩

variable {s t : Session} {ns : Namespace} {name : String}

/-- Two sessions have the same macros, namespaces and globals, whatever else they have. -/
structure SameTables (s t : Session) : Prop where
  registry : t.expander.registry = s.expander.registry
  namespaces : t.expander.namespaces = s.expander.namespaces
  current : t.current = s.current
  globals : t.globals = s.globals

theorem SameTables.preserves (h : SameTables s t) : Preserves s t := by
  have howns (ns name : String) : t.Owns ns name ↔ s.Owns ns name := by
    rw [Owns, Owns, h.registry, h.globals]
  have hunrefers (ns name : String) : t.Unrefers ns name ↔ s.Unrefers ns name := by
    rw [Unrefers, Unrefers, namespaceOf, namespaceOf, h.namespaces]
  intro hs
  constructor
  · constructor
    · rw [h.namespaces, h.current]
      exact hs.current
    · rw [h.namespaces]
      exact hs.named
    · rw [h.globals]
      exact hs.qualified
    · rw [h.registry, h.namespaces]
      exact hs.known
    · intro ns name hne hown
      exact (hunrefers ns name).mpr (hs.unrefers ns name hne ((howns ns name).mp hown))
  · exact fun ns name => (hunrefers ns name).mpr

theorem find?_putNamespace (s : Session) (ns : Namespace) (name : String) :
    (s.putNamespace ns).expander.namespaces.find? name =
      if name = ns.name then some ns else s.expander.namespaces.find? name :=
  Table.find?_insert _ _ _ _

theorem namespaceOf_putNamespace (s : Session) (ns : Namespace) (name : String) :
    (s.putNamespace ns).namespaceOf name = if name = ns.name then ns else s.namespaceOf name := by
  rw [namespaceOf, find?_putNamespace]
  split <;> rfl

theorem find?_putNamespace_ne_none (h : s.expander.namespaces.find? name ≠ none) :
    (s.putNamespace ns).expander.namespaces.find? name ≠ none := by
  rw [find?_putNamespace]
  split
  · exact nofun
  · exact h

theorem preserves_putNamespace (h : ∀ name, s.Unrefers ns.name name → ns.refers.find? name = none) :
    Preserves s (s.putNamespace ns) := by
  intro hs
  have hunrefers : ∀ other name, s.Unrefers other name → (s.putNamespace ns).Unrefers other name := by
    intro other name hother
    rw [Unrefers, namespaceOf_putNamespace]
    split
    · rename_i heq
      exact h name (heq ▸ hother)
    · exact hother
  refine ⟨⟨find?_putNamespace_ne_none hs.current, ?_, hs.qualified,
    fun m hm => find?_putNamespace_ne_none (hs.known m hm),
    fun other name hne howns => hunrefers other name (hs.unrefers other name hne howns)⟩, hunrefers⟩
  intro name found hfound
  rw [find?_putNamespace] at hfound
  split at hfound
  · cases hfound
    exact Eq.symm ‹_›
  · exact hs.named name found hfound

namespace Consistent

variable (hs : s.Consistent)
include hs

theorem currentNamespace_eq : s.currentNamespace = s.namespaceOf s.current := by
  obtain ⟨ns, hns⟩ := Option.ne_none_iff_exists'.mp hs.current
  rw [currentNamespace, Expander.namespaceNamed, namespaceOf, hns]
  rfl

theorem name_currentNamespace : s.currentNamespace.name = s.current := by
  obtain ⟨ns, hns⟩ := Option.ne_none_iff_exists'.mp hs.current
  rw [currentNamespace, Expander.namespaceNamed, hns]
  exact hs.named s.current ns hns

end Consistent

theorem consistent_setGlobal (hs : s.Consistent) {ns name : String} (h : s.Unrefers ns name)
    (v : Value) : (s.setGlobal ⟨name, some ns⟩ v).Consistent := by
  have hfind (other : Symbol) : (s.setGlobal ⟨name, some ns⟩ v).globals.find? other =
      if other = ⟨name, some ns⟩ then some v else s.globals.find? other :=
    Table.find?_insert _ _ _ _
  refine ⟨hs.current, hs.named, fun other w hfound => ?_, hs.known, fun other name' hne howns => ?_⟩
  · rw [hfind] at hfound
    split at hfound
    · rename_i heq
      rw [heq]
      rfl
    · exact hs.qualified other w hfound
  · rw [Owns, hfind] at howns
    split at howns
    · rename_i heq
      cases heq
      exact h
    · exact hs.unrefers other name' hne howns

theorem consistent_defineMacro (hs : s.Consistent) {m : Macro}
    (hm : s.expander.namespaces.find? m.ns ≠ none) (h : s.Unrefers m.ns m.name) :
    (s.defineMacro m).Consistent := by
  refine ⟨hs.current, hs.named, hs.qualified, fun m' hm' => ?_, fun other name' hne howns => ?_⟩
  · rcases Registry.mem_define_iff.mp hm' with rfl | ⟨hm', -⟩
    · exact hm
    · exact hs.known m' hm'
  · rcases howns with howns | howns
    · exact hs.unrefers other name' hne (.inl howns)
    · change (s.expander.registry.define m).find? (other, name') ≠ none at howns
      rw [Registry.find?_define] at howns
      split at howns
      · rename_i heq
        cases heq
        exact h
      · exact hs.unrefers other name' hne (.inr howns)

theorem preserves_unrefer (s : Session) (name : String) : Preserves s (s.unrefer name) := by
  intro hs
  refine preserves_putNamespace (fun other hother => ?_) hs
  change (s.namespaceOf s.currentNamespace.name).refers.find? other = none at hother
  rw [hs.name_currentNamespace, ← hs.currentNamespace_eq] at hother
  rw [Namespace.unrefer, Table.find?_erase, hother, ite_self]

theorem unrefers_unrefer (hs : s.Consistent) (name : String) :
    (s.unrefer name).Unrefers s.current name := by
  have hname : s.current = (s.currentNamespace.unrefer name).name := hs.name_currentNamespace.symm
  rw [Unrefers, unrefer, namespaceOf_putNamespace, if_pos hname, Namespace.unrefer,
    Table.find?_erase, if_pos rfl]

theorem preserves_addAlias (s : Session) (short full : String) :
    Preserves s (s.addAlias short full) := by
  intro hs
  refine preserves_putNamespace (fun other hother => ?_) hs
  change (s.namespaceOf s.currentNamespace.name).refers.find? other = none at hother
  rwa [hs.name_currentNamespace, ← hs.currentNamespace_eq] at hother

theorem preserves_current (h : s.expander.namespaces.find? name ≠ none) :
    Preserves s { s with current := name } :=
  fun hs => ⟨⟨h, hs.named, hs.qualified, hs.known, hs.unrefers⟩, fun _ _ h => h⟩

theorem preserves_enter (s : Session) (name : String) : Preserves s (s.enter name) := by
  unfold enter
  dsimp only
  split
  · rename_i hcontains
    refine preserves_current fun hnone => ?_
    rw [Table.contains, hnone] at hcontains
    exact nomatch hcontains
  · rename_i hcontains
    have hnone : s.expander.namespaces.find? name = none := by
      simpa [Table.contains] using hcontains
    refine trans_of Preserves (preserves_putNamespace fun other hother => ?_)
      (preserves_current ?_)
    · change (s.namespaceOf name).refers.find? other = none at hother
      rwa [namespaceOf, hnone] at hother
    · exact fun h => nomatch (Table.find?_insert_self _ _ _).symm.trans h

theorem refers_newNamespace (name : String) :
    (newNamespace name).refers = (newNamespace "").refers :=
  rfl

theorem coreGlobals_cases : ∀ e ∈ coreGlobals.entries,
    e.1.ns = some coreNamespace ∨
      e.1.ns = some logNamespace ∧ (newNamespace "").refers.find? e.1.name = none := by
  decide

theorem namespaceOf_start (name other : String) (depth nesting : Int) (allocator : Allocator) :
    (start name depth nesting allocator).namespaceOf other = newNamespace other := by
  change Session.namespaceOf (putNamespace _ (newNamespace name)) other = _
  rw [namespaceOf_putNamespace]
  split
  · rename_i heq
    rw [heq]
    rfl
  · rfl

theorem consistent_start (name : String) (depth nesting : Int) (allocator : Allocator) :
    (start name depth nesting allocator).Consistent := by
  have hfind (other : String) :
      (start name depth nesting allocator).expander.namespaces.find? other =
        if other = name then some (newNamespace name) else none :=
    find?_putNamespace _ (newNamespace name) other
  have hglobals {other : Symbol} {v : Value}
      (h : (start name depth nesting allocator).globals.find? other = some v) :=
    coreGlobals_cases _ ((Table.find?_eq_some_iff _).mp h)
  constructor
  · exact fun h => nomatch (if_pos rfl).symm.trans ((hfind name).symm.trans h)
  · intro other ns hns
    rw [hfind] at hns
    split at hns
    · cases hns
      exact Eq.symm ‹_›
    · exact nomatch hns
  · intro other v hv
    rcases hglobals hv with hns | ⟨hns, -⟩ <;> rw [Symbol.isQualified, hns] <;> rfl
  · exact nofun
  · intro other name' hne howns
    rcases howns with howns | howns
    · obtain ⟨v, hv⟩ := Option.ne_none_iff_exists'.mp howns
      rw [Unrefers, namespaceOf_start, refers_newNamespace]
      rcases hglobals hv with hns | ⟨-, hunrefers⟩
      · exact absurd (Option.some.inj hns) hne
      · exact hunrefers
    · exact absurd rfl howns

end Quasiquote.Session
