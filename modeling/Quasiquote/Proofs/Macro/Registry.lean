import Mathlib.Data.List.Nodup
import Quasiquote.Macro.Registry

namespace Quasiquote.Registry

variable {r : Registry} {m : Macro} {key : String × String}

theorem find?_eq_some_iff : r.find? key = some m ↔ m ∈ r.macros ∧ m.key = key := by
  constructor
  · intro h
    exact ⟨List.mem_of_find?_eq_some h, by simpa using List.find?_some h⟩
  · rintro ⟨hm, rfl⟩
    cases hfound : r.find? m.key with
    | none => simpa using List.find?_eq_none.mp hfound m hm
    | some m' =>
        have hm' := List.mem_of_find?_eq_some hfound
        have hkey : m'.key = m.key := by simpa using List.find?_some hfound
        rw [List.inj_on_of_nodup_map r.keys_nodup hm' hm hkey]

theorem mem_remove_iff : m ∈ (r.remove key).macros ↔ m ∈ r.macros ∧ m.key ≠ key := by
  simp [remove]

theorem mem_define_iff {m' : Macro} :
    m' ∈ (r.define m).macros ↔ m' = m ∨ m' ∈ r.macros ∧ m'.key ≠ m.key := by
  change m' ∈ (r.remove m.key).macros ++ [m] ↔ _
  rw [List.mem_append, mem_remove_iff, List.mem_singleton, or_comm]

theorem find?_define (m : Macro) (key : String × String) :
    (r.define m).find? key = if key = m.key then some m else r.find? key := by
  ext m'
  rw [find?_eq_some_iff, mem_define_iff]
  split
  · rename_i h
    rw [Option.some.injEq]
    constructor
    · rintro ⟨rfl | ⟨-, hne⟩, hkey⟩
      · rfl
      · exact absurd (hkey.trans h) hne
    · rintro rfl
      exact ⟨.inl rfl, h.symm⟩
  · rename_i h
    rw [find?_eq_some_iff]
    constructor
    · rintro ⟨rfl | ⟨hm, -⟩, hkey⟩
      · exact absurd hkey.symm h
      · exact ⟨hm, hkey⟩
    · rintro ⟨hm, rfl⟩
      exact ⟨.inr ⟨hm, h⟩, rfl⟩

theorem exists_remove_eq (hm : m ∈ r.macros) :
    ∃ older newer, r.macros = older ++ m :: newer ∧ (r.remove m.key).macros = older ++ newer := by
  obtain ⟨older, newer, heq⟩ := List.append_of_mem hm
  have hnodup := r.keys_nodup
  rw [heq, List.map_append, List.map_cons, List.nodup_middle, List.nodup_cons, ← List.map_append]
    at hnodup
  have hkept : ∀ n ∈ older ++ newer, decide (n.key ≠ m.key) = true := by
    intro n hn
    rw [decide_eq_true_eq]
    exact fun hkey => hnodup.1 (hkey ▸ List.mem_map_of_mem hn)
  refine ⟨older, newer, heq, ?_⟩
  change r.macros.filter (fun n => n.key ≠ m.key) = older ++ newer
  rw [heq, List.filter_append, List.filter_cons_of_neg (by simp), ← List.filter_append]
  exact List.filter_eq_self.mpr hkept

end Quasiquote.Registry
