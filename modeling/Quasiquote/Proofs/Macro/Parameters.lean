import Quasiquote.Macro.Parameters

namespace Quasiquote

namespace Table

variable {κ α : Type} [DecidableEq κ]

theorem bind_of_notMem {k : κ} {v : α} {es : List (κ × α)} (h : k ∉ es.map Prod.fst) :
    bind k v es = es ++ [(k, v)] := by
  induction es with
  | nil => rfl
  | cons e es ih =>
      rw [List.map_cons, List.mem_cons, not_or] at h
      rw [bind, if_neg fun he => h.1 he.symm, ih h.2, List.cons_append]

theorem entries_ofList {es : List (κ × α)} (h : (es.map Prod.fst).Nodup) :
    (ofList es).entries = es := by
  suffices ∀ t : Table κ α, (∀ e ∈ es, e.1 ∉ t.entries.map Prod.fst) →
      (es.foldl (fun t e => t.insert e.1 e.2) t).entries = t.entries ++ es from
    this empty (by simp [empty])
  induction es with
  | nil => simp
  | cons e es ih =>
      intro t ht
      rw [List.map_cons, List.nodup_cons] at h
      have hinsert : (t.insert e.1 e.2).entries = t.entries ++ [e] :=
        bind_of_notMem (ht e (by simp))
      rw [List.foldl_cons, ih h.2, hinsert, List.append_assoc, List.singleton_append]
      intro e' he'
      rw [hinsert, List.map_append, List.mem_append, not_or]
      refine ⟨ht e' (by simp [he']), fun heq => h.1 ?_⟩
      rw [← List.mem_singleton.mp heq]
      exact List.mem_map_of_mem he'

end Table

namespace Parameters

variable {p : Parameters} {args : List Value}

theorem length_fixed_le {n : Nat} (h : p.accepts n = true) : p.fixed.length ≤ n := by
  simp only [accepts, Bool.and_eq_true, decide_eq_true_eq] at h
  exact h.1

theorem entries_bind (h : p.accepts args.length = true) :
    (p.bind args).entries = p.fixed.zip args ++
      p.variadic.toList.map fun name => (name, Value.list (args.drop p.fixed.length)) := by
  apply Table.entries_ofList
  rw [List.map_append, List.map_fst_zip (length_fixed_le h), List.map_map]
  exact (List.map_id p.variadic.toList).symm ▸ p.nodup

theorem find?_bind_iff (h : p.accepts args.length = true) {name : String} {v : Value} :
    (p.bind args).find? name = some v ↔
      (∃ i : Nat, p.fixed[i]? = some name ∧ args[i]? = some v) ∨
        p.variadic = some name ∧ v = .list (args.drop p.fixed.length) := by
  rw [Table.find?_eq_some_iff, entries_bind h, List.mem_append]
  refine or_congr ?_ ?_
  · simp [List.mem_iff_getElem?, List.getElem?_zip_eq_some]
  · cases p.variadic <;> simp [eq_comm]

end Parameters

end Quasiquote
