import Quasiquote.Proofs.Template.Shape

namespace Quasiquote.Template

/-- Building a template at a level comes to a form at a level. -/
inductive Visits : Int → Value → Int → Value → Prop
  | here {level : Int} {t : Value} : Visits level t level t
  | item {level k : Int} {items : List Value} {w v : Value} :
      ¬IsHeaded items → w ∈ items → Visits level w k v → Visits level (.list items) k v
  | template {level k : Int} {arg v : Value} :
      Visits (level + 1) arg k v → Visits level (.list [.sym .syntaxQuote, arg]) k v
  | kept {level k : Int} {s : Symbol} {arg v : Value} :
      s.IsEscape → 1 < level → Visits (level - 1) arg k v → Visits level (.list [.sym s, arg]) k v

variable {level k : Int} {t v : Value}

theorem Visits.one_le (h : Visits level t k v) (hl : 1 ≤ level) : 1 ≤ k := by
  induction h with
  | here => exact hl
  | item _ _ _ ih => exact ih hl
  | template _ ih => exact ih (by omega)
  | kept _ hlevel _ ih => exact ih (by omega)

theorem Visits.mem_escapes {s : Symbol} {arg : Value} (h : Visits level t k (.list [.sym s, arg]))
    (hs : s.IsEscape) : ⟨k, s, arg⟩ ∈ escapes level t := by
  generalize hv : Value.list [.sym s, arg] = v at h
  induction h with
  | here =>
      subst hv
      rw [escapes_escape _ arg hs]
      exact List.mem_cons_self
  | item hi hw _ ih =>
      rw [escapes_plain _ hi]
      exact List.mem_flatMap.mpr ⟨_, hw, ih hv⟩
  | template _ ih =>
      rw [escapes_template]
      exact ih hv
  | kept hs' hl _ ih =>
      rw [escapes_escape _ _ hs', if_pos hl]
      exact List.mem_cons_of_mem _ (ih hv)

theorem visits_of_mem_escapes {e : Escape} (h : e ∈ escapes level t) :
    e.head.IsEscape ∧ Visits level t e.level (.list [.sym e.head, e.arg]) := by
  induction t using Template.induction generalizing level with
  | atom t ht =>
      rw [escapes_atom level ht] at h
      exact nomatch h
  | symbol s => exact nomatch h
  | escape s arg hs ih =>
      rw [escapes_escape level arg hs] at h
      rcases List.mem_cons.mp h with rfl | h
      · exact ⟨hs, .here⟩
      · split at h
        · obtain ⟨he, hvisits⟩ := ih h
          exact ⟨he, .kept hs ‹_› hvisits⟩
        · exact nomatch h
  | template arg ih =>
      rw [escapes_template] at h
      obtain ⟨he, hvisits⟩ := ih h
      exact ⟨he, .template hvisits⟩
  | malformed s args hs hn _ =>
      rw [escapes_malformed level hs hn] at h
      exact nomatch h
  | plain items hi ih =>
      rw [escapes_plain level hi] at h
      obtain ⟨w, hw, h⟩ := List.mem_flatMap.mp h
      obtain ⟨he, hvisits⟩ := ih w hw h
      exact ⟨he, .item hi hw hvisits⟩

/-- The escapes of a template are exactly the visited forms that are escapes. -/
theorem mem_escapes_iff {e : Escape} :
    e ∈ escapes level t ↔
      e.head.IsEscape ∧ Visits level t e.level (.list [.sym e.head, e.arg]) :=
  ⟨visits_of_mem_escapes, fun ⟨hs, h⟩ => h.mem_escapes hs⟩

theorem one_le_of_mem_escapes {e : Escape} (h : e ∈ escapes level t) (hl : 1 ≤ level) :
    1 ≤ e.level :=
  (visits_of_mem_escapes h).2.one_le hl

theorem filter_escapes_eq (t : Value) :
    (escapes 1 t).filter (·.level ≤ 1) = (escapes 1 t).filter (·.level = 1) := by
  refine List.filter_congr fun e he => ?_
  have := one_le_of_mem_escapes he (Int.le_refl 1)
  rw [decide_eq_decide]
  omega

end Quasiquote.Template
