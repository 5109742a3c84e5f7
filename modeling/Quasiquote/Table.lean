namespace Quasiquote

/-- A finite map with its bindings in the order in which the keys were first bound. -/
structure Table (κ α : Type) where
  /-- The bindings, oldest key first. -/
  entries : List (κ × α)
  /-- No key is bound twice. -/
  keys_nodup : (entries.map Prod.fst).Nodup := by simp

namespace Table

variable {κ α : Type}

def empty : Table κ α := ⟨[], by simp⟩

instance : Inhabited (Table κ α) := ⟨empty⟩

def keys (t : Table κ α) : List κ := t.entries.map Prod.fst

def values (t : Table κ α) : List α := t.entries.map Prod.snd

def size (t : Table κ α) : Nat := t.entries.length

variable [DecidableEq κ]

/-- Bind `k` in a list of bindings: at its old place if it has one, else at the end. -/
def bind (k : κ) (v : α) : List (κ × α) → List (κ × α)
  | [] => [(k, v)]
  | e :: rest => if e.1 = k then (k, v) :: rest else e :: bind k v rest

theorem map_fst_bind (k : κ) (v : α) (es : List (κ × α)) :
    (bind k v es).map Prod.fst =
      if k ∈ es.map Prod.fst then es.map Prod.fst else es.map Prod.fst ++ [k] := by
  induction es with
  | nil => simp [bind]
  | cons e rest ih =>
      by_cases h : e.1 = k
      · simp [bind, h]
      · have hk : k ≠ e.1 := fun hk => h hk.symm
        simp only [bind, h, if_false, List.map_cons, ih, List.mem_cons, hk, false_or]
        split <;> simp

/-- Bind `k` to `v`, at its old place if `k` is bound already. -/
def insert (t : Table κ α) (k : κ) (v : α) : Table κ α where
  entries := bind k v t.entries
  keys_nodup := by
    rw [map_fst_bind]
    split
    · exact t.keys_nodup
    · rename_i h
      refine List.nodup_append.mpr ⟨t.keys_nodup, by simp, ?_⟩
      intro a ha b hb
      rw [List.mem_singleton] at hb
      rintro rfl
      exact h (hb ▸ ha)

/-- Remove the binding of `k`. The others keep their order. -/
def erase (t : Table κ α) (k : κ) : Table κ α where
  entries := t.entries.filter fun e => e.1 ≠ k
  keys_nodup := List.Nodup.sublist (List.Sublist.map _ List.filter_sublist) t.keys_nodup

def find? (t : Table κ α) (k : κ) : Option α := (t.entries.find? fun e => e.1 = k).map Prod.snd

def contains (t : Table κ α) (k : κ) : Bool := (t.find? k).isSome

/-- Bind the given pairs one after the other; the last value of a key wins. -/
def ofList (es : List (κ × α)) : Table κ α := es.foldl (fun t e => t.insert e.1 e.2) empty

@[simp] theorem find?_empty (k : κ) : (empty : Table κ α).find? k = none := rfl

theorem find?_bind (k j : κ) (v : α) (es : List (κ × α)) :
    ((bind k v es).find? fun e => e.1 = j).map Prod.snd =
      if j = k then some v else (es.find? fun e => e.1 = j).map Prod.snd := by
  induction es with
  | nil =>
      by_cases h : k = j
      · simp [bind, h]
      · have hj : j ≠ k := fun hj => h hj.symm
        simp [bind, h, hj]
  | cons e rest ih =>
      by_cases he : e.1 = k
      · by_cases hj : k = j
        · simp [bind, he, hj]
        · have hj' : j ≠ k := fun h => hj h.symm
          simp [bind, he, hj, hj']
      · by_cases hj : e.1 = j
        · have hk : j ≠ k := fun h => he (hj.trans h)
          simp [bind, hj, hk]
        · simp only [bind, he, if_false, List.find?_cons, hj, decide_false]
          exact ih

theorem find?_insert (t : Table κ α) (k j : κ) (v : α) :
    (t.insert k v).find? j = if j = k then some v else t.find? j :=
  find?_bind k j v t.entries

@[simp] theorem find?_insert_self (t : Table κ α) (k : κ) (v : α) :
    (t.insert k v).find? k = some v := by
  rw [find?_insert, if_pos rfl]

theorem find?_erase (t : Table κ α) (k j : κ) :
    (t.erase k).find? j = if j = k then none else t.find? j := by
  simp only [find?, erase, List.find?_filter]
  by_cases hj : j = k
  · simp [hj]
  · rw [if_neg hj]
    congr 2
    funext e
    by_cases he : e.1 = j <;> simp [he, hj]

theorem find?_eq_some_iff (t : Table κ α) {k : κ} {v : α} :
    t.find? k = some v ↔ (k, v) ∈ t.entries := by
  obtain ⟨entries, hn⟩ := t
  unfold find?
  dsimp only
  induction entries with
  | nil => simp
  | cons e es ih =>
      rw [List.map_cons, List.nodup_cons] at hn
      by_cases he : e.1 = k
      · subst he
        have hnot : ∀ w, (e.1, w) ∉ es := fun w hw => hn.1 (List.mem_map.mpr ⟨_, hw, rfl⟩)
        simp only [decide_true, List.find?_cons_of_pos, Option.map_some, Option.some.injEq,
          List.mem_cons, hnot, or_false, Prod.ext_iff, true_and]
        exact eq_comm
      · rw [List.find?_cons_of_neg (by simpa using he), ih hn.2, List.mem_cons, or_iff_right]
        rintro rfl
        exact he rfl

theorem keys_insert (t : Table κ α) (k : κ) (v : α) :
    (t.insert k v).keys = if k ∈ t.keys then t.keys else t.keys ++ [k] :=
  map_fst_bind k v t.entries

end Table

end Quasiquote
