import Mathlib.Logic.Relation
import Quasiquote.Proofs.Freshness.Name
import Quasiquote.Proofs.Template.Effect

/-!
Runs of template building. A ledger holds one allocator and the renamings of all contexts that share
it. In each step a context is opened, a marked name is renamed in some context, or a fresh name is
handed out; the steps of different contexts may be mixed in any order. Main statement: whatever
happens, a renaming belongs to one marked name of one context.
-/

namespace Quasiquote

/-- An allocator and the renamings of the contexts that share it, in the order of their opening. -/
structure Ledger where
  allocator : Allocator
  tables : List RenameTable

namespace Ledger

/-- A marked name in a context is replaced by a symbol. -/
def Renames (l : Ledger) (i : Nat) (s r : Symbol) (l' : Ledger) : Prop :=
  s.isMarked = true ∧ ∃ (table table' : RenameTable), l.tables[i]? = some table ∧
    Gives (renamed s : Building (StateM Allocator) Symbol) (table, l.allocator) (.ok r)
      (table', l'.allocator) ∧ l'.tables = l.tables.set i table'

/-- One step of a run. -/
inductive Step : Ledger → Ledger → Prop
  | opens (l : Ledger) : Step l { l with tables := l.tables ++ [Table.empty] }
  | renames {l l' : Ledger} {i : Nat} {s r : Symbol} : l.Renames i s r l' → Step l l'
  | generates (l : Ledger) (lead : String) :
      Step l { l with allocator := (l.allocator.allocate lead).2 }

/-- Any number of steps. -/
abbrev Run : Ledger → Ledger → Prop := Relation.ReflTransGen Step

/-- What a renaming does to a ledger: nothing if it is known, else it is recorded with the next
number. -/
theorem renames_iff {l l' : Ledger} {i : Nat} {s r : Symbol} :
    l.Renames i s r l' ↔ s.isMarked = true ∧ ∃ table, l.tables[i]? = some table ∧
      ((table.find? s.name = some r ∧ l' = l) ∨
        table.find? s.name = none ∧ l.allocator.isWritable = true ∧
          r = .numbered (s.unmarkedName ++ "__") l.allocator.next ∧
          l' = ⟨⟨l.allocator.next + 1⟩, l.tables.set i (table.insert s.name r)⟩) := by
  have keep {table : RenameTable} (ht : l.tables[i]? = some table) :
      l.tables.set i table = l.tables := by
    obtain ⟨hi, rfl⟩ := List.getElem?_eq_some_iff.mp ht
    exact List.set_getElem_self hi
  refine and_congr_right fun _ => ?_
  constructor
  · rintro ⟨table, table', ht, hgives, htables⟩
    refine ⟨table, ht, ?_⟩
    rcases gives_renamed.mp hgives with
      ⟨known, hknown, hr, hl⟩ | ⟨hnone, ⟨f, -, hr, -⟩ | ⟨name, a, hfresh, hr, hl⟩⟩
    · obtain ⟨rfl, ha⟩ := Prod.mk.inj hl
      cases hr
      rw [keep ht] at htables
      exact .inl ⟨hknown, congrArg₂ Ledger.mk ha htables⟩
    · exact nomatch hr
    · cases hr
      obtain ⟨hwritable, rfl, rfl⟩ := Allocator.gives_issue_ok.mp hfresh
      obtain ⟨rfl, ha⟩ := Prod.mk.inj hl
      exact .inr ⟨hnone, hwritable, rfl, congrArg₂ Ledger.mk ha htables⟩
  · rintro ⟨table, ht, ⟨hknown, rfl⟩ | ⟨hnone, hwritable, rfl, rfl⟩⟩
    · exact ⟨table, table, ht, gives_renamed.mpr (.inl ⟨r, hknown, rfl, rfl⟩), (keep ht).symm⟩
    · have hfresh : Gives (m := StateM Allocator) (fresh (s.unmarkedName ++ "__")) l.allocator
          (.ok (s.unmarkedName ++ "__" ++ toString l.allocator.next)) ⟨l.allocator.next + 1⟩ :=
        Allocator.gives_issue_ok.mpr ⟨hwritable, rfl, rfl⟩
      exact ⟨table, _, ht, gives_renamed.mpr (.inr ⟨hnone, .inr ⟨_, _, hfresh, rfl, rfl⟩⟩), rfl⟩

/-- What holds of the renamings at any time of a run. -/
structure Sound (l : Ledger) : Prop where
  /-- A renaming has a number that has been handed out. -/
  numbered {i : Nat} {table : RenameTable} {name : String} {r : Symbol} :
    l.tables[i]? = some table → table.find? name = some r →
      ∃ first k, k < l.allocator.next ∧ r = .numbered (first ++ "__") k
  /-- A renaming belongs to one name of one context. -/
  injective {i j : Nat} {table table' : RenameTable} {name name' : String} {r : Symbol} :
    l.tables[i]? = some table → l.tables[j]? = some table' → table.find? name = some r →
      table'.find? name' = some r → i = j ∧ name = name'

theorem sound_start (a : Allocator) : Sound ⟨a, []⟩ where
  numbered h := nomatch h
  injective h := nomatch h

theorem Sound.opens {l : Ledger} (h : l.Sound) :
    Sound { l with tables := l.tables ++ [Table.empty] } := by
  have old {i : Nat} {table : RenameTable} {name : String} {r : Symbol}
      (ht : (l.tables ++ [Table.empty])[i]? = some table) (hr : table.find? name = some r) :
      l.tables[i]? = some table := by
    rw [List.getElem?_append] at ht
    split at ht
    · exact ht
    · obtain rfl := List.mem_singleton.mp (List.mem_of_getElem? ht)
      exact nomatch hr
  exact ⟨fun ht hr => h.numbered (old ht hr) hr,
    fun ht ht' hr hr' => h.injective (old ht hr) (old ht' hr') hr hr'⟩

theorem Sound.generates {l : Ledger} (h : l.Sound) (lead : String) :
    Sound { l with allocator := (l.allocator.allocate lead).2 } := by
  refine ⟨fun ht hr => ?_, fun ht ht' hr hr' => h.injective ht ht' hr hr'⟩
  obtain ⟨first, k, hk, rfl⟩ := h.numbered ht hr
  exact ⟨first, k, by simp only [Allocator.allocate]; omega, rfl⟩

theorem Sound.records {l : Ledger} (h : l.Sound) {i : Nat} {table : RenameTable}
    (ht : l.tables[i]? = some table) (name first : String) :
    Sound ⟨⟨l.allocator.next + 1⟩,
      l.tables.set i (table.insert name (.numbered (first ++ "__") l.allocator.next))⟩ := by
  have cases {j : Nat} {table' : RenameTable} {name' : String} {r : Symbol}
      (ht' : (l.tables.set i (table.insert name
        (.numbered (first ++ "__") l.allocator.next)))[j]? = some table')
      (hr : table'.find? name' = some r) :
      (j = i ∧ name' = name ∧ r = .numbered (first ++ "__") l.allocator.next) ∨
        ∃ old, l.tables[j]? = some old ∧ old.find? name' = some r := by
    by_cases hj : i = j
    · subst hj
      rw [List.getElem?_set_self (List.getElem?_eq_some_iff.mp ht).1] at ht'
      cases ht'
      rw [Table.find?_insert] at hr
      split at hr
      · exact .inl ⟨rfl, ‹_›, (Option.some.inj hr).symm⟩
      · exact .inr ⟨table, ht, hr⟩
    · rw [List.getElem?_set_ne hj] at ht'
      exact .inr ⟨table', ht', hr⟩
  have new {j : Nat} {old : RenameTable} {name' : String}
      (ht' : l.tables[j]? = some old)
      (hr : old.find? name' = some (.numbered (first ++ "__") l.allocator.next)) : False := by
    obtain ⟨second, k, hk, heq⟩ := h.numbered ht' hr
    have := Symbol.numbered_injective heq
    omega
  constructor
  · intro j table' name' r ht' hr
    rcases cases ht' hr with ⟨-, -, rfl⟩ | ⟨old, hold, hr⟩
    · exact ⟨first, l.allocator.next, by simp only; omega, rfl⟩
    · obtain ⟨second, k, hk, rfl⟩ := h.numbered hold hr
      exact ⟨second, k, by simp only; omega, rfl⟩
  · intro j k table' table'' name' name'' r ht' ht'' hr hr'
    rcases cases ht' hr with ⟨rfl, rfl, rfl⟩ | ⟨old, hold, hr⟩
    · rcases cases ht'' hr' with ⟨rfl, rfl, -⟩ | ⟨old', hold', hr'⟩
      · exact ⟨rfl, rfl⟩
      · exact (new hold' hr').elim
    · rcases cases ht'' hr' with ⟨rfl, rfl, rfl⟩ | ⟨old', hold', hr'⟩
      · exact (new hold hr).elim
      · exact h.injective hold hold' hr hr'

theorem Sound.step {l l' : Ledger} (h : l.Sound) (hs : Step l l') : l'.Sound := by
  cases hs with
  | opens => exact h.opens
  | renames hr =>
      obtain ⟨-, table, ht, ⟨-, rfl⟩ | ⟨-, -, rfl, rfl⟩⟩ := renames_iff.mp hr
      · exact h
      · exact h.records ht _ _
  | generates lead => exact h.generates lead

theorem Sound.run {l l' : Ledger} (h : l.Sound) (hr : Run l l') : l'.Sound := by
  induction hr with
  | refl => exact h
  | tail _ hs ih => exact ih.step hs

theorem grows_of_step {l l' : Ledger} (hs : Step l l') {i : Nat} {table : RenameTable}
    (ht : l.tables[i]? = some table) : ∃ table', l'.tables[i]? = some table' ∧ Grows table table' := by
  cases hs with
  | opens =>
      refine ⟨table, ?_, fun _ _ h => h⟩
      rw [List.getElem?_append_left (List.getElem?_eq_some_iff.mp ht).1]
      exact ht
  | renames hr =>
      rename_i j s r
      obtain ⟨-, old, hold, ⟨-, rfl⟩ | ⟨hnone, -, rfl, rfl⟩⟩ := renames_iff.mp hr
      · exact ⟨table, ht, fun _ _ h => h⟩
      · by_cases hj : j = i
        · subst hj
          obtain rfl := Option.some.inj (hold.symm.trans ht)
          refine ⟨_, List.getElem?_set_self (List.getElem?_eq_some_iff.mp ht).1, ?_⟩
          exact grows_insert hnone _
        · exact ⟨table, (List.getElem?_set_ne hj).trans ht, fun _ _ h => h⟩
  | generates => exact ⟨table, ht, fun _ _ h => h⟩

theorem grows_of_run {l l' : Ledger} (hr : Run l l') {i : Nat} {table : RenameTable}
    (ht : l.tables[i]? = some table) : ∃ table', l'.tables[i]? = some table' ∧ Grows table table' := by
  induction hr with
  | refl => exact ⟨table, ht, fun _ _ h => h⟩
  | tail _ hs ih =>
      obtain ⟨u, hu, hgrows⟩ := ih
      obtain ⟨table', ht', hgrows'⟩ := grows_of_step hs hu
      exact ⟨table', ht', fun name s h => hgrows' name s (hgrows name s h)⟩

theorem exists_find?_of_renames {l l₁ l₂ : Ledger} {i : Nat} {s r : Symbol}
    (h : l.Renames i s r l₁) (hr : Run l₁ l₂) :
    ∃ table, l₂.tables[i]? = some table ∧ table.find? s.name = some r := by
  have recorded : ∃ table, l₁.tables[i]? = some table ∧ table.find? s.name = some r := by
    obtain ⟨-, table, ht, ⟨hfind, rfl⟩ | ⟨-, -, rfl, rfl⟩⟩ := renames_iff.mp h
    · exact ⟨table, ht, hfind⟩
    · exact ⟨_, List.getElem?_set_self (List.getElem?_eq_some_iff.mp ht).1,
        Table.find?_insert_self _ _ _⟩
  obtain ⟨table, ht, hfind⟩ := recorded
  obtain ⟨table', ht', hgrows⟩ := grows_of_run hr ht
  exact ⟨table', ht', hgrows _ _ hfind⟩

theorem renames_unique {l l₁ l₂ l₃ : Ledger} {i : Nat} {s r r' : Symbol}
    (h : l.Renames i s r l₁) (hr : Run l₁ l₂) (h' : l₂.Renames i s r' l₃) : r' = r := by
  obtain ⟨table, ht, hfind⟩ := exists_find?_of_renames h hr
  obtain ⟨-, table', ht', ⟨hfind', -⟩ | ⟨hnone, -, -⟩⟩ := renames_iff.mp h'
  · rw [ht] at ht'
    cases ht'
    exact Option.some.inj (hfind'.symm.trans hfind)
  · rw [ht] at ht'
    cases ht'
    rw [hfind] at hnone
    exact nomatch hnone

/-- What holds of the renamings of a ledger, in it and in all that may follow. -/
structure Fresh (l : Ledger) : Prop where
  /-- In one context, a marked name is always replaced by the same symbol. -/
  consistent {l₁ l₂ l₃ : Ledger} {i : Nat} {s r r' : Symbol} :
    l.Renames i s r l₁ → Run l₁ l₂ → l₂.Renames i s r' l₃ → r' = r
  /-- A symbol stands for one marked name of one context. -/
  distinct {i j : Nat} {table table' : RenameTable} {name name' : String} {r : Symbol} :
    l.tables[i]? = some table → l.tables[j]? = some table' → table.find? name = some r →
      table'.find? name' = some r → i = j ∧ name = name'
  /-- It is bare. -/
  bare {i : Nat} {table : RenameTable} {name : String} {r : Symbol} :
    l.tables[i]? = some table → table.find? name = some r → r.isQualified = false
  /-- No allocator hands it out as a name. -/
  notAllocated {i : Nat} {table : RenameTable} {name : String} {r : Symbol} :
    l.tables[i]? = some table → table.find? name = some r →
      ∀ (a : Allocator) (lead : String), r.name ≠ (a.allocate lead).1
  /-- No call of the helper that makes symbols returns it. -/
  notGenerated {i : Nat} {table : RenameTable} {name : String} {r : Symbol} :
    l.tables[i]? = some table → table.find? name = some r →
      ∀ (args : List Value) (p q : RenameTable × Allocator),
        ¬Gives (Helper.gensym.call args : Building (StateM Allocator) Value) p (.ok (.sym r)) q

theorem exists_of_gives_gensym {args : List Value} {p q : RenameTable × Allocator} {v : Value}
    (h : Gives (Helper.gensym.call args : Building (StateM Allocator) Value) p (.ok v) q) :
    ∃ lead, v = .sym ⟨(p.2.allocate lead).1, none⟩ := by
  cases hlead : Helper.gensymLead args with
  | error f => cases ((Helper.gives_gensym_of_error hlead).mp h).1
  | ok lead =>
      obtain ⟨r, ⟨hfresh, -⟩, hv⟩ := (Helper.gives_gensym_of_ok hlead).mp h
      cases r with
      | error f => exact nomatch hv
      | ok name =>
          obtain ⟨-, rfl, -⟩ := Allocator.gives_issue_ok.mp hfresh
          exact ⟨lead, Except.ok.inj hv⟩

theorem fresh_of_run {a : Allocator} {l : Ledger} (h : Run ⟨a, []⟩ l) : l.Fresh := by
  have hl : l.Sound := (sound_start a).run h
  have ne {i : Nat} {table : RenameTable} {name : String} {r : Symbol}
      (ht : l.tables[i]? = some table) (hr : table.find? name = some r) (a : Allocator)
      (lead : String) : r ≠ ⟨(a.allocate lead).1, none⟩ := by
    obtain ⟨first, k, -, rfl⟩ := hl.numbered ht hr
    exact Symbol.numbered_ne_fresh _ lead k a
  have bare {i : Nat} {table : RenameTable} {name : String} {r : Symbol}
      (ht : l.tables[i]? = some table) (hr : table.find? name = some r) :
      r.isQualified = false := by
    obtain ⟨first, k, -, rfl⟩ := hl.numbered ht hr
    rfl
  refine ⟨renames_unique, hl.injective, bare, fun {i table name r} ht hr a lead heq => ?_,
    fun ht hr args p q hgives => ?_⟩
  · refine ne ht hr a lead ?_
    have hns : r.ns = none := Option.not_isSome_iff_eq_none.mp (Bool.eq_false_iff.mp (bare ht hr))
    rw [← heq, ← hns]
  · obtain ⟨lead, heq⟩ := exists_of_gives_gensym hgives
    exact ne ht hr p.2 lead (Value.sym.inj heq)

end Ledger

end Quasiquote
