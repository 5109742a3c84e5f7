import Quasiquote.Proofs.Template.Effect

/-!
Building as a relation between a template and its tree. `Built` says what may become of each part
of a template, given what symbols may be replaced by and what the escapes of level one were
answered. Main statement: whatever `build` returns is related to its template in this way, with
the renamings recorded at any later time.
-/

namespace Quasiquote

open Stateful

variable {m : Type → Type}

namespace Template

mutual

/-- A template and a tree that can be built from it at a level. The list pairs the expressions of
the escapes of level one with their answers. -/
inductive Built (site : Site m) (replaces : Symbol → Symbol → Prop) :
    Int → Value → List (Value × Value) → Value → Prop
  | atom {level : Int} {v : Value} : v.IsAtom → Built site replaces level v [] v
  | symbol {level : Int} {s r : Symbol} :
      replaces s r → Built site replaces level (.sym s) [] (.sym r)
  | kept {level : Int} {s : Symbol} {arg v : Value} {answers : List (Value × Value)} :
      s.IsEscape → 1 < level → Built site replaces (level - 1) arg answers v →
      Built site replaces level (.list [.sym s, arg]) answers (.list [.sym s, v])
  | answered {level : Int} {s : Symbol} {arg value v : Value} :
      s.IsEscape → ¬1 < level → insertion site s (.list [.sym s, arg]) value = .ok v →
      Built site replaces level (.list [.sym s, arg]) [(arg, value)] v
  | template {level : Int} {arg v : Value} {answers : List (Value × Value)} :
      level + 1 ≤ site.maxNesting → Built site replaces (level + 1) arg answers v →
      Built site replaces level (.list [.sym .syntaxQuote, arg]) answers
        (.list [.sym .syntaxQuote, v])
  | plain {level : Int} {items vs : List Value} {answers : List (Value × Value)} :
      ¬IsHeaded items → BuiltItems site replaces level items answers vs →
      Built site replaces level (.list items) answers (.list vs)

/-- Items of a template and the items that can be built from them. -/
inductive BuiltItems (site : Site m) (replaces : Symbol → Symbol → Prop) :
    Int → List Value → List (Value × Value) → List Value → Prop
  | nil {level : Int} : BuiltItems site replaces level [] [] []
  | cons {level : Int} {item v : Value} {items vs : List Value}
      {answers more : List (Value × Value)} :
      Built site replaces level item answers v → BuiltItems site replaces level items more vs →
      BuiltItems site replaces level (item :: items) (answers ++ more) (v.spread ++ vs)

end

variable {site : Site m}

section

variable {replaces : Symbol → Symbol → Prop} {level : Int} {v : Value}
variable {answers : List (Value × Value)}

theorem built_atom_iff {t : Value} (ht : t.IsAtom) :
    Built site replaces level t answers v ↔ answers = [] ∧ v = t := by
  constructor
  · intro h
    cases h with
    | atom => exact ⟨rfl, rfl⟩
    | _ => exact ht.elim
  · rintro ⟨rfl, rfl⟩
    exact .atom ht

theorem built_symbol_iff {s : Symbol} :
    Built site replaces level (.sym s) answers v ↔
      answers = [] ∧ ∃ r, replaces s r ∧ v = .sym r := by
  constructor
  · intro h
    cases h with
    | atom ht => exact ht.elim
    | symbol h => exact ⟨rfl, _, h, rfl⟩
  · rintro ⟨rfl, r, h, rfl⟩
    exact .symbol h

theorem built_escape_iff {s : Symbol} {arg : Value} (hs : s.IsEscape) :
    Built site replaces level (.list [.sym s, arg]) answers v ↔
      (1 < level ∧ ∃ w, Built site replaces (level - 1) arg answers w ∧ v = .list [.sym s, w]) ∨
        ¬1 < level ∧ ∃ value, answers = [(arg, value)] ∧
          insertion site s (.list [.sym s, arg]) value = .ok v := by
  constructor
  · intro h
    cases h with
    | atom ht => exact ht.elim
    | kept _ hl hb => exact .inl ⟨hl, _, hb, rfl⟩
    | answered _ hl hv => exact .inr ⟨hl, _, rfl, hv⟩
    | template => exact absurd rfl hs.ne_syntaxQuote
    | plain hi => exact absurd (.inl hs) hi
  · rintro (⟨hl, w, hb, rfl⟩ | ⟨hl, value, rfl, hv⟩)
    · exact .kept hs hl hb
    · exact .answered hs hl hv

theorem built_template_iff {arg : Value} :
    Built site replaces level (.list [.sym .syntaxQuote, arg]) answers v ↔
      level + 1 ≤ site.maxNesting ∧ ∃ w, Built site replaces (level + 1) arg answers w ∧
        v = .list [.sym .syntaxQuote, w] := by
  constructor
  · intro h
    cases h with
    | atom ht => exact ht.elim
    | kept hs => exact absurd rfl hs.ne_syntaxQuote
    | answered hs => exact absurd rfl hs.ne_syntaxQuote
    | template hl hb => exact ⟨hl, _, hb, rfl⟩
    | plain hi => exact absurd (.inr rfl) hi
  · rintro ⟨hl, w, hb, rfl⟩
    exact .template hl hb

theorem not_built_malformed {s : Symbol} {args : List Value} (hs : s.IsEscape ∨ s = .syntaxQuote)
    (hn : args.length ≠ 1) : ¬Built site replaces level (.list (.sym s :: args)) answers v := by
  intro h
  cases h with
  | atom ht => exact ht.elim
  | plain hi => exact hi hs
  | _ => exact hn rfl

theorem built_plain_iff {items : List Value} (hi : ¬IsHeaded items) :
    Built site replaces level (.list items) answers v ↔
      ∃ vs, BuiltItems site replaces level items answers vs ∧ v = .list vs := by
  constructor
  · intro h
    cases h with
    | atom ht => exact ht.elim
    | kept hs => exact absurd (.inl hs) hi
    | answered hs => exact absurd (.inl hs) hi
    | template => exact absurd (.inr rfl) hi
    | plain _ hb => exact ⟨_, hb, rfl⟩
  · rintro ⟨vs, hb, rfl⟩
    exact .plain hi hb

theorem builtItems_cons_iff {item : Value} {items vs : List Value} :
    BuiltItems site replaces level (item :: items) answers vs ↔
      ∃ w first ws more, Built site replaces level item first w ∧
        BuiltItems site replaces level items more ws ∧ answers = first ++ more ∧
          vs = w.spread ++ ws := by
  constructor
  · intro h
    cases h with
    | cons hb hbs => exact ⟨_, _, _, _, hb, hbs, rfl, rfl⟩
  · rintro ⟨w, first, ws, more, hb, hbs, rfl, rfl⟩
    exact .cons hb hbs

theorem map_fst_answers {t : Value} (h : Built site replaces level t answers v) :
    answers.map Prod.fst = ((escapes level t).filter (·.level ≤ 1)).map (·.arg) := by
  induction t using Template.induction generalizing level answers v with
  | atom t ht =>
      obtain ⟨rfl, -⟩ := (built_atom_iff ht).mp h
      rw [escapes_atom level ht]
      rfl
  | symbol s =>
      obtain ⟨rfl, -⟩ := built_symbol_iff.mp h
      rfl
  | escape s arg hs ih =>
      rw [escapes_escape level arg hs]
      rcases (built_escape_iff hs).mp h with ⟨hl, w, hb, -⟩ | ⟨hl, value, rfl, -⟩
      · rw [if_pos hl, List.filter_cons_of_neg (by simpa using hl)]
        exact ih hb
      · rw [if_neg hl, List.filter_cons_of_pos (by simpa using hl)]
        rfl
  | template arg ih =>
      obtain ⟨-, w, hb, -⟩ := built_template_iff.mp h
      rw [escapes_template]
      exact ih hb
  | malformed s args hs hn _ => exact absurd h (not_built_malformed hs hn)
  | plain items hi ih =>
      obtain ⟨vs, hb, -⟩ := (built_plain_iff hi).mp h
      rw [escapes_plain level hi]
      clear h hi
      induction items generalizing answers vs with
      | nil =>
          cases hb
          rfl
      | cons item items ihItems =>
          obtain ⟨w, first, ws, more, hw, hws, rfl, rfl⟩ := builtItems_cons_iff.mp hb
          rw [List.flatMap_cons, List.filter_append, List.map_append, List.map_append,
            ih item (by simp) hw, ihItems (fun v hv => ih v (by simp [hv])) ws hws]

theorem exists_answer {t : Value} (h : Built site replaces level t answers v) {e : Escape}
    (he : e ∈ escapes level t) (hl : e.level ≤ 1) : ∃ value, (e.arg, value) ∈ answers := by
  have hmem : e.arg ∈ answers.map Prod.fst := by
    rw [map_fst_answers h]
    exact List.mem_map_of_mem (List.mem_filter.mpr ⟨he, by simpa using hl⟩)
  obtain ⟨⟨arg, value⟩, ha, rfl⟩ := List.mem_map.mp hmem
  exact ⟨value, ha⟩

theorem exists_escape {t : Value} (h : Built site replaces level t answers v)
    {a : Value × Value} (ha : a ∈ answers) : ∃ e ∈ escapes level t, e.level ≤ 1 ∧ e.arg = a.1 := by
  have hmem := List.mem_map_of_mem (f := Prod.fst) ha
  rw [map_fst_answers h] at hmem
  obtain ⟨e, he, harg⟩ := List.mem_map.mp hmem
  have he := List.mem_filter.mp he
  exact ⟨e, he.1, by simpa using he.2, harg⟩

end

end Template

variable [Monad m] [MonadFresh m] [Stateful m]

/-- What a symbol of a template may become at a site once the given renamings are recorded. -/
def Site.Replaces (site : Site m) (table : RenameTable) (s r : Symbol) : Prop :=
  if s.isMarked then table.find? s.name = some r
  else if !s.isQualified && bareNames.contains s.name then r = s
  else ∃ t ns u, Yields site.ns t ns u ∧ r = ns.resolve s

theorem replaces_of_gives_qualify {site : Site m} {s r : Symbol} {p q : RenameTable × State m}
    (h : Gives (qualify site.ns s) p (.ok r) q) : site.Replaces q.1 s r := by
  unfold qualify at h
  unfold Site.Replaces
  split at h
  · rw [if_pos ‹_›]
    rcases gives_renamed.mp h with
      ⟨known, hk, hr, rfl⟩ | ⟨-, ⟨f, -, hr, -⟩ | ⟨name, t, -, hr, rfl⟩⟩
    · cases hr
      exact hk
    · exact nomatch hr
    · cases hr
      exact Table.find?_insert_self _ _ _
  · rw [if_neg ‹_›]
    split at h
    · rw [if_pos ‹_›]
      exact Except.ok.inj (gives_pure.mp h).1
    · rw [if_neg ‹_›]
      obtain ⟨ns, t, hns, hr⟩ := Building.gives_perform_bind.mp h
      exact ⟨p.2, ns, t, hns, Except.ok.inj (gives_pure.mp hr).1⟩

omit [MonadFresh m] in
theorem Site.Replaces.mono {site : Site m} {table table' : RenameTable} {s r : Symbol}
    (h : site.Replaces table s r) (hg : Grows table table') : site.Replaces table' s r := by
  unfold Site.Replaces at h ⊢
  split
  · rw [if_pos ‹_›] at h
    exact hg _ _ h
  · rwa [if_neg ‹_›] at h

namespace Template

/-- The answers in a list were given by a resolver, at any time. -/
def Answers (site : Site m) (resolver : Resolver m) (answers : List (Value × Value)) : Prop :=
  ∀ a ∈ answers, ∃ p q, Gives (resolver.answer site a.1) p (.ok a.2) q

variable {site : Site m} {resolver : Resolver m}

theorem builtItems_of_gives [LawfulMonad m]
    (hr : resolver.MovesAlong fun p q => Grows p.1 q.1) {level : Int} {items : List Value}
    (ih : ∀ t ∈ items, ∀ {p q : RenameTable × State m} {v table},
      Gives (build site resolver level t) p (.ok v) q → Grows q.1 table →
        ∃ answers, Built site (site.Replaces table) level t answers v ∧
          Answers site resolver answers)
    {p q : RenameTable × State m} {vs : List Value} {table : RenameTable}
    (h : Gives (buildItems site resolver level items) p (.ok vs) q) (hg : Grows q.1 table) :
    ∃ answers, BuiltItems site (site.Replaces table) level items answers vs ∧
      Answers site resolver answers := by
  induction items generalizing p vs with
  | nil =>
      rw [buildItems] at h
      cases (gives_pure.mp h).1
      exact ⟨[], .nil, by simp [Answers]⟩
  | cons item items ihItems =>
      rw [buildItems] at h
      obtain ⟨v, u, hv, h⟩ := gives_bind_ok.mp h
      obtain ⟨ws, hws, rfl⟩ := gives_bind_pure_ok.mp h
      have growsItems : Grows u.1 q.1 :=
        moves_buildItems (R := fun p q : RenameTable × State m => Grows p.1 q.1)
          (fun t _ => (moves_build_and_resolve site.movesAlong_grows t).1 resolver hr level) hws
      obtain ⟨answers, hb, ha⟩ := ih item (by simp) hv
        (fun name s hs => hg name s (growsItems name s hs))
      obtain ⟨more, hbs, hm⟩ := ihItems (fun t ht => ih t (by simp [ht])) hws
      refine ⟨answers ++ more, .cons hb hbs, fun a h => ?_⟩
      rcases List.mem_append.mp h with h | h
      · exact ha a h
      · exact hm a h

/-- What is built from a template is related to it, with the renamings recorded then or later. -/
theorem built_of_gives [LawfulMonad m]
    (hr : resolver.MovesAlong fun p q => Grows p.1 q.1) {level : Int} {t v : Value}
    {p q : RenameTable × State m} {table : RenameTable}
    (h : Gives (build site resolver level t) p (.ok v) q) (hg : Grows q.1 table) :
    ∃ answers, Built site (site.Replaces table) level t answers v ∧
      Answers site resolver answers := by
  induction t using Template.induction generalizing level p v q table with
  | atom t ht =>
      rw [build_atom site resolver level ht] at h
      cases (gives_pure.mp h).1
      exact ⟨[], .atom ht, by simp [Answers]⟩
  | symbol s =>
      rw [build_symbol] at h
      obtain ⟨r, hq, rfl⟩ := gives_bind_pure_ok.mp h
      exact ⟨[], .symbol ((replaces_of_gives_qualify hq).mono hg), by simp [Answers]⟩
  | escape s arg hs ih =>
      by_cases hl : 1 < level
      · rw [build_kept site resolver level arg hs hl] at h
        obtain ⟨w, hw, rfl⟩ := gives_bind_pure_ok.mp h
        obtain ⟨answers, hb, ha⟩ := ih hw hg
        exact ⟨answers, .kept hs hl hb, ha⟩
      · rw [build_answered site resolver level arg hs hl] at h
        obtain ⟨value, u, hvalue, h⟩ := gives_bind_ok.mp h
        refine ⟨[(arg, value)], .answered hs hl (gives_ofExcept.mp h).1.symm, ?_⟩
        simp only [Answers, List.mem_singleton, forall_eq]
        exact ⟨p, u, hvalue⟩
  | template arg ih =>
      by_cases hl : site.maxNesting < level + 1
      · rw [build_tooNested site resolver level arg hl] at h
        cases (gives_throw.mp h).1
      · rw [build_template site resolver level arg (by omega)] at h
        obtain ⟨w, hw, rfl⟩ := gives_bind_pure_ok.mp h
        obtain ⟨answers, hb, ha⟩ := ih hw hg
        exact ⟨answers, .template (by omega) hb, ha⟩
  | malformed s args hs hn _ =>
      rw [build_malformed site resolver level hs hn] at h
      cases (gives_throw.mp h).1
  | plain items hi ih =>
      rw [build_plain site resolver level hi] at h
      obtain ⟨ws, hws, rfl⟩ := gives_bind_pure_ok.mp h
      obtain ⟨answers, hb, ha⟩ := builtItems_of_gives hr (fun t ht => ih t ht) hws hg
      exact ⟨answers, .plain hi hb, ha⟩

end Template

end Quasiquote
