import Mathlib.Data.Set.Card
import Quasiquote.Proofs.Macro.Registry

/-!
Histories of registries. A history is all that has been done to a registry, and some of the
definitions in it are live: none after them has taken their place, and none has been taken away that a
symbol stood for. Main statement: what a registry answers is what the live definitions of its history
say.
-/

namespace Quasiquote

/-- What has been done to a registry that was empty at the beginning. -/
inductive History where
  | start
  | define (past : History) (m : Macro)
  | undefine (past : History) (caller : Option Namespace) (s : Symbol)

namespace History

def registry : History → Registry
  | start => Registry.empty
  | define past m => past.registry.define m
  | undefine past caller s => (past.registry.undefine caller s).2

/-- How much has been done. A definition has the length of the history before it as its number. -/
def length : History → Nat
  | start => 0
  | define past _ => past.length + 1
  | undefine past _ _ => past.length + 1

/-- Among the definitions that are live, a symbol stands for the one with the given number: a qualified
symbol for that of exactly its namespace and name, a bare one for that of the pair to which its caller
resolves it, and without a caller for the newest of its name. -/
def Selects (live : Nat → Macro → Prop) (caller : Option Namespace) (s : Symbol) (i : Nat)
    (m : Macro) : Prop :=
  live i m ∧ match s.ns, caller with
    | some ns, _ => m.key = (ns, s.name)
    | none, some caller => caller.resolve s = ⟨m.name, some m.ns⟩
    | none, none => m.name = s.name ∧ ∀ j n, live j n → n.name = s.name → j ≤ i

/-- The macro that was defined under a number is still there. -/
def Live : History → Nat → Macro → Prop
  | start, _, _ => False
  | define past m, i, n => i = past.length ∧ n = m ∨ past.Live i n ∧ n.key ≠ m.key
  | undefine past caller s, i, n => past.Live i n ∧ ¬Selects past.Live caller s i n

/-- One history begins with all of another one. -/
inductive Continues : History → History → Prop
  | refl (h : History) : Continues h h
  | define {h past : History} (m : Macro) : Continues h past → Continues (h.define m) past
  | undefine {h past : History} (caller : Option Namespace) (s : Symbol) :
      Continues h past → Continues (h.undefine caller s) past

variable {h : History} {i : Nat} {m : Macro} {caller : Option Namespace} {s : Symbol}

theorem Live.lt_length (hm : h.Live i m) : i < h.length := by
  induction h with
  | start => exact hm.elim
  | define past n ih =>
      rcases hm with ⟨rfl, -⟩ | ⟨hm, -⟩
      · exact Nat.lt_succ_self _
      · exact Nat.lt_succ_of_lt (ih hm)
  | undefine past caller s ih => exact Nat.lt_succ_of_lt (ih hm.1)

theorem continues_define_iff {past : History} :
    (h.define m).Continues past ↔ past = h.define m ∨ h.Continues past := by
  constructor
  · intro hpast
    cases hpast with
    | refl => exact .inl rfl
    | define _ hpast => exact .inr hpast
  · rintro (rfl | hpast)
    · exact .refl _
    · exact .define m hpast

theorem continues_undefine_iff {past : History} :
    (h.undefine caller s).Continues past ↔ past = h.undefine caller s ∨ h.Continues past := by
  constructor
  · intro hpast
    cases hpast with
    | refl => exact .inl rfl
    | undefine _ _ hpast => exact .inr hpast
  · rintro (rfl | hpast)
    · exact .refl _
    · exact .undefine caller s hpast

theorem Continues.length_le {past : History} (hpast : h.Continues past) :
    past.length ≤ h.length := by
  induction hpast with
  | refl => exact Nat.le_refl _
  | define m _ ih => exact Nat.le_succ_of_le ih
  | undefine caller s _ ih => exact Nat.le_succ_of_le ih

/-- What has happened to a definition since it was made: nothing that ends it. -/
structure Spares (h : History) (i : Nat) (m : Macro) : Prop where
  key_ne : ∀ (past : History) (n : Macro), h.Continues (past.define n) → i < past.length →
    n.key ≠ m.key
  not_selects : ∀ (past : History) (caller : Option Namespace) (s : Symbol),
    h.Continues (past.undefine caller s) → i < past.length → ¬Selects past.Live caller s i m

theorem spares_define_iff {n : Macro} (hi : i < h.length) :
    (h.define n).Spares i m ↔ h.Spares i m ∧ n.key ≠ m.key := by
  constructor
  · rintro ⟨hdefine, hundefine⟩
    refine ⟨⟨fun past n' hpast => hdefine past n' (.define n hpast), fun past caller s hpast =>
      hundefine past caller s (.define n hpast)⟩, hdefine h n (.refl _) hi⟩
  · rintro ⟨⟨hdefine, hundefine⟩, hkey⟩
    constructor
    · intro past n' hpast
      rcases continues_define_iff.mp hpast with heq | hpast
      · cases heq
        exact fun _ => hkey
      · exact hdefine past n' hpast
    · intro past caller s hpast
      rcases continues_define_iff.mp hpast with heq | hpast
      · cases heq
      · exact hundefine past caller s hpast

theorem spares_undefine_iff (hi : i < h.length) :
    (h.undefine caller s).Spares i m ↔ h.Spares i m ∧ ¬Selects h.Live caller s i m := by
  constructor
  · rintro ⟨hdefine, hundefine⟩
    refine ⟨⟨fun past n hpast => hdefine past n (.undefine caller s hpast),
      fun past caller' s' hpast => hundefine past caller' s' (.undefine caller s hpast)⟩,
      hundefine h caller s (.refl _) hi⟩
  · rintro ⟨⟨hdefine, hundefine⟩, hsel⟩
    constructor
    · intro past n hpast
      rcases continues_undefine_iff.mp hpast with heq | hpast
      · cases heq
      · exact hdefine past n hpast
    · intro past caller' s' hpast
      rcases continues_undefine_iff.mp hpast with heq | hpast
      · cases heq
        exact fun _ => hsel
      · exact hundefine past caller' s' hpast

theorem spares_of_length_le (hi : h.length ≤ i + 1) : h.Spares i m := by
  constructor
  · intro past n hpast hlt
    have := hpast.length_le
    simp only [length] at this
    omega
  · intro past caller s hpast hlt
    have := hpast.length_le
    simp only [length] at this
    omega

/-- A definition is live if it has been made and nothing has ended it. -/
theorem live_iff_spares :
    h.Live i m ↔ ∃ past : History, past.length = i ∧ h.Continues (past.define m) ∧ h.Spares i m := by
  induction h with
  | start =>
      refine iff_of_false id ?_
      rintro ⟨past, -, hpast, -⟩
      cases hpast
  | define h n ih =>
      constructor
      · rintro (⟨rfl, rfl⟩ | ⟨hlive, hkey⟩)
        · exact ⟨h, rfl, .refl _, spares_of_length_le (Nat.le_refl _)⟩
        · obtain ⟨past, hi, hpast, hspares⟩ := ih.mp hlive
          exact ⟨past, hi, .define n hpast,
            (spares_define_iff hlive.lt_length).mpr ⟨hspares, hkey.symm⟩⟩
      · rintro ⟨past, hi, hpast, hspares⟩
        rcases continues_define_iff.mp hpast with heq | hpast
        · cases heq
          exact .inl ⟨hi.symm, rfl⟩
        · have hlt : i < h.length := hi ▸ hpast.length_le
          obtain ⟨hspares, hkey⟩ := (spares_define_iff hlt).mp hspares
          exact .inr ⟨ih.mpr ⟨past, hi, hpast, hspares⟩, hkey.symm⟩
  | undefine h caller s ih =>
      constructor
      · rintro ⟨hlive, hsel⟩
        obtain ⟨past, hi, hpast, hspares⟩ := ih.mp hlive
        exact ⟨past, hi, .undefine caller s hpast,
          (spares_undefine_iff hlive.lt_length).mpr ⟨hspares, hsel⟩⟩
      · rintro ⟨past, hi, hpast, hspares⟩
        rcases continues_undefine_iff.mp hpast with heq | hpast
        · cases heq
        · have hlt : i < h.length := hi ▸ hpast.length_le
          obtain ⟨hspares, hsel⟩ := (spares_undefine_iff hlt).mp hspares
          exact ⟨ih.mpr ⟨past, hi, hpast, hspares⟩, hsel⟩

/-- The live definitions in a list, the oldest first. -/
structure Enumerates (h : History) (defs : List (Nat × Macro)) : Prop where
  macros : h.registry.macros = defs.map Prod.snd
  sorted : defs.Pairwise fun d d' => d.1 < d'.1
  mem_iff : ∀ i m, (i, m) ∈ defs ↔ h.Live i m

namespace Enumerates

variable {defs : List (Nat × Macro)} (hdefs : h.Enumerates defs)
include hdefs

theorem nodup : (defs.map Prod.fst).Nodup :=
  List.pairwise_map.mpr (hdefs.sorted.imp Nat.ne_of_lt)

theorem mem_macros_iff : m ∈ h.registry.macros ↔ ∃ i, h.Live i m := by
  simp [hdefs.macros, hdefs.mem_iff]

theorem find?_eq_some_iff {key : String × String} :
    h.registry.find? key = some m ↔ ∃ i, h.Live i m ∧ m.key = key := by
  rw [Registry.find?_eq_some_iff, hdefs.mem_macros_iff, exists_and_right]

theorem find?_reverse_eq_some_iff {p : Nat × Macro → Bool} {d : Nat × Macro} :
    defs.reverse.find? p = some d ↔
      d ∈ defs ∧ p d = true ∧ ∀ d' ∈ defs, p d' = true → d'.1 ≤ d.1 := by
  have greatest {d : Nat × Macro} (hd : defs.reverse.find? p = some d) :
      d ∈ defs ∧ p d = true ∧ ∀ d' ∈ defs, p d' = true → d'.1 ≤ d.1 := by
    obtain ⟨hp, newer, older, heq, hnewer⟩ := List.find?_eq_some_iff_append.mp hd
    have hsorted : (newer ++ d :: older).Pairwise fun d d' => d'.1 < d.1 := by
      rw [← heq]
      exact List.pairwise_reverse.mpr hdefs.sorted
    refine ⟨List.mem_reverse.mp (List.mem_of_find?_eq_some hd), hp, fun d' hd' hp' => ?_⟩
    rw [← List.mem_reverse, heq, List.mem_append, List.mem_cons] at hd'
    rcases hd' with hd' | rfl | hd'
    · exact absurd hp' (by simpa using hnewer d' hd')
    · exact Nat.le_refl _
    · exact Nat.le_of_lt ((List.pairwise_cons.mp (List.pairwise_append.mp hsorted).2.1).1 d' hd')
  refine ⟨greatest, fun ⟨hd, hp, hle⟩ => ?_⟩
  obtain ⟨d', hd'⟩ := Option.isSome_iff_exists.mp
    (List.find?_isSome.mpr ⟨d, List.mem_reverse.mpr hd, hp⟩)
  obtain ⟨hmem, hp', hle'⟩ := greatest hd'
  have heq : d'.1 = d.1 := Nat.le_antisymm (hle d' hmem hp') (hle' d hd hp)
  rw [hd', List.inj_on_of_nodup_map hdefs.nodup hmem hd heq]

theorem newest?_eq_some_iff {name : String} :
    h.registry.newest? name = some m ↔
      ∃ i, h.Live i m ∧ m.name = name ∧ ∀ j n, h.Live j n → n.name = name → j ≤ i := by
  unfold Registry.newest?
  rw [hdefs.macros, ← List.map_reverse, List.find?_map, Option.map_eq_some_iff]
  constructor
  · rintro ⟨⟨i, m⟩, hd, rfl⟩
    obtain ⟨hmem, hname, hle⟩ := hdefs.find?_reverse_eq_some_iff.mp hd
    exact ⟨i, (hdefs.mem_iff i m).mp hmem, by simpa using hname,
      fun j n hn hname => hle (j, n) ((hdefs.mem_iff j n).mpr hn) (by simpa using hname)⟩
  · rintro ⟨i, hm, hname, hle⟩
    refine ⟨(i, m), hdefs.find?_reverse_eq_some_iff.mpr ⟨(hdefs.mem_iff i m).mpr hm,
      by simpa using hname, fun d hd hp => ?_⟩, rfl⟩
    exact hle d.1 d.2 ((hdefs.mem_iff d.1 d.2).mp hd) (by simpa using hp)

theorem lookup_eq_some_iff :
    h.registry.lookup caller s = some m ↔ ∃ i, Selects h.Live caller s i m := by
  rcases s with ⟨name, _ | ns⟩
  · cases caller with
    | none => exact hdefs.newest?_eq_some_iff
    | some caller =>
        refine hdefs.find?_eq_some_iff.trans (exists_congr fun i => and_congr_right fun _ => ?_)
        simp only [Macro.key, Namespace.resolve, Symbol.withNamespace, Option.getD_some,
          Prod.mk.injEq, Symbol.mk.injEq, Option.some.injEq]
        constructor
        · rintro ⟨hns, hname⟩
          exact ⟨hname.symm, hns.symm⟩
        · rintro ⟨hname, hns⟩
          exact ⟨hns.symm, hname.symm⟩
  · exact hdefs.find?_eq_some_iff

theorem eq_of_key_eq {j : Nat} {n : Macro} (hi : h.Live i m) (hj : h.Live j n)
    (hkey : m.key = n.key) : i = j ∧ m = n := by
  have hnodup : (defs.map fun d => d.2.key).Nodup := by
    have h := h.registry.keys_nodup
    rwa [hdefs.macros, List.map_map] at h
  exact Prod.mk.inj (List.inj_on_of_nodup_map hnodup ((hdefs.mem_iff i m).mpr hi)
    ((hdefs.mem_iff j n).mpr hj) hkey)

theorem define (m : Macro) :
    (h.define m).Enumerates (defs.filter (fun d => d.2.key ≠ m.key) ++ [(h.length, m)]) where
  macros := by
    change (h.registry.macros.filter _) ++ [m] = _
    rw [hdefs.macros, List.filter_map, List.map_append]
    rfl
  sorted := by
    refine List.pairwise_append.mpr ⟨hdefs.sorted.sublist List.filter_sublist, by simp, ?_⟩
    intro d hd d' hd'
    obtain rfl := List.mem_singleton.mp hd'
    exact ((hdefs.mem_iff d.1 d.2).mp (List.mem_of_mem_filter hd)).lt_length
  mem_iff i n := by
    simp only [List.mem_append, List.mem_filter, hdefs.mem_iff, List.mem_singleton, Prod.mk.injEq,
      decide_eq_true_eq, Live, or_comm]

theorem selects_iff (hfound : h.registry.lookup caller s = some m) {n : Macro} :
    Selects h.Live caller s i n ↔ h.Live i n ∧ n.key = m.key := by
  constructor
  · intro hsel
    have hn := hdefs.lookup_eq_some_iff.mpr ⟨i, hsel⟩
    rw [hfound, Option.some.injEq] at hn
    exact ⟨hsel.1, hn ▸ rfl⟩
  · rintro ⟨hi, hkey⟩
    obtain ⟨j, hsel⟩ := hdefs.lookup_eq_some_iff.mp hfound
    obtain ⟨rfl, rfl⟩ := hdefs.eq_of_key_eq hi hsel.1 hkey
    exact hsel

theorem undefine_of_eq_some (hfound : h.registry.lookup caller s = some m) :
    (h.undefine caller s).Enumerates (defs.filter fun d => d.2.key ≠ m.key) where
  macros := by
    rw [registry, Registry.undefine, hfound]
    change h.registry.macros.filter _ = _
    rw [hdefs.macros, List.filter_map]
    rfl
  sorted := hdefs.sorted.sublist List.filter_sublist
  mem_iff i n := by
    rw [List.mem_filter, hdefs.mem_iff, decide_eq_true_eq, Live, hdefs.selects_iff hfound]
    exact and_congr_right fun hi => not_congr (and_iff_right hi).symm

theorem undefine_of_eq_none (hnone : h.registry.lookup caller s = none) :
    (h.undefine caller s).Enumerates defs where
  macros := by
    rw [registry, Registry.undefine, hnone]
    exact hdefs.macros
  sorted := hdefs.sorted
  mem_iff i n := by
    rw [hdefs.mem_iff, Live]
    refine (and_iff_left fun hsel => ?_).symm
    exact nomatch hnone.symm.trans (hdefs.lookup_eq_some_iff.mpr ⟨i, hsel⟩)

theorem ncard_live : Set.ncard {i | ∃ m, h.Live i m} = h.registry.size := by
  have heq : {i | ∃ m, h.Live i m} = ((defs.map Prod.fst).toFinset : Set Nat) := by
    ext i
    simp [hdefs.mem_iff]
  rw [heq, Set.ncard_coe_finset, List.toFinset_card_of_nodup hdefs.nodup, List.length_map,
    Registry.size, hdefs.macros, List.length_map]

end Enumerates

theorem exists_enumerates (h : History) : ∃ defs, h.Enumerates defs := by
  induction h with
  | start => exact ⟨[], rfl, .nil, fun i m => by simp [Live]⟩
  | define past m ih =>
      obtain ⟨defs, hdefs⟩ := ih
      exact ⟨_, hdefs.define m⟩
  | undefine past caller s ih =>
      obtain ⟨defs, hdefs⟩ := ih
      cases hfound : past.registry.lookup caller s with
      | none => exact ⟨_, hdefs.undefine_of_eq_none hfound⟩
      | some m => exact ⟨_, hdefs.undefine_of_eq_some hfound⟩

/-- What a registry answers is what its history says. A definition is live exactly if it has been made,
its key has not been defined again and no symbol that stood for it has been undefined, and of two
definitions of a key at most one is live. A qualified symbol finds the live definition of exactly its
namespace and name, a bare one without a caller the last live one of its name, and with a caller the
live one of the pair that the caller resolves it to. The size is the number of live definitions. An
`undefine` succeeds exactly if the symbol finds a macro. That macro is there under its own namespace
and name, and it alone goes; the others keep their order. -/
theorem registry_iff_live (h : History) :
    (∀ i m, h.Live i m ↔
      ∃ past : History, past.length = i ∧ h.Continues (past.define m) ∧ h.Spares i m) ∧
    (∀ i j m n, h.Live i m → h.Live j n → m.key = n.key → i = j) ∧
    (∀ ns name m, h.registry.lookup none ⟨name, some ns⟩ = some m ↔
      ∃ i, h.Live i m ∧ m.key = (ns, name)) ∧
    (∀ name m, h.registry.lookup none ⟨name, none⟩ = some m ↔
      ∃ i, h.Live i m ∧ m.name = name ∧ ∀ j n, h.Live j n → n.name = name → j ≤ i) ∧
    (∀ caller name m, h.registry.lookup (some caller) ⟨name, none⟩ = some m ↔
      ∃ i, h.Live i m ∧ caller.resolve ⟨name, none⟩ = ⟨m.name, some m.ns⟩) ∧
    h.registry.size = Set.ncard {i | ∃ m, h.Live i m} ∧
    ∀ caller s,
      (h.registry.undefine caller s).1 = (h.registry.lookup caller s).isSome ∧
      (h.registry.lookup caller s = none → (h.registry.undefine caller s).2 = h.registry) ∧
      ∀ m, h.registry.lookup caller s = some m →
        h.registry.find? m.key = some m ∧
        ∃ older newer, h.registry.macros = older ++ m :: newer ∧
          (h.registry.undefine caller s).2.macros = older ++ newer := by
  obtain ⟨defs, hdefs⟩ := h.exists_enumerates
  refine ⟨fun i m => live_iff_spares, fun i j m n hi hj hkey => (hdefs.eq_of_key_eq hi hj hkey).1,
    fun ns name m => hdefs.lookup_eq_some_iff, fun name m => hdefs.lookup_eq_some_iff,
    fun caller name m => hdefs.lookup_eq_some_iff, hdefs.ncard_live.symm, fun caller s => ?_⟩
  unfold Registry.undefine
  cases hfound : h.registry.lookup caller s with
  | none => exact ⟨rfl, fun _ => rfl, fun m hm => nomatch hm⟩
  | some m =>
      refine ⟨rfl, fun hnone => (nomatch hnone), fun m' hm' => ?_⟩
      cases hm'
      obtain ⟨i, hsel⟩ := hdefs.lookup_eq_some_iff.mp hfound
      have hm : m ∈ h.registry.macros := hdefs.mem_macros_iff.mpr ⟨i, hsel.1⟩
      exact ⟨Registry.find?_eq_some_iff.mpr ⟨hm, rfl⟩, Registry.exists_remove_eq hm⟩

end History

end Quasiquote
