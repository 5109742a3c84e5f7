import Mathlib.Data.Set.Defs
import Quasiquote.Proofs.Freshness.Name
import Quasiquote.Proofs.Template.Effect
import Quasiquote.Proofs.Text.Digit

namespace Quasiquote

open Stateful

theorem toList_toString (k : Int) :
    (toString k).toList = (if k < 0 then ['-'] else []) ++ Nat.toDigits 10 k.natAbs := by
  cases k with
  | ofNat n =>
      rw [if_neg (by simp)]
      exact Nat.toList_repr
  | negSucc n =>
      rw [if_pos (Int.negSucc_lt_zero n)]
      change ("-" ++ (n + 1).repr).toList = _
      rw [String.toList_append, Nat.toList_repr]
      rfl

/-- A request for a fresh name, as a text or as the symbol that the helper makes. -/
inductive Request where
  | text (lead : String)
  | symbol (args : List Value)

namespace Request

def perform : Request → ExceptT Failure (StateM Allocator) String
  | text lead => fresh lead
  | symbol args => do
      pure (← (Helper.gensym.call args : Building (StateM Allocator) Value).runFrom
        Table.empty).spelling

/-- The leading text of the name that is asked for. -/
def lead : Request → Except Failure String
  | text lead => pure lead
  | symbol args => Helper.gensymLead args

theorem gives_perform_error {request : Request} {f : Failure} (h : request.lead = .error f)
    (a : Allocator) : Gives (m := StateM Allocator) request.perform a (.error f) a := by
  cases request with
  | text lead => exact nomatch h
  | symbol args =>
      refine gives_bind_pure_error.mpr (Building.gives_runFrom.mpr ⟨Table.empty, ?_⟩)
      exact (Helper.gives_gensym_of_error h).mpr ⟨rfl, rfl⟩

theorem gives_perform {request : Request} {lead : String} (h : request.lead = .ok lead)
    {a b : Allocator} {r : Except Failure String}
    (hr : Gives (m := StateM Allocator) (Allocator.issue lead) a r b) :
    Gives (m := StateM Allocator) request.perform a r b := by
  cases request with
  | text lead =>
      cases h
      exact hr
  | symbol args =>
      refine gives_bind_pure.mpr ⟨r.map fun name => .sym ⟨name, none⟩,
        Building.gives_runFrom.mpr ⟨Table.empty, ?_⟩, ?_⟩
      · exact (Helper.gives_gensym_of_ok h).mpr ⟨r, ⟨hr, rfl⟩, rfl⟩
      · cases r <;> rfl

/-- The leading texts of the requests that come to a name. -/
def leads (requests : List Request) : List String := requests.filterMap fun r => r.lead.toOption

theorem leads_cons_of_error {request : Request} {f : Failure} (h : request.lead = .error f)
    (requests : List Request) : leads (request :: requests) = leads requests :=
  List.filterMap_cons_none (by rw [h]; rfl)

theorem leads_cons_of_ok {request : Request} {lead : String} (h : request.lead = .ok lead)
    (requests : List Request) : leads (request :: requests) = lead :: leads requests :=
  List.filterMap_cons_some (by rw [h]; rfl)

end Request

namespace Allocator

/-- The answers to requests that are made one after the other. One that fails does not end the row. -/
def answers (a : Allocator) : List Request → List (Except Failure String)
  | [] => []
  | request :: requests =>
      let (answer, next) := request.perform.run.run a
      answer :: next.answers requests

/-- The names that are handed out for requests. -/
def names (a : Allocator) (requests : List Request) : List String :=
  (a.answers requests).filterMap Except.toOption

/-- The next name, if its number can be written. -/
def name? (a : Allocator) (lead : String) : Option String :=
  if a.isWritable then some (lead ++ toString a.next) else none

/-- The allocator after a number of names. -/
def advance (a : Allocator) (n : Nat) : Allocator := ⟨a.next + n⟩

theorem answers_cons {a b : Allocator} {request : Request} {r : Except Failure String}
    (h : Gives (m := StateM Allocator) request.perform a r b) (requests : List Request) :
    a.answers (request :: requests) = r :: b.answers requests := by
  have hrun : request.perform a = (r, b) := h
  change (request.perform a).1 :: (request.perform a).2.answers requests = _
  rw [hrun]

theorem advance_zero (a : Allocator) : a.advance 0 = a := by
  simp [advance]

theorem advance_advance (a : Allocator) (m n : Nat) :
    (a.advance m).advance n = a.advance (n + m) := by
  simp only [advance, mk.injEq]
  omega

theorem names_cons_of_error {a : Allocator} {request : Request} {f : Failure}
    (h : request.lead = .error f) (requests : List Request) :
    a.names (request :: requests) = a.names requests := by
  rw [names, answers_cons (request.gives_perform_error h a)]
  rfl

theorem names_cons_of_ok {a : Allocator} {request : Request} {lead : String}
    (h : request.lead = .ok lead) (requests : List Request) :
    a.names (request :: requests) = (a.name? lead).toList ++ (a.advance 1).names requests := by
  rw [names, answers_cons (request.gives_perform h (gives_issue.mpr ⟨rfl, rfl⟩)), name?]
  cases a.isWritable <;> rfl

/-- The names come from the leading texts and the numbers that follow each other. -/
theorem names_eq (a : Allocator) (requests : List Request) :
    a.names requests =
      ((Request.leads requests).mapIdx fun i lead => (a.advance i).name? lead).filterMap id := by
  induction requests generalizing a with
  | nil => rfl
  | cons request requests ih =>
      cases h : request.lead with
      | error f =>
          rw [names_cons_of_error h, ih, Request.leads_cons_of_error h]
      | ok lead =>
          rw [names_cons_of_ok h, ih, Request.leads_cons_of_ok h, List.mapIdx_cons, advance_zero]
          simp only [advance_advance]
          cases a.name? lead <;> rfl

theorem nodup_names_iff_forall (a : Allocator) (requests : List Request) :
    (a.names requests).Nodup ↔ ∀ (i j : Nat) (first second name : String),
      (Request.leads requests)[i]? = some first → (Request.leads requests)[j]? = some second →
      (a.advance i).name? first = some name → (a.advance j).name? second = some name → i = j := by
  rw [names_eq, List.Nodup, List.pairwise_filterMap, List.pairwise_iff_getElem]
  simp only [List.length_mapIdx, List.getElem_mapIdx, id]
  constructor
  · intro h i j first second name hfirst? hsecond? hfirst hsecond
    obtain ⟨hi, rfl⟩ := List.getElem?_eq_some_iff.mp hfirst?
    obtain ⟨hj, rfl⟩ := List.getElem?_eq_some_iff.mp hsecond?
    rcases Nat.lt_trichotomy i j with hlt | heq | hlt
    · exact absurd rfl (h i j hi hj hlt name hfirst name hsecond)
    · exact heq
    · exact absurd rfl (h j i hj hi hlt name hsecond name hfirst)
  · rintro h i j hi hj hlt name hfirst _ hsecond rfl
    exact absurd (h i j _ _ name (List.getElem?_eq_getElem hi) (List.getElem?_eq_getElem hj)
      hfirst hsecond) (Nat.ne_of_lt hlt)

/-- Two requests that are given one name: the number of one is written as the number of the other with
some characters in front, and with these the leading text of the other ends. -/
def Collides (a : Allocator) (leads : List String) : Prop :=
  ∃ (i j : Nat) (lead piece : String), piece ≠ "" ∧ leads[i]? = some (lead ++ piece) ∧
    leads[j]? = some lead ∧ toString (a.advance j).next = piece ++ toString (a.advance i).next ∧
    (a.advance j).isWritable = true

end Allocator

theorem eq_append_ofList {s t : String} {cs : List Char} (h : s.toList = t.toList ++ cs) :
    s = t ++ String.ofList cs := by
  rw [← String.toList_inj, String.toList_append, String.toList_ofList, h]

theorem eq_ofList_append {s t : String} {cs : List Char} (h : s.toList = cs ++ t.toList) :
    s = String.ofList cs ++ t := by
  rw [← String.toList_inj, String.toList_append, String.toList_ofList, h]

/-- One name with two numbers: the longer number begins with what ends the longer leading text. -/
theorem exists_piece {first second : String} {k l : Int}
    (h : first ++ toString k = second ++ toString l) (hne : k ≠ l) :
    ∃ piece, piece ≠ "" ∧ (first = second ++ piece ∧ toString l = piece ++ toString k ∨
      second = first ++ piece ∧ toString k = piece ++ toString l) := by
  have nonempty {m n : Int} {piece : String} (hmn : m ≠ n)
      (hpiece : toString m = piece ++ toString n) : piece ≠ "" := by
    rintro rfl
    exact hmn (toString_injective (hpiece.trans String.empty_append))
  have hlists := congrArg String.toList h
  rw [String.toList_append, String.toList_append, List.append_eq_append_iff] at hlists
  rcases hlists with ⟨cs, hlead, hnumber⟩ | ⟨cs, hlead, hnumber⟩
  · have hk := eq_ofList_append hnumber
    exact ⟨_, nonempty hne hk, .inr ⟨eq_append_ofList hlead, hk⟩⟩
  · have hl := eq_ofList_append hnumber
    exact ⟨_, nonempty hne.symm hl, .inl ⟨eq_append_ofList hlead, hl⟩⟩

theorem isWritable_of_piece {piece : String} {k l : Int} (hpiece : piece ≠ "")
    (h : toString l = piece ++ toString k) (hl : (⟨l⟩ : Allocator).isWritable = true) :
    (⟨k⟩ : Allocator).isWritable = true := by
  have hlength : 0 < piece.toList.length :=
    List.length_pos_iff.mpr fun hnil => hpiece (String.toList_eq_nil_iff.mp hnil)
  have hlists := congrArg (fun s => s.toList.length) h
  simp only [String.toList_append, List.length_append, toList_toString] at hlists
  have hsign : (if l < 0 then ['-'] else []).length ≤ 1 := by
    split <;> decide
  simp only [Allocator.isWritable, decide_eq_true_eq] at hl ⊢
  omega

namespace Allocator

theorem collides_iff (a : Allocator) (requests : List Request) :
    a.Collides (Request.leads requests) ↔ ¬(a.names requests).Nodup := by
  rw [nodup_names_iff_forall]
  have named {n : Nat} {lead name : String} : (a.advance n).name? lead = some name ↔
      (a.advance n).isWritable = true ∧ lead ++ toString (a.advance n).next = name := by
    rw [name?]
    split <;> simp_all
  constructor
  · rintro ⟨i, j, lead, piece, hpiece, hi, hj, hnumber, hwritable⟩ h
    obtain rfl := h i j _ _ _ hi hj (named.mpr ⟨isWritable_of_piece hpiece hnumber hwritable, rfl⟩)
      (named.mpr ⟨hwritable, by rw [hnumber, String.append_assoc]⟩)
    have hlead : lead ++ piece = lead := Option.some.inj (hi.symm.trans hj)
    rw [← String.toList_inj, String.toList_append, List.append_right_eq_self] at hlead
    exact hpiece (String.toList_eq_nil_iff.mp hlead)
  · intro h
    push Not at h
    obtain ⟨i, j, first, second, name, hi, hj, hname, hname', hne⟩ := h
    obtain ⟨hfirst, rfl⟩ := named.mp hname
    obtain ⟨hsecond, heq⟩ := named.mp hname'
    have hnumbers : (a.advance i).next ≠ (a.advance j).next := by
      simp only [advance]
      omega
    obtain ⟨piece, hpiece, ⟨rfl, hnumber⟩ | ⟨rfl, hnumber⟩⟩ := exists_piece heq.symm hnumbers
    · exact ⟨i, j, second, piece, hpiece, hi, hj, hnumber, hsecond⟩
    · exact ⟨j, i, first, piece, hpiece, hj, hi, hnumber, hfirst⟩

end Allocator

/-- Characters that a number can begin with before its last digit: a minus sign, digits that do not
begin with zero, or both. -/
def StartsNumeral (piece : String) : Prop :=
  piece ≠ "" ∧ ∃ sign digits : List Char, piece.toList = sign ++ digits ∧
    (sign = [] ∨ sign = ['-']) ∧ (∀ c ∈ digits, c.isDigit = true) ∧
    digits.head? ≠ some '0' ∧ digits.length < 4300

theorem startsNumeral_of_toString_eq {piece : String} {k l : Int} (hpiece : piece ≠ "")
    (h : toString l = piece ++ toString k) (hl : (⟨l⟩ : Allocator).isWritable = true) :
    StartsNumeral piece := by
  have hne : piece.toList ≠ [] := fun hnil => hpiece (String.toList_eq_nil_iff.mp hnil)
  have hlists := congrArg String.toList h
  rw [String.toList_append, toList_toString] at hlists
  obtain ⟨sign, digits, hsign, hsplit, hdigits⟩ : ∃ sign digits : List Char,
      (sign = [] ∨ sign = ['-']) ∧ piece.toList = sign ++ digits ∧
        Nat.toDigits 10 l.natAbs = digits ++ (toString k).toList := by
    split at hlists
    · obtain ⟨c, digits, hcons⟩ := List.exists_cons_of_ne_nil hne
      rw [hcons] at hlists ⊢
      obtain ⟨rfl, hdigits⟩ := List.cons.inj hlists
      exact ⟨['-'], digits, .inr rfl, rfl, hdigits⟩
    · exact ⟨[], piece.toList, .inl rfl, rfl, hlists⟩
  have hlength := congrArg List.length hdigits
  rw [List.length_append] at hlength
  have hrest : 0 < (toString k).toList.length := List.length_pos_iff.mpr (toString_ne_empty k)
  refine ⟨hpiece, sign, digits, hsplit, hsign, fun c hc => ?_, ?_, ?_⟩
  · exact Text.isDigit_of_mem_toDigits (hdigits ▸ List.mem_append_left _ hc)
  · cases digits with
    | nil => simp
    | cons c digits =>
        have hpos : 0 < l.natAbs := by
          refine Nat.pos_of_ne_zero fun hzero => ?_
          rw [hzero, Nat.toDigits_zero, List.length_cons, List.length_cons] at hlength
          simp only [List.length_nil] at hlength
          omega
        have hhead := Text.head?_toDigits hpos
        rwa [hdigits] at hhead
  · simp only [Allocator.isWritable, decide_eq_true_eq] at hl
    omega

theorem exists_toString_eq {piece : String} (h : StartsNumeral piece) :
    ∃ k l : Int, toString l = piece ++ toString k ∧ (⟨l⟩ : Allocator).isWritable = true := by
  obtain ⟨hpiece, sign, digits, hsplit, hsign, hdigits, hhead, hlength⟩ := h
  cases digits with
  | nil =>
      rcases hsign with rfl | rfl
      · exact absurd (String.toList_eq_nil_iff.mp hsplit) hpiece
      · obtain rfl : piece = "-" := String.toList_inj.mp hsplit
        exact ⟨1, -1, by decide, by decide⟩
  | cons c digits =>
      -- A zero behind the digits makes a number of them, and one that ends in the number zero.
      have hnumeral : Nat.toDigits 10 (Text.decimalValue (c :: digits ++ ['0'])) =
          c :: digits ++ ['0'] := by
        refine Text.toDigits_decimalValue (by simp) (fun d hd => ?_) hhead
        rcases List.mem_append.mp hd with hd | hd
        · exact hdigits d hd
        · rw [List.mem_singleton.mp hd]
          rfl
      generalize Text.decimalValue (c :: digits ++ ['0']) = n at hnumeral
      have hpos : n ≠ 0 := by
        rintro rfl
        simp at hnumeral
      have written {l : Int} (habs : l.natAbs = n) (hl : (if l < 0 then ['-'] else []) = sign) :
          toString l = piece ++ toString (0 : Int) ∧ (⟨l⟩ : Allocator).isWritable = true := by
        constructor
        · rw [← String.toList_inj, toList_toString, String.toList_append, hsplit, habs, hnumeral, hl,
            List.append_assoc]
          rfl
        · simp only [Allocator.isWritable, habs, hnumeral, decide_eq_true_eq, List.length_append]
          exact hlength
      rcases hsign with rfl | rfl
      · exact ⟨0, n, written (Int.natAbs_natCast n) (if_neg (by omega))⟩
      · exact ⟨0, -n, written (by omega) (if_pos (by omega))⟩

/-- A text ends in a character that numbers are written with. -/
def EndsNumeral (lead : String) : Prop :=
  ∃ c, lead.toList.getLast? = some c ∧ (c.isDigit = true ∨ c = '-')

theorem StartsNumeral.endsNumeral {lead piece : String} (h : StartsNumeral piece) :
    EndsNumeral (lead ++ piece) := by
  obtain ⟨hpiece, sign, digits, hsplit, hsign, hdigits, -, -⟩ := h
  have hne : piece.toList ≠ [] := fun hnil => hpiece (String.toList_eq_nil_iff.mp hnil)
  obtain ⟨c, hc⟩ := Option.isSome_iff_exists.mp (List.getLast?_isSome.mpr hne)
  refine ⟨c, by rw [String.toList_append, List.getLast?_append, hc, Option.some_or], ?_⟩
  have hmem := List.mem_of_getLast? hc
  rw [hsplit] at hmem
  rcases List.mem_append.mp hmem with hmem | hmem
  · rcases hsign with rfl | rfl
    · exact nomatch hmem
    · exact .inr (List.mem_singleton.mp hmem)
  · exact .inl (hdigits c hmem)

namespace Allocator

/-- Two leading texts of which one is the other with the beginning of a number behind it are given one
name, if the allocator comes by both numbers. -/
theorem exists_not_nodup_names (lead : String) {piece : String} (h : StartsNumeral piece) :
    ∃ (a : Allocator) (requests : List Request),
      (∀ asked ∈ Request.leads requests, asked = lead ∨ asked = lead ++ piece) ∧
        ¬(a.names requests).Nodup := by
  obtain ⟨k, l, hnumber, hwritable⟩ := exists_toString_eq h
  have hne : l ≠ k := by
    rintro rfl
    have hlists := congrArg String.toList hnumber
    rw [String.toList_append, List.self_eq_append_left] at hlists
    exact h.1 (String.toList_eq_nil_iff.mp hlists)
  -- The row runs from the smaller number to the greater one and asks for the longer text at `k` only.
  let asked : List String := (List.range ((k - l).natAbs + 1)).map fun n : Nat =>
    if min k l + n = k then lead ++ piece else lead
  have hasked : Request.leads (asked.map .text) = asked := by
    rw [Request.leads, List.filterMap_map]
    exact List.filterMap_some
  have asked_at (n : Nat) (hn : n ≤ (k - l).natAbs) :
      asked[n]? = some (if min k l + n = k then lead ++ piece else lead) := by
    rw [List.getElem?_map, List.getElem?_range (by omega), Option.map_some]
  refine ⟨⟨min k l⟩, asked.map .text, ?_, (collides_iff _ _).mp ?_⟩
  · intro text htext
    obtain ⟨n, -, rfl⟩ := List.mem_map.mp (hasked ▸ htext)
    split
    · exact .inr rfl
    · exact .inl rfl
  · have hk : (advance ⟨min k l⟩ (k - min k l).toNat) = ⟨k⟩ := by
      simp only [advance, mk.injEq]
      omega
    have hl : (advance ⟨min k l⟩ (l - min k l).toNat) = ⟨l⟩ := by
      simp only [advance, mk.injEq]
      omega
    refine ⟨(k - min k l).toNat, (l - min k l).toNat, lead, piece, h.1, ?_, ?_, ?_, ?_⟩
    · rw [hasked, asked_at _ (by omega), if_pos (by omega)]
    · rw [hasked, asked_at _ (by omega), if_neg (by omega)]
    · rw [hk, hl, hnumber]
    · rw [hl, hwritable]

/-- No name comes twice unless a longer number begins with the end of a leading text. A set of leading
texts is free of this, with any first number and in any order, exactly if none of them is another one
with the beginning of a number behind it; and one whose last character is neither a digit nor a minus
sign cannot be. -/
theorem nodup_names_iff_not_collides (a : Allocator) (requests : List Request)
    (safe : Set String) :
    ((a.names requests).Nodup ↔ ¬a.Collides (Request.leads requests)) ∧
    ((∀ (a : Allocator) (requests : List Request),
        (∀ lead ∈ Request.leads requests, lead ∈ safe) → (a.names requests).Nodup) ↔
      ∀ lead ∈ safe, ∀ piece, StartsNumeral piece → lead ++ piece ∉ safe) ∧
    ((∀ lead ∈ Request.leads requests, ¬EndsNumeral lead) → (a.names requests).Nodup) := by
  have nodup_of_safe (safe : Set String)
      (hsafe : ∀ lead ∈ safe, ∀ piece, StartsNumeral piece → lead ++ piece ∉ safe)
      (a : Allocator) (requests : List Request)
      (hleads : ∀ lead ∈ Request.leads requests, lead ∈ safe) : (a.names requests).Nodup := by
    by_contra hnodup
    obtain ⟨i, j, lead, piece, hpiece, hi, hj, hnumber, hwritable⟩ :=
      (a.collides_iff requests).mpr hnodup
    exact hsafe lead (hleads lead (List.mem_of_getElem? hj)) piece
      (startsNumeral_of_toString_eq hpiece hnumber hwritable)
      (hleads _ (List.mem_of_getElem? hi))
  refine ⟨?_, ⟨?_, nodup_of_safe safe⟩, ?_⟩
  · rw [collides_iff, not_not]
  · intro h lead hlead piece hpiece hmem
    obtain ⟨a, requests, hleads, hnodup⟩ := exists_not_nodup_names lead hpiece
    refine hnodup (h a requests fun asked hasked => ?_)
    rcases hleads asked hasked with rfl | rfl
    · exact hlead
    · exact hmem
  · intro hends
    exact nodup_of_safe (fun lead => ¬EndsNumeral lead)
      (fun lead _ piece hpiece hmem => hmem hpiece.endsNumeral) a requests hends

theorem nodup_names_iff_not_collides_default :
    (names {} [.text "G", .symbol [], .text "G"]).Nodup ∧
      ∀ (a : Allocator) (requests : List Request),
        (∀ lead ∈ Request.leads requests, lead ∈ ({"G", "G__"} : Set String)) →
          (a.names requests).Nodup := by
  obtain ⟨-, hsets, hends⟩ :=
    nodup_names_iff_not_collides {} [.text "G", .symbol [], .text "G"] {"G", "G__"}
  have hnumeral : ∀ lead ∈ ({"G", "G__"} : Set String), ¬EndsNumeral lead := by
    rintro lead (rfl | rfl) ⟨c, hc, hdigit⟩
    · cases hc
      exact absurd hdigit (by decide)
    · cases hc
      exact absurd hdigit (by decide)
  refine ⟨hends fun lead hlead => hnumeral lead ?_, hsets.mpr fun lead hlead piece hpiece hmem => ?_⟩
  · have hleads : Request.leads [.text "G", .symbol [], .text "G"] = ["G", "G__", "G"] := rfl
    rw [hleads] at hlead
    simp only [List.mem_cons, List.not_mem_nil, or_false] at hlead
    rcases hlead with rfl | rfl | rfl <;> simp
  · exact hnumeral _ hmem hpiece.endsNumeral

/-- The name of number one with leading text `g1` is the name of number eleven with leading text `g`. -/
theorem not_nodup_names_numeral :
    ¬∀ (a : Allocator) (requests : List Request), (a.names requests).Nodup := by
  intro h
  exact absurd (h ⟨1⟩ (.text "g1" :: List.replicate 10 (.text "g"))) (by decide)

end Allocator

end Quasiquote
