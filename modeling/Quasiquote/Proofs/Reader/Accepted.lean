import Quasiquote.Proofs.Outcome
import Quasiquote.Proofs.Reader.RoundTrip
import Quasiquote.Proofs.Reader.Shape

namespace Quasiquote

open Value

/-- The leaves that a token stands for. Brackets stand for none. -/
def Token.leaves (token : Token) : List Value :=
  match Reader.role false token with
  | .ok (.value v) => v.leaves
  | .ok (.mark s) => [sym s]
  | _ => []

def Pending.leaves : Pending → List Value
  | .group _ _ reversed => reversed.reverse.flatMap Value.leaves
  | .mark _ s => [sym s]

namespace Reader

def stackLeaves : List Pending → List Value
  | [] => []
  | pending :: stack => stackLeaves stack ++ pending.leaves

def stateLeaves : List Pending ⊕ Value → List Value
  | .inl stack => stackLeaves stack
  | .inr v => v.leaves

theorem stateLeaves_deliver (v : Value) (stack : List Pending) :
    stateLeaves (deliver v stack) = stackLeaves stack ++ v.leaves := by
  induction stack generalizing v with
  | nil => rfl
  | cons pending stack ih =>
      cases pending with
      | group opener closer reversed =>
          simp [deliver, stateLeaves, stackLeaves, Pending.leaves]
      | mark token s =>
          rw [deliver, ih, leaves_list]
          simp [stackLeaves, Pending.leaves, Value.leaves]

theorem role_of_ok {last : Bool} {token : Token} {r : TokenRole} (h : role last token = .ok r)
    (last' : Bool) : role last' token = .ok r := by
  unfold role at h ⊢
  cases hkind : token.kind <;> simp only [hkind] at h ⊢
  case quote | unquote =>
    cases hhead : headOf? token.text <;> simp only [hhead] at h ⊢
    case none => split at h <;> cases h
    case some => exact h
  all_goals exact h

theorem leaves_of_role {last : Bool} {token : Token} {r : TokenRole}
    (h : role last token = .ok r) :
    token.leaves = match r with
      | .value v => v.leaves
      | .mark s => [sym s]
      | _ => [] := by
  rw [Token.leaves, role_of_ok h false]
  cases r <;> rfl

theorem stateLeaves_of_shift {last : Bool} {token : Token} {stack : List Pending}
    {state : List Pending ⊕ Value} (h : shift last token stack = .ok state) :
    stateLeaves state = stackLeaves stack ++ token.leaves := by
  cases hrole : role last token with
  | error failure =>
      unfold shift at h
      rw [hrole] at h
      cases h
  | ok r =>
      have hleaves := leaves_of_role hrole
      cases r with
      | value v =>
          cases (shift_value hrole stack).symm.trans h
          rw [stateLeaves_deliver, hleaves]
      | mark s =>
          cases (shift_mark hrole stack).symm.trans h
          rw [hleaves]
          rfl
      | opener closer =>
          cases (shift_opener hrole stack).symm.trans h
          rw [hleaves]
          simp [stateLeaves, stackLeaves, Pending.leaves]
      | closer =>
          unfold shift at h
          rw [hrole] at h
          rcases stack with _ | ⟨⟨opener, closer, reversed⟩ | ⟨mark, s⟩, stack⟩
          · cases h
          · change (if token.text = closer then _ else _) = _ at h
            split at h
            · cases h
              rw [stateLeaves_deliver, hleaves, leaves_list]
              simp [stackLeaves, Pending.leaves]
            · cases h
          · cases h

theorem flatMap_leaves_of_all {unclosed : Option Nat} {stack : List Pending} {ts : List Token}
    {forms : List Value} (h : all unclosed stack ts = (forms, none)) :
    forms.flatMap Value.leaves = stackLeaves stack ++ ts.flatMap Token.leaves := by
  induction ts generalizing stack forms with
  | nil =>
      unfold all at h
      split at h
      · cases h
        rfl
      · cases h
  | cons token ts ih =>
      cases hshift : shift (ts.isEmpty && unclosed.isNone) token stack with
      | error failure =>
          rw [all, hshift] at h
          cases h
      | ok state =>
          have hleaves := stateLeaves_of_shift hshift
          rw [all_cons_of_shift hshift] at h
          rw [List.flatMap_cons, ← List.append_assoc, ← hleaves]
          cases state with
          | inl stack => exact ih h
          | inr v =>
              obtain ⟨rfl, hfailure⟩ := Prod.mk.inj h
              have hrest : all unclosed [] ts = ((all unclosed [] ts).1, none) := by
                rw [← hfailure]
              rw [List.flatMap_cons, ih hrest]
              rfl

/-- The leaves of the forms of a text are what its tokens stand for. -/
theorem flatMap_leaves_of_readAll {text : List Char} {forms : List Value}
    (h : readAll text = .ok forms) :
    forms.flatMap Value.leaves = (Lexemes.ofText text).tokens.flatMap Token.leaves :=
  flatMap_leaves_of_all (readAll_eq_ok_iff.mp h)

end Reader

namespace Atom

theorem natAbs_signed (negative : Bool) (digits : List Char) :
    (signed negative digits).natAbs = Text.decimalValue digits := by
  unfold signed
  split <;> simp

theorem integer?_ne_nil {cs digits : List Char} {negative : Bool}
    (h : integer? cs = some (negative, digits)) : digits ≠ [] := by
  simp only [integer?] at h
  split_ifs at h with hdigits
  cases h
  simp only [Bool.and_eq_true, Bool.not_eq_true', List.isEmpty_eq_false_iff] at hdigits
  exact hdigits.1

theorem exists_ofDecimal_of_float? {cs : List Char} {x : Float} (h : float? cs = some x) :
    ∃ negative digits exponent, x = Binary64.ofDecimal negative digits exponent := by
  simp only [float?, Option.bind_eq_bind, Option.bind_eq_some_iff] at h
  obtain ⟨exponent, -, hx⟩ := h
  split_ifs at hx
  exact ⟨_, _, _, (Option.some.inj hx).symm⟩

theorem legible_or_infinite_of_float? {cs : List Char} {x : Float} (h : float? cs = some x) :
    (num (.float x)).IsLegible ∨ (num (.float x)).IsInfinite := by
  obtain ⟨negative, digits, exponent, rfl⟩ := exists_ofDecimal_of_float? h
  have hnan := Binary64.parts_ofMagnitude_ne_nan negative
    (Binary64.rounded_le (digits * (10 : ℚ) ^ exponent))
  rw [← Binary64.ofDecimal_eq] at hnan
  cases hparts : Binary64.parts (Binary64.ofDecimal negative digits exponent) with
  | nan => exact (hnan hparts).elim
  | infinite sign => exact Or.inr ⟨_, sign, rfl, hparts⟩
  | finite sign m e => exact Or.inl (.float hparts)

theorem text_parse (text : String) : (Symbol.parse text).text = text := by
  have hsplit := List.takeWhile_append_dropWhile (p := (· ≠ '/')) (l := text.toList)
  simp only [Symbol.parse]
  split
  case h_1 c cs d e rest hbefore hafter =>
    have hslash : decide (d ≠ '/') = false := by
      have hhead := List.head?_dropWhile_not (· ≠ '/') text.toList
      rwa [hafter] at hhead
    have hd : d = '/' := by simpa using hslash
    rw [hafter, hd] at hsplit
    rw [Symbol.text, ← String.toList_inj]
    simpa using hsplit
  case h_2 => rfl

theorem legible_or_infinite_of_ofWord {word : String} {v : Value} (hword : IsWord word.toList)
    (h : ofWord word = .ok v) : v.IsLegible ∨ v.IsInfinite := by
  have hread := h
  unfold ofWord at h
  split_ifs at h
  · cases h
    exact Or.inl .nil
  · cases h
    exact Or.inl (.bool true)
  · cases h
    exact Or.inl (.bool false)
  split at h
  case h_1 negative digits hinteger =>
    split_ifs at h with hlimit
    cases h
    refine Or.inl (.int ?_)
    -- The word may have more digits than the number: zeros in front, or digits of another script.
    rw [natAbs_signed]
    have hlength : (Nat.toDigits 10 (Text.decimalValue digits)).length ≤ digits.length :=
      (Nat.length_toDigits_le_iff (by decide)
        (List.length_pos_of_ne_nil (integer?_ne_nil hinteger))).mpr (Text.decimalValue_lt digits)
    omega
  split at h
  case h_1 x hfloat =>
    cases h
    exact legible_or_infinite_of_float? hfloat
  split at h
  case h_1 => cases h
  case h_2 name _ hname =>
    cases h
    have htext : ":" ++ String.ofList name = word := by
      simp [← String.toList_inj, hname]
    refine Or.inl (.kw ?_ (htext ▸ hread))
    rwa [String.toList_ofList, ← hname]
  case h_3 =>
    cases h
    exact Or.inl (.sym (by rwa [text_parse]) (by rwa [text_parse]))

end Atom

namespace Reader

theorem role_eq_value {last : Bool} {token : Token} {v : Value}
    (h : role last token = .ok (.value v)) :
    (token.kind = .symbol ∧ Atom.ofWord token.text = .ok v) ∨ ∃ s, v = str s := by
  unfold role at h
  split at h
  case h_1 hkind =>
    obtain ⟨w, hread, hw⟩ := map_eq_ok h
    cases hw
    exact Or.inl ⟨hkind, hread⟩
  case h_2 =>
    obtain ⟨w, hread, hw⟩ := map_eq_ok h
    cases hw
    obtain ⟨cs, -, rfl⟩ := map_eq_ok hread
    exact Or.inr ⟨_, rfl⟩
  case h_3 | h_4 =>
    split at h
    · cases h
    · split at h <;> cases h
  case h_5 => split at h <;> cases h
  case h_6 => cases h
  case h_7 => cases h

theorem role_eq_mark {last : Bool} {token : Token} {s : Symbol}
    (h : role last token = .ok (.mark s)) : headOf? token.text = some s := by
  unfold role at h
  split at h
  case h_1 | h_2 =>
    obtain ⟨w, -, hw⟩ := map_eq_ok h
    cases hw
  case h_3 | h_4 =>
    split at h
    case h_1 head hhead =>
      cases h
      exact hhead
    case h_2 => split at h <;> cases h
  case h_5 => split at h <;> cases h
  case h_6 => cases h
  case h_7 => cases h

theorem isLegible_headOf? {mark : String} {s : Symbol} (h : headOf? mark = some s) :
    (sym s).IsLegible := by
  unfold headOf? at h
  split_ifs at h <;> cases h <;> exact .sym (isWord_of_all (by decide) (by decide)) rfl

end Reader

theorem Token.IsShaped.leaves {token : Token} (h : token.IsShaped) :
    ∀ w ∈ token.leaves, w.IsLegible ∨ w.IsInfinite := by
  intro w hw
  unfold Token.leaves at hw
  split at hw
  case h_1 v hrole =>
    have hv : v.IsLegible ∨ v.IsInfinite := by
      rcases Reader.role_eq_value hrole with ⟨hkind, hread⟩ | ⟨s, rfl⟩
      · exact Atom.legible_or_infinite_of_ofWord (h.isWord hkind) hread
      · exact Or.inl (.str s)
    have htoken : v.IsToken := hv.elim IsLegible.isToken IsInfinite.isToken
    rw [leaves_of_isLeaf htoken.isLeaf, List.mem_singleton] at hw
    exact hw ▸ hv
  case h_2 s hrole =>
    cases List.mem_singleton.mp hw
    exact Or.inl (Reader.isLegible_headOf? (Reader.role_eq_mark hrole))
  case h_3 => exact nomatch hw

/-- Whether a tree has only leaves that the reader makes. -/
def Value.IsAccepted (v : Value) : Prop := ∀ w ∈ v.leaves, w.IsLegible ∨ w.IsInfinite

theorem Value.IsAccepted.item {v : Value} {items : List Value} (h : IsAccepted (list items))
    (hv : v ∈ items) : v.IsAccepted := fun w hw => h w (mem_leaves_list hv hw)

theorem Value.IsAccepted.isToken {v : Value} (h : v.IsAccepted) : ∀ w ∈ v.leaves, w.IsToken :=
  fun w hw => (h w hw).elim IsLegible.isToken IsInfinite.isToken

theorem Reader.isAccepted_of_readAll {text : List Char} {forms : List Value}
    (h : readAll text = .ok forms) : ∀ v ∈ forms, v.IsAccepted := by
  intro v hv w hw
  have hmem := List.mem_flatMap_of_mem hv hw
  rw [flatMap_leaves_of_readAll h] at hmem
  obtain ⟨token, htoken, hleaf⟩ := List.mem_flatMap.mp hmem
  exact (Lexemes.isShaped_of_mem htoken).leaves w hleaf

end Quasiquote
