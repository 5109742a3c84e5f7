import Mathlib.Tactic.SplitIfs
import Quasiquote.Reader.Lexer
import Quasiquote.Value.Source

namespace Quasiquote

/-- Whether a text can stand behind a word without continuing it. -/
def Breaks (rest : List Char) : Prop := ∀ c, rest.head? = some c → isSymbolChar c = false

theorem breaks_nil : Breaks [] := fun _ h => nomatch h

theorem breaks_cons {c : Char} (h : isSymbolChar c = false) (rest : List Char) :
    Breaks (c :: rest) := by
  rintro d ⟨⟩
  exact h

theorem Breaks.append {cs rest : List Char} (hcs : Breaks cs) (hrest : Breaks rest) :
    Breaks (cs ++ rest) := by
  cases cs with
  | nil => exact hrest
  | cons c cs => exact breaks_cons (hcs c rfl) _

/-- Whether a text is a single symbol, number or keyword for the lexer. -/
structure IsWord (cs : List Char) : Prop where
  ne_nil : cs ≠ []
  isSymbolChar : ∀ c ∈ cs, isSymbolChar c = true

/-- Whether a text reads as the given tokens wherever it stands between tokens. -/
def Lexes (cs : List Char) (tokens : List Token) : Prop :=
  ∀ position rest, Breaks rest →
    Lexemes.scan .gap position (cs ++ rest) =
      (Lexemes.scan .gap (position + cs.length) rest).prepend tokens

namespace Lexemes

@[simp]
theorem prepend_nil (lexemes : Lexemes) : lexemes.prepend [] = lexemes := rfl

@[simp]
theorem prepend_prepend (lexemes : Lexemes) (ts us : List Token) :
    (lexemes.prepend ts).prepend us = lexemes.prepend (us ++ ts) := by
  simp [prepend]

theorem scan_cons (state : LexerState) (position : Nat) (c : Char) (cs : List Char) :
    scan state position (c :: cs) =
      (scan (state.step position c).2 (position + 1) cs).prepend (state.step position c).1 := rfl

end Lexemes

open Lexemes LexerState

theorem not_isGap_of_isSymbolChar {c : Char} (h : isSymbolChar c = true) :
    isGap c = false ∧ delimiters.contains c = false := by
  simpa [isSymbolChar] using h

theorem enter_of_isSymbolChar {c : Char} (h : isSymbolChar c = true) (position : Nat) :
    enter position c = ([], .symbol [c]) := by
  obtain ⟨hgap, hdelimiter⟩ := not_isGap_of_isSymbolChar h
  simp only [delimiters, List.contains_cons, List.contains_nil, Bool.or_false,
    Bool.or_eq_false_iff, beq_eq_false_iff_ne] at hdelimiter
  simp only [enter, hgap, hdelimiter, Bool.false_eq_true, or_self, ↓reduceIte]

/-- Whether an escape mark is a token by itself is known only when the character after it is. -/
theorem scan_unquote {rest : List Char} (hrest : rest.head? ≠ some '@') (position : Nat) :
    scan .gap position ('~' :: rest) = (scan .gap (position + 1) rest).prepend [⟨.unquote, "~"⟩] := by
  show (scan .tilde (position + 1) rest).prepend [] = _
  rw [prepend_nil]
  cases rest with
  | nil => rfl
  | cons c rest =>
      have hc : c ≠ '@' := fun hc => hrest (congrArg some hc)
      simp only [scan_cons, step, if_neg hc, prepend_prepend, List.singleton_append]
      rfl

namespace Lexes

theorem nil : Lexes [] [] := fun _ _ _ => rfl

theorem append {cs ds : List Char} {ts us : List Token} (hcs : Lexes cs ts) (hds : Lexes ds us)
    (hbreaks : Breaks ds) : Lexes (cs ++ ds) (ts ++ us) := by
  intro position rest hrest
  rw [List.append_assoc, hcs position _ (hbreaks.append hrest), hds _ rest hrest, prepend_prepend,
    List.length_append, Nat.add_assoc]

theorem cons {c : Char} {cs : List Char} {ts us : List Token} (h : Lexes cs us)
    (henter : ∀ position, enter position c = (ts, .gap)) : Lexes (c :: cs) (ts ++ us) := by
  intro position rest hrest
  have hstep : LexerState.gap.step position c = (ts, .gap) := henter position
  rw [List.cons_append, scan_cons, hstep, h _ rest hrest, prepend_prepend, List.length_cons]
  congr 2
  omega

theorem gap {c : Char} {cs : List Char} {ts : List Token} (h : Lexes cs ts)
    (hc : isGap c = true) : Lexes (c :: cs) ts :=
  cons h fun position => by rw [enter, if_pos hc]

theorem mark {c : Char} {cs : List Char} {token : Token} {ts : List Token} (h : Lexes cs ts)
    (henter : ∀ position, enter position c = ([token], .gap)) : Lexes (c :: cs) (token :: ts) :=
  cons h henter

theorem opening {cs : List Char} {ts : List Token} (h : Lexes cs ts) :
    Lexes ('(' :: cs) (⟨.opening, "("⟩ :: ts) :=
  mark h fun _ => rfl

theorem closing {cs : List Char} {ts : List Token} (h : Lexes cs ts) :
    Lexes (cs ++ [')']) (ts ++ [⟨.closing, ")"⟩]) :=
  append h (mark nil fun _ => rfl) (breaks_cons (by decide) [])

theorem quote {cs : List Char} {ts : List Token} (h : Lexes cs ts) :
    Lexes ('\'' :: cs) (⟨.quote, "'"⟩ :: ts) :=
  mark h fun _ => rfl

theorem syntaxQuote {cs : List Char} {ts : List Token} (h : Lexes cs ts) :
    Lexes ('\x60' :: cs) (⟨.quote, "\x60"⟩ :: ts) :=
  mark h fun _ => rfl

theorem splicing {cs : List Char} {ts : List Token} (h : Lexes cs ts) :
    Lexes ('~' :: '@' :: cs) (⟨.unquote, "~@"⟩ :: ts) := by
  intro position rest hrest
  have hlength : position + ('~' :: '@' :: cs).length = position + 1 + 1 + cs.length := by
    simp only [List.length_cons]
    omega
  rw [List.cons_append, List.cons_append, scan_cons, scan_cons, hlength]
  show prepend _ (prepend _ (scan .gap _ _)) = _
  rw [h _ rest hrest, prepend_prepend, prepend_prepend]
  rfl

theorem unquote {cs : List Char} {ts : List Token} (h : Lexes cs ts) (hhead : cs.head? ≠ some '@') :
    Lexes ('~' :: cs) (⟨.unquote, "~"⟩ :: ts) := by
  intro position rest hrest
  have hnext : (cs ++ rest).head? ≠ some '@' := by
    cases cs with
    | nil =>
        intro hc
        have hsymbol := hrest '@' hc
        revert hsymbol
        decide
    | cons c cs => exact hhead
  rw [List.cons_append, scan_unquote hnext, h _ rest hrest, prepend_prepend, List.length_cons]
  congr 2
  omega

end Lexes

theorem scan_symbol {cs rest : List Char} (hcs : ∀ c ∈ cs, isSymbolChar c = true)
    (hrest : Breaks rest) (reversed : List Char) (position : Nat) :
    scan (.symbol reversed) position (cs ++ rest) =
      (scan .gap (position + cs.length) rest).prepend
        [tokenOf .symbol (cs.reverse ++ reversed)] := by
  induction cs generalizing reversed position with
  | nil =>
      cases rest with
      | nil => rfl
      | cons c rest =>
          have hc := hrest c rfl
          simp only [List.nil_append, scan_cons, step, hc, Bool.false_eq_true, ↓reduceIte,
            prepend_prepend, List.singleton_append]
          rfl
  | cons c cs ih =>
      have hc := hcs c (by simp)
      rw [List.cons_append, scan_cons]
      simp only [step, hc, ↓reduceIte, prepend_nil]
      rw [ih fun d hd => hcs d (by simp [hd])]
      simp only [List.reverse_cons, List.append_assoc, List.singleton_append, List.length_cons]
      congr 2
      omega

theorem IsWord.lexes {cs : List Char} (h : IsWord cs) :
    Lexes cs [⟨.symbol, String.ofList cs⟩] := by
  intro position rest hrest
  obtain ⟨c, cs, rfl⟩ := List.exists_cons_of_ne_nil h.ne_nil
  have hc := enter_of_isSymbolChar (h.isSymbolChar c (by simp)) position
  rw [List.cons_append, scan_cons]
  simp only [step, hc, prepend_nil]
  rw [scan_symbol (fun d hd => h.isSymbolChar d (by simp [hd])) hrest]
  simp only [tokenOf, List.reverse_append, List.reverse_reverse, List.reverse_singleton,
    List.singleton_append, List.length_cons]
  congr 2
  omega

/-- What stands between the quotes of a string token. -/
inductive IsStringBody : List Char → Prop
  | nil : IsStringBody []
  | plain {c : Char} {cs : List Char} (hbackslash : c ≠ '\\') (hquote : c ≠ '"')
      (hcs : IsStringBody cs) : IsStringBody (c :: cs)
  | escape (c : Char) {cs : List Char} (hcs : IsStringBody cs) : IsStringBody ('\\' :: c :: cs)

theorem IsStringBody.append {cs ds : List Char} (hcs : IsStringBody cs) (hds : IsStringBody ds) :
    IsStringBody (cs ++ ds) := by
  induction hcs with
  | nil => exact hds
  | plain hbackslash hquote _ ih => exact .plain hbackslash hquote ih
  | escape c _ ih => exact .escape c ih

theorem isStringBody_stringChar (c : Char) : IsStringBody (stringChar c) := by
  unfold stringChar
  split_ifs with hbackslash hquote
  case neg => exact .plain hbackslash hquote .nil
  all_goals exact .escape _ .nil

theorem isStringBody_stringChars (cs : List Char) : IsStringBody (cs.flatMap stringChar) := by
  induction cs with
  | nil => exact .nil
  | cons c cs ih => exact (isStringBody_stringChar c).append ih

theorem scan_stringBody {body : List Char} (h : IsStringBody body) (start position : Nat)
    (reversed rest : List Char) :
    scan (.string start reversed false) position (body ++ '"' :: rest) =
      (scan .gap (position + body.length + 1) rest).prepend
        [tokenOf .string ('"' :: (body.reverse ++ reversed))] := by
  induction h generalizing position reversed with
  | nil => rfl
  | @plain c cs hbackslash hquote _ ih =>
      rw [List.cons_append, scan_cons]
      simp only [step, if_neg hquote, Bool.false_eq_true, ↓reduceIte, prepend_nil,
        decide_eq_false hbackslash]
      rw [ih, List.length_cons, List.reverse_cons, List.append_assoc, List.singleton_append]
      congr 2
      omega
  | @escape c cs _ ih =>
      rw [List.cons_append, List.cons_append, scan_cons, scan_cons]
      show ((scan (.string start (c :: '\\' :: reversed) false) _ _).prepend []).prepend [] = _
      rw [prepend_nil, prepend_nil, ih]
      simp only [List.length_cons, List.reverse_cons, List.append_assoc, List.cons_append,
        List.nil_append]
      congr 2
      omega

theorem scan_string {body : List Char} (h : IsStringBody body) (position : Nat)
    (rest : List Char) :
    scan .gap position ('"' :: (body ++ '"' :: rest)) =
      (scan .gap (position + (body.length + 2)) rest).prepend
        [⟨.string, String.ofList ('"' :: (body ++ ['"']))⟩] := by
  rw [scan_cons]
  show (scan (.string position ['"'] false) (position + 1) _).prepend [] = _
  rw [prepend_nil, scan_stringBody h]
  simp only [tokenOf, List.reverse_cons, List.reverse_append, List.reverse_reverse,
    List.reverse_nil, List.nil_append, List.cons_append]
  congr 2
  omega

theorem lexes_stringSource (s : String) :
    Lexes (stringSource s) [⟨.string, String.ofList (stringSource s)⟩] := by
  intro position rest _
  have hscan := scan_string (isStringBody_stringChars s.toList) position rest
  simpa only [stringSource, List.cons_append, List.append_assoc, List.nil_append, List.length_cons,
    List.length_append, List.length_nil] using hscan

end Quasiquote
