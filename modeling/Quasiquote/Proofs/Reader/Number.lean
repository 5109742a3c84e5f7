import Quasiquote.Number.Basic
import Quasiquote.Proofs.Number.Shortest
import Quasiquote.Proofs.Reader.Lexing
import Quasiquote.Reader.Atom

namespace Quasiquote.Atom

open Binary64

/-- A row of ASCII digits. -/
abbrev IsDigits (cs : List Char) : Prop := ∀ c ∈ cs, c.isDigit = true

theorem isDigits_toDigits (n : ℕ) : IsDigits (Nat.toDigits 10 n) :=
  fun _ => Text.isDigit_of_mem_toDigits

theorem IsDigits.append {cs ds : List Char} (hcs : IsDigits cs) (hds : IsDigits ds) :
    IsDigits (cs ++ ds) := fun c hc => (List.mem_append.mp hc).elim (hcs c) (hds c)

theorem IsDigits.zeros_append {cs : List Char} (h : IsDigits cs) (k : ℕ) :
    IsDigits (List.replicate k '0' ++ cs) :=
  IsDigits.append (fun _ => Text.isDigit_of_mem_zeros) h

theorem IsDigits.all_isDecimal {cs : List Char} (h : IsDigits cs) :
    ∀ c ∈ cs, Text.isDecimal c = true := fun c hc => Text.isDecimal_of_isDigit (h c hc)

/-- Whether a text can stand behind a row of digits without continuing it. -/
def EndsDigits (rest : List Char) : Prop := ∀ c, rest.head? = some c → Text.isDecimal c = false

theorem takeWhile_digits {cs rest : List Char} (h : IsDigits cs) (hrest : EndsDigits rest) :
    (cs ++ rest).takeWhile Text.isDecimal = cs := by
  rw [List.takeWhile_append_of_pos h.all_isDecimal]
  cases rest with
  | nil => simp
  | cons c rest => simp [hrest c rfl]

theorem dropWhile_digits {cs rest : List Char} (h : IsDigits cs) (hrest : EndsDigits rest) :
    (cs ++ rest).dropWhile Text.isDecimal = rest := by
  rw [List.dropWhile_append_of_pos h.all_isDecimal]
  cases rest with
  | nil => rfl
  | cons c rest => simp [hrest c rfl]

/-- A minus sign, if there is one. -/
def signText (negative : Bool) : List Char := if negative then ['-'] else []

theorem splitSign_signText (negative : Bool) {cs rest : List Char} (h : IsDigits cs)
    (hne : cs ≠ []) : splitSign (signText negative ++ (cs ++ rest)) = (negative, cs ++ rest) := by
  cases negative with
  | true => rfl
  | false =>
      obtain ⟨c, cs, rfl⟩ := List.exists_cons_of_ne_nil hne
      have hc := h c (by simp)
      simp only [signText, Bool.false_eq_true, ↓reduceIte, List.nil_append, List.cons_append]
      unfold splitSign
      split
      case h_1 heq => cases heq; cases hc
      case h_2 heq => cases heq; cases hc
      case h_3 => rfl

theorem integer?_of_splitSign {negative : Bool} {text cs : List Char}
    (hsplit : splitSign text = (negative, cs)) (h : IsDigits cs) (hne : cs ≠ []) :
    integer? text = some (negative, cs) := by
  have hall : cs.all Text.isDecimal = true := List.all_eq_true.mpr h.all_isDecimal
  have hnonempty : cs.isEmpty = false := List.isEmpty_eq_false_iff.mpr hne
  simp only [integer?, hsplit, hall, hnonempty, Bool.not_false, Bool.and_self, ↓reduceIte]

/-- A float as it is written without its sign: its digits before the point, those behind it if
there is a point, and its exponent with the zeros in front of it if there is one. -/
structure FloatLiteral where
  whole : List Char
  fraction : Option (List Char)
  exponent : Option (ℤ × ℕ)
  isDigits_whole : IsDigits whole
  whole_ne_nil : whole ≠ []
  isDigits_fraction : ∀ cs, fraction = some cs → IsDigits cs
  isFloat : fraction ≠ none ∨ exponent ≠ none

namespace FloatLiteral

def exponentText : Option (ℤ × ℕ) → List Char
  | none => []
  | some (n, zeros) =>
      'e' :: (if n < 0 then '-' else '+') :: (List.replicate zeros '0' ++ Nat.toDigits 10 n.natAbs)

def fractionText : Option (List Char) → List Char
  | none => []
  | some cs => '.' :: cs

def chars (literal : FloatLiteral) : List Char :=
  literal.whole ++ (fractionText literal.fraction ++ exponentText literal.exponent)

def value (literal : FloatLiteral) (negative : Bool) : Float :=
  ofDecimal negative (Text.decimalValue (literal.whole ++ literal.fraction.getD []))
    ((literal.exponent.map Prod.fst).getD 0 - (literal.fraction.getD []).length)

theorem exponent?_exponentText (exponent : Option (ℤ × ℕ)) :
    exponent? (exponentText exponent) = some ((exponent.map Prod.fst).getD 0) := by
  rcases exponent with _ | ⟨n, zeros⟩
  · rfl
  have hdigits := (isDigits_toDigits n.natAbs).zeros_append zeros
  have hne : List.replicate zeros '0' ++ Nat.toDigits 10 n.natAbs ≠ [] := by
    simp [Nat.toDigits_ne_nil]
  have hvalue :
      Text.decimalValue (List.replicate zeros '0' ++ Nat.toDigits 10 n.natAbs) = n.natAbs := by
    rw [Text.decimalValue_zeros_append zeros (isDigits_toDigits _), Text.decimalValue_toDigits]
  have hsign (cs : List Char) :
      splitSign ((if n < 0 then '-' else '+') :: cs) = (decide (n < 0), cs) := by
    by_cases hn : n < 0 <;> simp [hn, splitSign]
  have hread := integer?_of_splitSign (hsign _) hdigits hne
  simp only [exponentText, exponent?, hread, true_or, ↓reduceIte, Option.map_some, signed, hvalue,
    decide_eq_true_eq, Option.getD_some, Option.some.injEq]
  split <;> omega

theorem endsDigits_exponentText (exponent : Option (ℤ × ℕ)) :
    EndsDigits (exponentText exponent) := by
  rcases exponent with _ | ⟨n, zeros⟩
  · rintro c ⟨⟩
  · rintro c ⟨⟩
    decide

theorem endsDigits_rest (fraction : Option (List Char)) (exponent : Option (ℤ × ℕ)) :
    EndsDigits (fractionText fraction ++ exponentText exponent) := by
  cases fraction with
  | none => exact endsDigits_exponentText exponent
  | some cs =>
      rintro c ⟨⟩
      decide

theorem splitFraction_rest {fraction : Option (List Char)} (exponent : Option (ℤ × ℕ))
    (h : ∀ cs, fraction = some cs → IsDigits cs) :
    splitFraction (fractionText fraction ++ exponentText exponent) =
      (fraction.getD [], exponentText exponent) := by
  cases fraction with
  | none => rcases exponent with _ | ⟨n, zeros⟩ <;> rfl
  | some cs =>
      have hends := endsDigits_exponentText exponent
      simp only [fractionText, List.cons_append, splitFraction, takeWhile_digits (h cs rfl) hends,
        dropWhile_digits (h cs rfl) hends, Option.getD_some]

theorem float?_chars (literal : FloatLiteral) (negative : Bool) :
    float? (signText negative ++ literal.chars) = some (literal.value negative) := by
  have hwhole := literal.isDigits_whole
  have hrest := endsDigits_rest literal.fraction literal.exponent
  have hnonempty : (literal.whole ++ literal.fraction.getD []).isEmpty = false := by
    simp [literal.whole_ne_nil]
  simp only [float?, chars, splitSign_signText negative hwhole literal.whole_ne_nil,
    takeWhile_digits hwhole hrest, dropWhile_digits hwhole hrest,
    splitFraction_rest literal.exponent literal.isDigits_fraction, exponent?_exponentText,
    Option.bind_eq_bind, Option.bind_some, hnonempty, Bool.false_eq_true, ↓reduceIte]
  rfl

theorem mem_chars {literal : FloatLiteral} {c : Char} (h : c ∈ literal.chars) :
    c.isDigit = true ∨ c ∈ ['.', 'e', '-', '+'] := by
  simp only [chars, List.mem_append] at h
  rcases h with h | h | h
  · exact Or.inl (literal.isDigits_whole c h)
  · cases hfraction : literal.fraction with
    | none => simp [hfraction, fractionText] at h
    | some cs =>
        rw [hfraction, fractionText, List.mem_cons] at h
        rcases h with rfl | h
        · exact Or.inr (by decide)
        · exact Or.inl (literal.isDigits_fraction cs hfraction c h)
  · cases hexponent : literal.exponent with
    | none => simp [hexponent, exponentText] at h
    | some exponent =>
        rw [hexponent, exponentText, List.mem_cons, List.mem_cons] at h
        rcases h with rfl | rfl | h
        · exact Or.inr (by decide)
        · exact Or.inr (by split <;> decide)
        · exact Or.inl ((isDigits_toDigits _).zeros_append _ c h)

theorem exists_not_isDecimal (literal : FloatLiteral) :
    ∃ c ∈ literal.chars, Text.isDecimal c = false := by
  rcases literal.isFloat with h | h
  · obtain ⟨cs, hcs⟩ := Option.ne_none_iff_exists'.mp h
    exact ⟨'.', by simp [chars, hcs, fractionText], by decide⟩
  · obtain ⟨⟨n, zeros⟩, hexponent⟩ := Option.ne_none_iff_exists'.mp h
    exact ⟨'e', by simp [chars, hexponent, exponentText], by decide⟩

def pointed {whole fraction : List Char} (hwhole : IsDigits whole) (hne : whole ≠ [])
    (hfraction : IsDigits fraction) : FloatLiteral where
  whole := whole
  fraction := some fraction
  exponent := none
  isDigits_whole := hwhole
  whole_ne_nil := hne
  isDigits_fraction := fun _ h => Option.some.inj h ▸ hfraction
  isFloat := Or.inl (Option.some_ne_none _)

/-- A digit, perhaps with others behind a point, and an exponent. -/
def scaled {whole : List Char} {fraction : Option (List Char)} (hwhole : IsDigits whole)
    (hne : whole ≠ []) (hfraction : ∀ cs, fraction = some cs → IsDigits cs) (exponent : ℤ)
    (zeros : ℕ) : FloatLiteral where
  whole := whole
  fraction := fraction
  exponent := some (exponent, zeros)
  isDigits_whole := hwhole
  whole_ne_nil := hne
  isDigits_fraction := hfraction
  isFloat := Or.inr (Option.some_ne_none _)

theorem chars_pointed {whole fraction : List Char} (hwhole : IsDigits whole) (hne : whole ≠ [])
    (hfraction : IsDigits fraction) :
    (pointed hwhole hne hfraction).chars = whole ++ '.' :: fraction := by
  simp [chars, pointed, fractionText, exponentText]

theorem value_pointed {whole fraction : List Char} (hwhole : IsDigits whole) (hne : whole ≠ [])
    (hfraction : IsDigits fraction) (negative : Bool) :
    (pointed hwhole hne hfraction).value negative =
      ofDecimal negative (Text.decimalValue (whole ++ fraction)) (-fraction.length) := by
  simp [value, pointed]

/-- However a decimal is laid out, what is written is a literal that stands for it. -/
theorem exists_decimalText (l : Layout) {digits : List Char} (h : IsDigits digits)
    (hne : digits ≠ []) (point : ℤ) :
    ∃ literal : FloatLiteral, Decimal.text l ⟨digits, point⟩ = literal.chars ∧
      ∀ negative, literal.value negative =
        ofDecimal negative (Text.decimalValue digits) (point - digits.length) := by
  have hzero : IsDigits ['0'] := fun c hc => List.mem_singleton.mp hc ▸ rfl
  by_cases hplain : l.least ≤ point - 1 ∧ point - 1 < l.most
  · simp only [Decimal.text, if_pos hplain]
    split_ifs with hsmall hlarge
    · have hfraction := h.zeros_append (-point).toNat
      refine ⟨pointed hzero (List.cons_ne_nil _ _) hfraction, ?_, fun negative => ?_⟩
      · rw [chars_pointed]
        rfl
      · have hvalue := Text.decimalValue_zeros_append ((-point).toNat + 1) h
        rw [List.replicate_succ, List.cons_append] at hvalue
        rw [value_pointed, List.singleton_append, hvalue, List.length_append, List.length_replicate]
        congr 1
        omega
    · have hwhole := h.append fun c => Text.isDigit_of_mem_zeros (n := point.toNat - digits.length)
      refine ⟨pointed hwhole (List.append_ne_nil_of_left_ne_nil hne _) hzero, ?_, fun negative => ?_⟩
      · rw [chars_pointed]
      · have hvalue := Text.decimalValue_append_zeros (point.toNat - digits.length + 1) h
        rw [List.replicate_succ', ← List.append_assoc] at hvalue
        rw [value_pointed, hvalue, ofDecimal_mul_pow, List.length_singleton]
        congr 1
        omega
    · have hwhole : IsDigits (digits.take point.toNat) := fun c hc => h c (List.mem_of_mem_take hc)
      have hfraction : IsDigits (digits.drop point.toNat) := fun c hc =>
        h c (List.mem_of_mem_drop hc)
      have htake : digits.take point.toNat ≠ [] := by
        rw [ne_eq, List.take_eq_nil_iff, not_or]
        exact ⟨by omega, hne⟩
      refine ⟨pointed hwhole htake hfraction, ?_, fun negative => ?_⟩
      · rw [chars_pointed]
      · rw [value_pointed, List.take_append_drop, List.length_drop]
        congr 1
        omega
  · simp only [Decimal.text, if_neg hplain]
    obtain ⟨c, rest, rfl⟩ := List.exists_cons_of_ne_nil hne
    have hwhole : IsDigits [c] := fun d hd => List.mem_singleton.mp hd ▸ h c (by simp)
    have hrest : IsDigits rest := fun d hd => h d (by simp [hd])
    generalize l.width - (Nat.toDigits 10 (point - 1).natAbs).length = zeros
    cases rest with
    | nil =>
        refine ⟨@scaled _ none hwhole (List.cons_ne_nil _ _) (fun _ h => nomatch h)
          (point - 1) zeros, ?_, fun negative => ?_⟩
        · simp [chars, scaled, fractionText, exponentText]
        · simp [value, scaled]
    | cons d rest =>
        refine ⟨@scaled _ (some (d :: rest)) hwhole (List.cons_ne_nil _ _)
          (fun _ h => Option.some.inj h ▸ hrest) (point - 1) zeros, ?_, fun negative => ?_⟩
        · simp [chars, scaled, fractionText, exponentText]
        · simp only [value, scaled, Option.map_some, Option.getD_some, List.singleton_append]
          congr 1
          simp only [List.length_cons]
          omega

end FloatLiteral

theorem exists_text {x : Float} {negative : Bool} {m : ℕ} {e : ℤ}
    (h : parts x = .finite negative m e) :
    ∃ literal : FloatLiteral, (Binary64.text x).toList = signText negative ++ literal.chars ∧
      literal.value negative = x := by
  obtain ⟨hlegal, hx⟩ := finite_parts h
  have htext (magnitudeText : List Char) :
      (String.ofList (if negative then '-' :: magnitudeText else magnitudeText)).toList =
        signText negative ++ magnitudeText := by
    rw [String.toList_ofList]
    cases negative <;> rfl
  simp only [Binary64.text, h, htext, List.append_cancel_left_eq]
  split_ifs with hm
  · have hzero : IsDigits ['0'] := fun c hc => List.mem_singleton.mp hc ▸ rfl
    refine ⟨FloatLiteral.pointed hzero (List.cons_ne_nil _ _) hzero, ?_, ?_⟩
    · rw [FloatLiteral.chars_pointed]
      rfl
    · have hleast : e = leastExponent := hlegal.normal.resolve_left (by omega)
      have hvalue : Text.decimalValue (['0'] ++ ['0']) = 0 := rfl
      rw [FloatLiteral.value_pointed, hvalue, ofDecimal_eq, hx, hm, hleast]
      simp [rounded, magnitude]
  · obtain ⟨d, scale, hd, hrounded, hshortest⟩ := exists_shortestFrom hlegal hm
    have hdigits : IsDigits (significantDigits d) := fun c => isDigit_of_mem_significantDigits
    obtain ⟨literal, hchars, hvalue⟩ := FloatLiteral.exists_decimalText layout hdigits
      (significantDigits_ne_nil hd) (scale + (Nat.toDigits 10 d).length)
    refine ⟨literal, ?_, ?_⟩
    · rw [hshortest, hchars]
    · rw [hvalue, ofDecimal_significantDigits, ofDecimal_eq, hrounded, ← hx]

theorem integer?_literal (literal : FloatLiteral) (negative : Bool) :
    integer? (signText negative ++ literal.chars) = none := by
  obtain ⟨c, hc, hdecimal⟩ := literal.exists_not_isDecimal
  have hsplit : splitSign (signText negative ++ literal.chars) = (negative, literal.chars) :=
    splitSign_signText negative literal.isDigits_whole literal.whole_ne_nil
  have hall : literal.chars.all Text.isDecimal = false :=
    List.all_eq_false.mpr ⟨c, hc, by simp [hdecimal]⟩
  simp only [integer?, hsplit, hall, Bool.and_false, Bool.false_eq_true, ↓reduceIte]

theorem ofWord_literal (literal : FloatLiteral) (negative : Bool) :
    ofWord (String.ofList (signText negative ++ literal.chars)) =
      .ok (.num (.float (literal.value negative))) := by
  have hfloat := literal.float?_chars negative
  have hword (word : String) (hnone : float? word.toList = none) :
      String.ofList (signText negative ++ literal.chars) ≠ word := by
    rintro rfl
    rw [String.toList_ofList, hfloat] at hnone
    cases hnone
  rw [ofWord, if_neg (hword "nil" rfl), if_neg (hword "true" rfl), if_neg (hword "false" rfl),
    String.toList_ofList, integer?_literal, hfloat]
  rfl

theorem isSymbolChar_of_isDigit {c : Char} (h : c.isDigit = true) : isSymbolChar c = true := by
  obtain ⟨hlow, hhigh⟩ : 48 ≤ c.toNat ∧ c.toNat ≤ 57 := by
    simpa [Char.isDigit, UInt32.le_iff_toNat_le] using h
  have hdigits : ∀ d < 10, isSymbolChar (Char.ofNat (48 + d)) = true := by decide
  have hc := hdigits (c.toNat - 48) (by omega)
  rwa [Nat.add_sub_cancel' hlow, Char.ofNat_toNat] at hc

/-- The characters that numbers are written with. -/
def IsNumeralChar (c : Char) : Prop := c.isDigit = true ∨ c ∈ ['.', 'e', '-', '+']

theorem IsNumeralChar.isSymbolChar {c : Char} (h : IsNumeralChar c) : isSymbolChar c = true := by
  rcases h with h | h
  · exact isSymbolChar_of_isDigit h
  · have hmarks : ['.', 'e', '-', '+'].all Quasiquote.isSymbolChar = true := rfl
    exact List.all_eq_true.mp hmarks c h

theorem isNumeralChar_of_mem_signText {negative : Bool} {c : Char} (h : c ∈ signText negative) :
    IsNumeralChar c := by
  cases negative with
  | true =>
      cases List.mem_singleton.mp h
      exact Or.inr (by decide)
  | false => exact nomatch h

theorem toList_intText (n : ℤ) :
    (Number.intText n).toList = signText (decide (n < 0)) ++ Nat.toDigits 10 n.natAbs := by
  rw [Number.intText, String.toList_ofList]
  by_cases hn : n < 0 <;> simp [hn, signText]

theorem isNumeralChar_of_mem_intText {n : ℤ} {c : Char} (h : c ∈ (Number.intText n).toList) :
    IsNumeralChar c := by
  rw [toList_intText] at h
  rcases List.mem_append.mp h with h | h
  · exact isNumeralChar_of_mem_signText h
  · exact Or.inl (Text.isDigit_of_mem_toDigits h)

theorem isWord_intText (n : ℤ) : IsWord (Number.intText n).toList where
  ne_nil := by
    rw [toList_intText]
    exact List.append_ne_nil_of_right_ne_nil _ Nat.toDigits_ne_nil
  isSymbolChar := fun _ hc => (isNumeralChar_of_mem_intText hc).isSymbolChar

theorem integer?_intText (n : ℤ) :
    integer? (Number.intText n).toList = some (decide (n < 0), Nat.toDigits 10 n.natAbs) := by
  have hdigits := isDigits_toDigits n.natAbs
  have hsplit := @splitSign_signText (decide (n < 0)) _ [] hdigits Nat.toDigits_ne_nil
  rw [List.append_nil, ← toList_intText] at hsplit
  exact integer?_of_splitSign hsplit hdigits Nat.toDigits_ne_nil

theorem signed_toDigits (n : ℤ) : signed (decide (n < 0)) (Nat.toDigits 10 n.natAbs) = n := by
  simp only [signed, Text.decimalValue_toDigits, decide_eq_true_eq]
  split <;> omega

theorem ofWord_intText {n : ℤ} (h : (Nat.toDigits 10 n.natAbs).length ≤ digitLimit) :
    ofWord (Number.intText n) = .ok (.int n) := by
  have hinteger := integer?_intText n
  have hword (word : String) (hnone : integer? word.toList = none) : Number.intText n ≠ word := by
    rintro rfl
    rw [hinteger] at hnone
    cases hnone
  rw [ofWord, if_neg (hword "nil" rfl), if_neg (hword "true" rfl), if_neg (hword "false" rfl),
    hinteger]
  simp only [if_neg (not_lt.mpr h), signed_toDigits]
  rfl

section

variable {x : Float} {negative : Bool} {m : ℕ} {e : ℤ}

theorem isNumeralChar_of_mem_text (h : parts x = .finite negative m e) {c : Char}
    (hc : c ∈ (Binary64.text x).toList) : IsNumeralChar c := by
  obtain ⟨literal, htext, -⟩ := exists_text h
  rw [htext] at hc
  rcases List.mem_append.mp hc with hc | hc
  · exact isNumeralChar_of_mem_signText hc
  · exact FloatLiteral.mem_chars hc

theorem isWord_text (h : parts x = .finite negative m e) : IsWord (Binary64.text x).toList where
  ne_nil := by
    obtain ⟨literal, htext, -⟩ := exists_text h
    rw [htext, FloatLiteral.chars]
    simp [literal.whole_ne_nil]
  isSymbolChar := fun _ hc => (isNumeralChar_of_mem_text h hc).isSymbolChar

/-- The text of a finite float is read as the float. -/
theorem ofWord_text (h : parts x = .finite negative m e) :
    ofWord (Binary64.text x) = .ok (.num (.float x)) := by
  obtain ⟨literal, htext, hvalue⟩ := exists_text h
  rw [← String.ofList_toList (s := Binary64.text x), htext, ofWord_literal, hvalue]

end

end Quasiquote.Atom
