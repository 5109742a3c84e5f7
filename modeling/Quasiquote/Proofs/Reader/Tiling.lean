import Quasiquote.Proofs.Reader.Recognition

/-!
How a text is cut into tokens. A tiling gives each token the gap before it. A text that the lexer
accepts has exactly one tiling, and its tokens are those of the tiling. In any other text the tokens
before a string that is never closed are tiled, and nothing but such a string stops the lexer.
-/

namespace Quasiquote

/-- Whether a text can stand behind a comment without continuing it. -/
def EndsLine (rest : List Char) : Prop := ∀ c, rest.head? = some c → c = '\n'

/-- Text without tokens, before the rest of a text: blank characters, commas, and comments, each of
which goes on to just before a newline or the end of the text. -/
inductive IsGapBefore (rest : List Char) : List Char → Prop
  | nil : IsGapBefore rest []
  | gap {c : Char} {cs : List Char} (hc : isGap c = true) (h : IsGapBefore rest cs) :
      IsGapBefore rest (c :: cs)
  | comment {body cs : List Char} (hbody : '\n' ∉ body) (hend : EndsLine (cs ++ rest))
      (h : IsGapBefore rest cs) : IsGapBefore rest (';' :: (body ++ cs))

/-- Whether the rest of a text does not continue a token that stands before it. -/
structure Token.EndsBefore (token : Token) (rest : List Char) : Prop where
  word : token.kind = .symbol → Breaks rest
  mark : token = ⟨.unquote, "~"⟩ → rest.head? ≠ some '@'

/-- Whether no quote closes the string that opens before a text. -/
def IsUnclosed (rest : List Char) : Prop :=
  ¬∃ body more, IsStringBody body ∧ rest = body ++ '"' :: more

/-- Whether a text begins with a part of a gap or with a token. -/
inductive Continues : List Char → Prop
  | gap {c : Char} (rest : List Char) (hc : isGap c = true) : Continues (c :: rest)
  | comment (rest : List Char) : Continues (';' :: rest)
  | token {token : Token} {rest : List Char} (hshaped : token.IsShaped)
      (hends : token.EndsBefore rest) : Continues (token.text.toList ++ rest)

/-- Where the lexer stops: at the end of a text, or at a string that is never closed. -/
inductive Stops : List Char → Prop
  | finished : Stops []
  | unclosed {rest : List Char} (h : IsUnclosed rest) : Stops ('"' :: rest)

/-- Tokens, each with the gap before it, and a last gap. -/
inductive Tiling where
  | last (gap : List Char)
  | token (gap : List Char) (token : Token) (more : Tiling)

namespace Tiling

def text : Tiling → List Char
  | last gap => gap
  | token gap t more => gap ++ (t.text.toList ++ more.text)

def tokens : Tiling → List Token
  | last _ => []
  | token _ t more => t :: more.tokens

/-- Whether the gaps are gaps and the tokens have the shapes of their kinds, where the text goes on
with `after`. -/
def Fits (after : List Char) : Tiling → Prop
  | last gap => IsGapBefore after gap
  | token gap t more =>
      IsGapBefore (t.text.toList ++ (more.text ++ after)) gap ∧ t.IsShaped ∧
        t.EndsBefore (more.text ++ after) ∧ more.Fits after

/-- Put a text in front of the first gap. -/
def widen (cs : List Char) : Tiling → Tiling
  | last gap => last (cs ++ gap)
  | token gap t more => token (cs ++ gap) t more

theorem text_widen (cs : List Char) (tiling : Tiling) :
    (tiling.widen cs).text = cs ++ tiling.text := by
  cases tiling with
  | last gap => rfl
  | token gap t more => exact List.append_assoc cs gap _

theorem fits_widen {cs after : List Char} {tiling : Tiling} (h : tiling.Fits after)
    (hcs : ∀ gap rest, gap ++ rest = tiling.text ++ after → IsGapBefore rest gap →
      IsGapBefore rest (cs ++ gap)) : (tiling.widen cs).Fits after := by
  cases tiling with
  | last gap => exact hcs gap after rfl h
  | token gap t more =>
      obtain ⟨hgap, hrest⟩ := h
      exact ⟨hcs gap _ (by simp only [text, List.append_assoc]) hgap, hrest⟩

end Tiling

open Lexemes LexerState

theorem scan_comment {body rest : List Char} (hbody : '\n' ∉ body) (hrest : EndsLine rest)
    (position : Nat) :
    scan .comment position (body ++ rest) = scan .gap (position + body.length) rest := by
  induction body generalizing position with
  | nil =>
      cases rest with
      | nil => rfl
      | cons c rest =>
          obtain rfl := hrest c rfl
          rfl
  | cons c body ih =>
      obtain ⟨hc, hbody⟩ := not_or.mp (mt List.mem_cons.mpr hbody)
      rw [List.cons_append, scan_cons]
      simp only [step, if_neg (Ne.symm hc), prepend_nil]
      rw [ih hbody, List.length_cons]
      congr 1
      omega

theorem scan_gap {gap rest : List Char} (h : IsGapBefore rest gap) (position : Nat) :
    scan .gap position (gap ++ rest) = scan .gap (position + gap.length) rest := by
  induction h generalizing position with
  | nil => rfl
  | @gap c cs hc _ ih =>
      rw [List.cons_append, scan_cons]
      simp only [step, enter, if_pos hc, prepend_nil]
      rw [ih, List.length_cons]
      congr 1
      omega
  | @comment body cs hbody hend _ ih =>
      rw [List.cons_append, List.append_assoc, scan_cons]
      show (scan .comment _ _).prepend [] = _
      rw [prepend_nil, scan_comment hbody hend, ih, List.length_cons, List.length_append]
      congr 1
      omega

theorem scan_token {token : Token} (hshaped : token.IsShaped) {rest : List Char}
    (hends : token.EndsBefore rest) (position : Nat) :
    scan .gap position (token.text.toList ++ rest) =
      (scan .gap (position + token.text.toList.length) rest).prepend [token] := by
  obtain ⟨kind, text⟩ := token
  cases kind with
  | symbol =>
      have hword := (hshaped.isWord rfl).lexes position rest (hends.word rfl)
      rwa [String.ofList_toList] at hword
  | string =>
      obtain ⟨body, hbody, htext⟩ := hshaped
      obtain rfl := String.toList_inj.mp (htext.trans (String.toList_ofList).symm)
      have hscan := scan_string hbody position rest
      simpa only [String.toList_ofList, List.cons_append, List.append_assoc, List.nil_append,
        List.length_cons, List.length_append, List.length_nil] using hscan
  | unquote =>
      rcases hshaped with rfl | rfl
      · exact scan_unquote (hends.mark rfl) position
      · rfl
  | quote => rcases hshaped with rfl | rfl <;> rfl
  | opening => rcases hshaped with rfl | rfl <;> rfl
  | closing => rcases hshaped with rfl | rfl <;> rfl
  | other label => exact hshaped.elim

theorem IsUnclosed.plain {c : Char} {rest : List Char} (h : IsUnclosed (c :: rest))
    (hbackslash : c ≠ '\\') : c ≠ '"' ∧ IsUnclosed rest := by
  have hquote : c ≠ '"' := by
    rintro rfl
    exact h ⟨[], rest, .nil, rfl⟩
  refine ⟨hquote, ?_⟩
  rintro ⟨body, more, hbody, rfl⟩
  exact h ⟨_, more, .plain hbackslash hquote hbody, rfl⟩

theorem IsUnclosed.escape {c : Char} {rest : List Char} (h : IsUnclosed ('\\' :: c :: rest)) :
    IsUnclosed rest := by
  rintro ⟨body, more, hbody, rfl⟩
  exact h ⟨_, more, .escape c hbody, rfl⟩

theorem scan_unclosed {rest : List Char} (h : IsUnclosed rest) (start position : Nat)
    (reversed : List Char) :
    scan (.string start reversed false) position rest = ⟨[], some start⟩ := by
  induction hlength : rest.length using Nat.strongRecOn generalizing rest position reversed with
  | ind n ih =>
      subst hlength
      rcases rest with _ | ⟨c, rest⟩
      · rfl
      by_cases hbackslash : c = '\\'
      · subst hbackslash
        rcases rest with _ | ⟨d, rest⟩
        · rfl
        show ((scan (.string start (d :: '\\' :: reversed) false) _ rest).prepend []).prepend [] = _
        rw [prepend_nil, prepend_nil]
        exact ih _ (by simp only [List.length_cons]; omega) h.escape _ _ rfl
      · obtain ⟨hquote, hrest⟩ := h.plain hbackslash
        rw [scan_cons]
        simp only [step, if_neg hquote, Bool.false_eq_true, ↓reduceIte, prepend_nil,
          decide_eq_false hbackslash]
        exact ih _ (by simp only [List.length_cons]; omega) hrest _ _ rfl

/-- Where a string opens that the lexer stops at. -/
def unclosedAt (position : Nat) (after : List Char) : Option Nat :=
  if after = [] then none else some position

theorem scan_stops {after : List Char} (h : Stops after) (position : Nat) :
    scan .gap position after = ⟨[], unclosedAt position after⟩ := by
  cases h with
  | finished => rfl
  | @unclosed rest h =>
      show (scan (.string position ['"'] false) (position + 1) rest).prepend [] = _
      rw [scan_unclosed h]
      rfl

theorem Tiling.scan {tiling : Tiling} {after : List Char} (h : tiling.Fits after)
    (position : Nat) :
    Lexemes.scan .gap position (tiling.text ++ after) =
      (Lexemes.scan .gap (position + tiling.text.length) after).prepend tiling.tokens := by
  induction tiling generalizing position with
  | last gap => exact scan_gap h position
  | token gap t more ih =>
      obtain ⟨hgap, hshaped, hends, hmore⟩ := h
      rw [text, List.append_assoc, List.append_assoc, scan_gap hgap, scan_token hshaped hends,
        ih hmore, prepend_prepend, List.length_append, List.length_append, ← Nat.add_assoc,
        ← Nat.add_assoc]
      rfl

theorem Tiling.ofText {tiling : Tiling} {after : List Char} (h : tiling.Fits after)
    (hafter : Stops after) :
    Lexemes.ofText (tiling.text ++ after) =
      ⟨tiling.tokens, unclosedAt tiling.text.length after⟩ := by
  rw [Lexemes.ofText, tiling.scan h, scan_stops hafter, Nat.zero_add, prepend, List.append_nil]

/-- Whether a text begins with no part of a gap. -/
def IsGapless (rest : List Char) : Prop := ∀ c, rest.head? = some c → isGap c = false ∧ c ≠ ';'

theorem Token.IsShaped.exists_cons {token : Token} (h : token.IsShaped) :
    ∃ c cs, token.text.toList = c :: cs ∧ isGap c = false ∧ c ≠ ';' := by
  rcases h.cases with ⟨text, rfl⟩ | ⟨text, rfl⟩ | ⟨mark, rfl⟩ | ⟨bracket, rfl⟩ | ⟨bracket, rfl⟩
  · have hword := h.isWord rfl
    obtain ⟨c, cs, hcs⟩ := List.exists_cons_of_ne_nil hword.ne_nil
    have hc := hword.isSymbolChar c (by simp [hcs])
    refine ⟨c, cs, hcs, (not_isGap_of_isSymbolChar hc).1, ?_⟩
    rintro rfl
    revert hc
    decide
  · obtain ⟨body, -, htext⟩ := h
    exact ⟨_, _, htext, by decide, by decide⟩
  · cases mark <;> exact ⟨_, _, rfl, by decide, by decide⟩
  · cases bracket <;> exact ⟨_, _, rfl, by decide, by decide⟩
  · cases bracket <;> exact ⟨_, _, rfl, by decide, by decide⟩

theorem Token.IsShaped.isGapless {token : Token} (h : token.IsShaped) (rest : List Char) :
    IsGapless (token.text.toList ++ rest) := by
  obtain ⟨c, cs, htext, hc⟩ := h.exists_cons
  rw [htext]
  rintro d ⟨⟩
  exact hc

theorem Stops.isGapless {after : List Char} (h : Stops after) : IsGapless after := by
  cases h with
  | finished => exact fun _ h => nomatch h
  | unclosed h =>
      rintro c ⟨⟩
      decide

theorem Token.endsBefore_of_ne {token : Token} (hword : token.kind ≠ .symbol)
    (hmark : token ≠ ⟨.unquote, "~"⟩) (rest : List Char) : token.EndsBefore rest :=
  ⟨fun h => (hword h).elim, fun h => (hmark h).elim⟩

theorem Continues.word {c : Char} (hc : isSymbolChar c = true) (rest : List Char) :
    Continues (c :: rest) := by
  have hshaped : (⟨.symbol, String.ofList (c :: rest.takeWhile isSymbolChar)⟩ : Token).IsShaped := by
    show IsWord (String.toList _)
    rw [String.toList_ofList]
    exact ⟨by simp, List.forall_mem_cons.mpr ⟨hc, fun d hd => List.mem_takeWhile_imp hd⟩⟩
  have hbreaks : Breaks (rest.dropWhile isSymbolChar) := by
    intro d hd
    have hhead := List.head?_dropWhile_not isSymbolChar rest
    rw [hd] at hhead
    simpa using hhead
  have htoken := Continues.token hshaped ⟨fun _ => hbreaks, nofun⟩
  rwa [String.toList_ofList, List.cons_append, List.takeWhile_append_dropWhile] at htoken

theorem Continues.escape (rest : List Char) : Continues ('~' :: rest) := by
  by_cases hhead : rest.head? = some '@'
  · obtain ⟨rest, rfl⟩ := List.head?_eq_some_iff.mp hhead
    exact @Continues.token ⟨.unquote, "~@"⟩ rest (.inr rfl)
      (Token.endsBefore_of_ne (by decide) (by decide) rest)
  · exact @Continues.token ⟨.unquote, "~"⟩ rest (.inl rfl) ⟨nofun, fun _ => hhead⟩

theorem Continues.string {body : List Char} (h : IsStringBody body) (rest : List Char) :
    Continues ('"' :: (body ++ '"' :: rest)) := by
  have htoken := @Continues.token ⟨.string, String.ofList ('"' :: body ++ ['"'])⟩ rest
    ⟨body, h, String.toList_ofList⟩ (Token.endsBefore_of_ne (by simp) (by simp) rest)
  simpa using htoken

/-- The lexer can go on at every character but a quote whose string is never closed. -/
theorem continues_or_unclosed (c : Char) (rest : List Char) :
    Continues (c :: rest) ∨ c = '"' ∧ IsUnclosed rest := by
  by_cases hgap : isGap c = true
  · exact .inl (.gap rest hgap)
  by_cases hdelimiter : delimiters.contains c = true
  · have hsingle (kind : TokenKind) (hshaped : (⟨kind, String.ofList [c]⟩ : Token).IsShaped)
        (hword : kind ≠ .symbol) (hmark : kind ≠ .unquote) : Continues (c :: rest) := by
      have htoken := Continues.token hshaped
        (Token.endsBefore_of_ne hword (fun h => hmark (congrArg Token.kind h)) rest)
      rwa [String.toList_ofList] at htoken
    simp only [delimiters, List.contains_eq_mem, List.mem_cons, List.not_mem_nil, or_false,
      decide_eq_true_eq] at hdelimiter
    rcases hdelimiter with rfl | rfl | rfl | rfl | rfl | rfl | rfl | rfl | rfl
    · exact .inl (hsingle .opening (.inl rfl) (by decide) (by decide))
    · exact .inl (hsingle .closing (.inl rfl) (by decide) (by decide))
    · exact .inl (hsingle .opening (.inr rfl) (by decide) (by decide))
    · exact .inl (hsingle .closing (.inr rfl) (by decide) (by decide))
    · exact .inl (hsingle .quote (.inl rfl) (by decide) (by decide))
    · exact .inl (hsingle .quote (.inr rfl) (by decide) (by decide))
    · exact .inl (.escape rest)
    · by_cases hunclosed : IsUnclosed rest
      · exact .inr ⟨rfl, hunclosed⟩
      · obtain ⟨body, more, hbody, rfl⟩ := not_not.mp hunclosed
        exact .inl (.string hbody more)
    · exact .inl (.comment rest)
  · refine .inl (.word ?_ rest)
    rw [isSymbolChar, eq_false_of_ne_true hgap, eq_false_of_ne_true hdelimiter]
    rfl

theorem IsUnclosed.not_continues {rest : List Char} (h : IsUnclosed rest) :
    ¬Continues ('"' :: rest) := by
  intro hcontinues
  generalize htext : '"' :: rest = text at hcontinues
  cases hcontinues with
  | gap more hc =>
      obtain ⟨rfl, -⟩ := List.cons.inj htext
      exact absurd hc (by decide)
  | comment more => exact absurd (List.cons.inj htext).1 (by decide)
  | @token token more hshaped hends =>
      rcases hshaped.cases with ⟨text, rfl⟩ | ⟨text, rfl⟩ | ⟨mark, rfl⟩ | ⟨bracket, rfl⟩ | ⟨bracket, rfl⟩
      · have hword := hshaped.isWord rfl
        obtain ⟨c, cs, hcs⟩ := List.exists_cons_of_ne_nil hword.ne_nil
        have hc := hword.isSymbolChar c (by simp [hcs])
        rw [hcs] at htext
        obtain ⟨rfl, -⟩ := List.cons.inj htext
        exact absurd hc (by decide)
      · obtain ⟨body, hbody, hbodyText⟩ := hshaped
        rw [hbodyText] at htext
        refine h ⟨body, more, hbody, ?_⟩
        simpa using htext
      · cases mark <;> exact absurd (List.cons.inj htext).1 (by decide)
      · cases bracket <;> exact absurd (List.cons.inj htext).1 (by decide)
      · cases bracket <;> exact absurd (List.cons.inj htext).1 (by decide)

/-- Every text has a tiling up to where the lexer stops. -/
theorem exists_tiling (text : List Char) :
    ∃ (tiling : Tiling) (after : List Char),
      text = tiling.text ++ after ∧ tiling.Fits after ∧ Stops after := by
  induction hlength : text.length using Nat.strongRecOn generalizing text with
  | ind n ih =>
      subst hlength
      rcases text with _ | ⟨c, rest⟩
      · exact ⟨.last [], [], rfl, .nil, .finished⟩
      rcases continues_or_unclosed c rest with hcontinues | ⟨rfl, hunclosed⟩
      · generalize c :: rest = text at hcontinues ih
        cases hcontinues with
        | @gap c rest hc =>
            obtain ⟨tiling, after, rfl, hfits, hstops⟩ := ih _ (by simp) rest rfl
            refine ⟨tiling.widen [c], after, ?_, Tiling.fits_widen hfits ?_, hstops⟩
            · rw [Tiling.text_widen]
              rfl
            · exact fun gap rest _ hgap => .gap hc hgap
        | comment rest =>
            have hsplit := List.takeWhile_append_dropWhile (p := (· ≠ '\n')) (l := rest)
            have hend : EndsLine (rest.dropWhile (· ≠ '\n')) := by
              intro c hc
              have hhead := List.head?_dropWhile_not (· ≠ '\n') rest
              rw [hc] at hhead
              simpa using hhead
            have hbody : '\n' ∉ rest.takeWhile (· ≠ '\n') := fun h => by
              simpa using List.mem_takeWhile_imp h
            generalize rest.takeWhile (· ≠ '\n') = body at hsplit hbody
            generalize rest.dropWhile (· ≠ '\n') = line at hsplit hend
            subst hsplit
            obtain ⟨tiling, after, rfl, hfits, hstops⟩ := ih _ (by simp) line rfl
            refine ⟨tiling.widen (';' :: body), after, ?_, Tiling.fits_widen hfits ?_, hstops⟩
            · rw [Tiling.text_widen, List.append_assoc]
              rfl
            · exact fun gap rest heq hgap => .comment hbody (heq ▸ hend) hgap
        | @token token rest hshaped hends =>
            obtain ⟨c, cs, htext, -⟩ := hshaped.exists_cons
            obtain ⟨tiling, after, rfl, hfits, hstops⟩ := ih _ (by simp [htext]) rest rfl
            exact ⟨.token [] token tiling, after, by simp [Tiling.text], ⟨.nil, hshaped, hends, hfits⟩,
              hstops⟩
      · exact ⟨.last [], _, rfl, .nil, .unclosed hunclosed⟩

theorem eq_of_append_endsLine {body body' rest rest' : List Char} (hbody : '\n' ∉ body)
    (hbody' : '\n' ∉ body') (hrest : EndsLine rest) (hrest' : EndsLine rest')
    (h : body ++ rest = body' ++ rest') : body = body' ∧ rest = rest' := by
  induction body generalizing body' with
  | nil =>
      cases body' with
      | nil => exact ⟨rfl, h⟩
      | cons c body' =>
          obtain rfl := hrest c (by rw [← List.nil_append rest, h]; rfl)
          exact (hbody' (by simp)).elim
  | cons c body ih =>
      cases body' with
      | nil =>
          obtain rfl := hrest' c (by rw [← List.nil_append rest', ← h]; rfl)
          exact (hbody (by simp)).elim
      | cons d body' =>
          obtain ⟨rfl, htail⟩ := List.cons.inj h
          obtain ⟨rfl, hrests⟩ := ih (fun hmem => hbody (by simp [hmem]))
            (fun hmem => hbody' (by simp [hmem])) htail
          exact ⟨rfl, hrests⟩

theorem IsGapBefore.unique {gap gap' rest rest' : List Char} (h : IsGapBefore rest gap)
    (h' : IsGapBefore rest' gap') (hrest : IsGapless rest) (hrest' : IsGapless rest')
    (heq : gap ++ rest = gap' ++ rest') : gap = gap' ∧ rest = rest' := by
  have hsemicolon : isGap ';' = false := by decide
  induction h generalizing gap' with
  | nil =>
      rw [List.nil_append] at heq
      subst heq
      cases h' with
      | nil => exact ⟨rfl, rfl⟩
      | @gap c cs hc _ => exact absurd hc (by simp [(hrest c rfl).1])
      | comment _ _ _ => exact absurd rfl (hrest ';' rfl).2
  | @gap c cs hc _ ih =>
      cases h' with
      | nil =>
          rw [List.nil_append] at heq
          subst heq
          exact absurd hc (by simp [(hrest' c rfl).1])
      | gap _ hcs' =>
          obtain ⟨rfl, htail⟩ := List.cons.inj heq
          obtain ⟨rfl, hrests⟩ := ih hcs' htail
          exact ⟨rfl, hrests⟩
      | comment _ _ _ =>
          obtain ⟨rfl, -⟩ := List.cons.inj heq
          exact absurd hc (by simp [hsemicolon])
  | @comment body cs hbody hend _ ih =>
      cases h' with
      | nil =>
          rw [List.nil_append] at heq
          subst heq
          exact absurd rfl (hrest' _ rfl).2
      | gap hc _ =>
          obtain ⟨rfl, -⟩ := List.cons.inj heq
          exact absurd hc (by simp [hsemicolon])
      | @comment body' cs' hbody' hend' hcs' =>
          rw [List.cons_append, List.cons_append, List.append_assoc, List.append_assoc] at heq
          obtain ⟨rfl, htail⟩ := eq_of_append_endsLine hbody hbody' hend hend' (List.cons.inj heq).2
          obtain ⟨rfl, hrests⟩ := ih hcs' htail
          exact ⟨rfl, hrests⟩

namespace Tiling

theorem eq_of_tokens_eq {tiling tiling' : Tiling} {after after' : List Char}
    (h : tiling.Fits after) (h' : tiling'.Fits after') (hafter : Stops after)
    (hafter' : Stops after') (htext : tiling.text ++ after = tiling'.text ++ after')
    (htokens : tiling.tokens = tiling'.tokens) : tiling = tiling' ∧ after = after' := by
  induction tiling generalizing tiling' with
  | last gap =>
      cases tiling' with
      | last gap' =>
          obtain ⟨rfl, rfl⟩ := h.unique h' hafter.isGapless hafter'.isGapless htext
          exact ⟨rfl, rfl⟩
      | token gap' t more => exact nomatch htokens
  | token gap t more ih =>
      cases tiling' with
      | last gap' => exact nomatch htokens
      | token gap' t' more' =>
          obtain ⟨hgap, hshaped, -, hmore⟩ := h
          obtain ⟨hgap', hshaped', -, hmore'⟩ := h'
          obtain ⟨rfl, hmoreTokens⟩ := List.cons.inj htokens
          simp only [text, List.append_assoc] at htext
          obtain ⟨rfl, hrest⟩ := hgap.unique hgap' (hshaped.isGapless _) (hshaped'.isGapless _) htext
          obtain ⟨rfl, rfl⟩ := ih hmore hmore' (List.append_cancel_left hrest) hmoreTokens
          exact ⟨rfl, rfl⟩

theorem unique {tiling tiling' : Tiling} {after after' : List Char} (h : tiling.Fits after)
    (h' : tiling'.Fits after') (hafter : Stops after) (hafter' : Stops after')
    (htext : tiling.text ++ after = tiling'.text ++ after') :
    tiling = tiling' ∧ after = after' := by
  have hlexemes := ofText h hafter
  rw [htext, ofText h' hafter'] at hlexemes
  exact eq_of_tokens_eq h h' hafter hafter' htext (congrArg Lexemes.tokens hlexemes).symm

end Tiling

/-- Whether a tiling ends before a quote that opens a string which is never closed. -/
structure Tiling.OpensUnclosed (text : List Char) (tiling : Tiling) (rest : List Char) : Prop where
  text_eq : text = tiling.text ++ '"' :: rest
  fits : tiling.Fits ('"' :: rest)
  unclosed : IsUnclosed rest

theorem Tiling.OpensUnclosed.unique {text rest rest' : List Char} {tiling tiling' : Tiling}
    (h : OpensUnclosed text tiling rest) (h' : OpensUnclosed text tiling' rest') :
    tiling = tiling' ∧ rest = rest' := by
  obtain ⟨rfl, hrest⟩ := Tiling.unique h.fits h'.fits (.unclosed h.unclosed) (.unclosed h'.unclosed)
    (by rw [← h.text_eq, ← h'.text_eq])
  exact ⟨rfl, (List.cons.inj hrest).2⟩

theorem Tiling.OpensUnclosed.ofText {text rest : List Char} {tiling : Tiling}
    (h : OpensUnclosed text tiling rest) :
    Lexemes.ofText text = ⟨tiling.tokens, some tiling.text.length⟩ := by
  rw [h.text_eq]
  exact Tiling.ofText h.fits (.unclosed h.unclosed)

namespace Reader

theorem tokens_eq_error {text : List Char} {ts : List Token} {position : Nat}
    (h : Lexemes.ofText text = ⟨ts, some position⟩) :
    tokens text = .error (.malformed (.unterminatedString position)) := by
  rw [tokens, h]
  rfl

theorem tokens_eq_ok_iff_tiling {text : List Char} {ts : List Token} :
    tokens text = .ok ts ↔
      ∃ tiling : Tiling, tiling.Fits [] ∧ tiling.text = text ∧ tiling.tokens = ts := by
  rw [tokens_eq_ok_iff]
  constructor
  · intro hts
    obtain ⟨tiling, after, rfl, hfits, hstops⟩ := exists_tiling text
    rw [Tiling.ofText hfits hstops] at hts
    obtain ⟨rfl, hclosed⟩ := Lexemes.mk.inj hts
    cases hstops with
    | finished => exact ⟨tiling, hfits, (List.append_nil _).symm, rfl⟩
    | unclosed => exact nomatch hclosed
  · rintro ⟨tiling, hfits, rfl, rfl⟩
    have hlexemes := Tiling.ofText hfits .finished
    rwa [List.append_nil] at hlexemes

/-- The lexer gives the tokens of a text exactly if the text has a tiling with these tokens, and it
has at most one. In any other text one quote opens a string that is never closed behind a tiling;
the lexer gives the tokens before it and then fails. It can go on at every other character, and the
string tokens that it gives have no backslash without a character to escape. -/
theorem tokens_iff_tiling (text : List Char) :
    (∀ ts, tokens text = .ok ts ↔
      ∃ tiling : Tiling, tiling.Fits [] ∧ tiling.text = text ∧ tiling.tokens = ts) ∧
    (∀ tiling tiling' : Tiling, tiling.Fits [] → tiling'.Fits [] → tiling.text = text →
      tiling'.text = text → tiling = tiling') ∧
    ((¬∃ tiling : Tiling, tiling.Fits [] ∧ tiling.text = text) →
      ∃ tiling rest, tiling.OpensUnclosed text rest ∧
        (∀ tiling' rest', Tiling.OpensUnclosed text tiling' rest' →
          tiling' = tiling ∧ rest' = rest) ∧
        Lexemes.ofText text = ⟨tiling.tokens, some tiling.text.length⟩ ∧
        tokens text = .error (.malformed (.unterminatedString tiling.text.length))) ∧
    (∀ c rest, ¬Continues (c :: rest) ↔ c = '"' ∧ IsUnclosed rest) ∧
    ∀ token ∈ (Lexemes.ofText text).tokens, token.kind = .string →
      Atom.ofString token.text ≠ .error .danglingEscape := by
  refine ⟨fun ts => tokens_eq_ok_iff_tiling, ?_, fun hnone => ?_, fun c rest => ?_, ?_⟩
  · intro tiling tiling' hfits hfits' htext htext'
    exact (Tiling.unique hfits hfits' .finished .finished (by rw [htext, htext'])).1
  · obtain ⟨tiling, after, htext, hfits, hstops⟩ := exists_tiling text
    cases hstops with
    | finished => exact (hnone ⟨tiling, hfits, by rw [htext, List.append_nil]⟩).elim
    | @unclosed rest hunclosed =>
        have hopens : Tiling.OpensUnclosed text tiling rest := ⟨htext, hfits, hunclosed⟩
        exact ⟨tiling, rest, hopens, fun tiling' rest' h => h.unique hopens, hopens.ofText,
          tokens_eq_error hopens.ofText⟩
  · constructor
    · exact (continues_or_unclosed c rest).resolve_left
    · rintro ⟨rfl, hunclosed⟩
      exact hunclosed.not_continues
  · intro token htoken hkind hdangling
    obtain ⟨kind, word⟩ := token
    obtain rfl : kind = .string := hkind
    rcases Token.string_cases (Lexemes.isShaped_of_mem htoken) with ⟨-, v, hv⟩ | ⟨-, fault, hfault⟩
    · cases hdangling.symm.trans hv
    · cases hdangling.symm.trans hfault

theorem tokens_iff_tiling_unclosed :
    ∃ tiling rest, Tiling.OpensUnclosed "a \"b".toList tiling rest ∧
      Lexemes.ofText "a \"b".toList = ⟨tiling.tokens, some tiling.text.length⟩ ∧
      ∀ tiling' rest', Tiling.OpensUnclosed "a \"b".toList tiling' rest' →
        tiling' = tiling ∧ rest' = rest := by
  obtain ⟨hok, -, herror, -⟩ := tokens_iff_tiling "a \"b".toList
  have hfails : tokens "a \"b".toList = .error (.malformed (.unterminatedString 2)) := rfl
  have hnone : ¬∃ tiling : Tiling, tiling.Fits [] ∧ tiling.text = "a \"b".toList := by
    rintro ⟨tiling, hfits, htext⟩
    exact nomatch hfails.symm.trans ((hok _).mpr ⟨tiling, hfits, htext, rfl⟩)
  obtain ⟨tiling, rest, hopens, hunique, hlexemes, -⟩ := herror hnone
  exact ⟨tiling, rest, hopens, hlexemes, hunique⟩

end Reader

end Quasiquote
