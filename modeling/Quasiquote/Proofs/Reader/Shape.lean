import Quasiquote.Proofs.Reader.Lexing

namespace Quasiquote

/-- Whether a token has the shape of its kind. -/
def Token.IsShaped (token : Token) : Prop :=
  match token.kind with
  | .quote => token.text = "'" ∨ token.text = "\x60"
  | .unquote => token.text = "~" ∨ token.text = "~@"
  | .opening => token.text = "(" ∨ token.text = "["
  | .closing => token.text = ")" ∨ token.text = "]"
  | .string => ∃ body, IsStringBody body ∧ token.text.toList = '"' :: body ++ ['"']
  | .symbol => IsWord token.text.toList
  | .other _ => False

theorem Token.IsShaped.isWord {token : Token} (h : token.IsShaped) (hkind : token.kind = .symbol) :
    IsWord token.text.toList := by
  unfold Token.IsShaped at h
  rwa [hkind] at h

namespace LexerState

/-- Whether what has been read since the last token can become a token of its kind. -/
def IsShaped : LexerState → Prop
  | .symbol reversed => IsWord reversed
  | .string _ reversed escaped => ∃ body, IsStringBody body ∧
      reversed = (if escaped then ['\\'] else []) ++ body.reverse ++ ['"']
  | _ => True

theorem isShaped_mark {c : Char} {kind : TokenKind} (h : (⟨kind, c.toString⟩ : Token).IsShaped) :
    ∀ token ∈ [tokenOf kind [c]], token.IsShaped :=
  List.forall_mem_singleton.mpr h

theorem isShaped_word {reversed : List Char} (h : IsWord reversed) :
    (tokenOf .symbol reversed).IsShaped := by
  change IsWord (String.ofList reversed.reverse).toList
  rw [String.toList_ofList]
  exact ⟨by simpa using h.ne_nil, fun c hc => h.isSymbolChar c (List.mem_reverse.mp hc)⟩

theorem isShaped_enter (position : Nat) (c : Char) :
    (∀ token ∈ (enter position c).1, token.IsShaped) ∧ (enter position c).2.IsShaped := by
  unfold enter
  split_ifs with hgap hcomment hquote htilde hopening hclosing hstring
  · exact ⟨by simp, trivial⟩
  · exact ⟨by simp, trivial⟩
  · refine ⟨isShaped_mark ?_, trivial⟩
    rcases hquote with rfl | rfl
    · exact .inl rfl
    · exact .inr rfl
  · exact ⟨by simp, trivial⟩
  · refine ⟨isShaped_mark ?_, trivial⟩
    rcases hopening with rfl | rfl
    · exact .inl rfl
    · exact .inr rfl
  · refine ⟨isShaped_mark ?_, trivial⟩
    rcases hclosing with rfl | rfl
    · exact .inl rfl
    · exact .inr rfl
  · exact ⟨by simp, [], .nil, by simp [hstring]⟩
  · have hc : isSymbolChar c = true := by
      simp only [not_or] at hquote hopening hclosing
      simp [isSymbolChar, delimiters, hgap, hcomment, hquote, htilde, hopening, hclosing, hstring]
    exact ⟨by simp, by simp, fun d hd => List.mem_singleton.mp hd ▸ hc⟩

theorem isShaped_string {start position : Nat} {reversed : List Char} {escaped : Bool}
    (h : (string start reversed escaped).IsShaped) (c : Char) :
    (∀ token ∈ ((string start reversed escaped).step position c).1, token.IsShaped) ∧
      ((string start reversed escaped).step position c).2.IsShaped := by
  obtain ⟨body, hbody, rfl⟩ := h
  simp only [step]
  split_ifs with hescaped hquote
  · exact ⟨by simp, body ++ ['\\', c], hbody.append (.escape c .nil), by simp⟩
  · refine ⟨List.forall_mem_singleton.mpr ⟨body, hbody, ?_⟩, trivial⟩
    simp [tokenOf, hquote]
  · refine ⟨by simp, ?_⟩
    by_cases hbackslash : c = '\\'
    · exact ⟨body, hbody, by simp [hbackslash]⟩
    · exact ⟨body ++ [c], hbody.append (.plain hbackslash hquote .nil), by simp [hbackslash]⟩

/-- What one character completes are tokens of their shape, and what it continues can become one. -/
theorem isShaped_step {state : LexerState} (h : state.IsShaped) (position : Nat) (c : Char) :
    (∀ token ∈ (state.step position c).1, token.IsShaped) ∧
      (state.step position c).2.IsShaped := by
  obtain ⟨htokens, hstate⟩ := isShaped_enter position c
  cases state with
  | gap => exact ⟨htokens, hstate⟩
  | comment =>
      simp only [step]
      split_ifs <;> exact ⟨by simp, trivial⟩
  | tilde =>
      simp only [step]
      split_ifs
      · exact ⟨List.forall_mem_singleton.mpr (.inr rfl), trivial⟩
      · exact ⟨List.forall_mem_cons.mpr ⟨.inl rfl, htokens⟩, hstate⟩
  | symbol reversed =>
      simp only [step]
      split_ifs with hc
      · exact ⟨by simp, by simp, List.forall_mem_cons.mpr ⟨hc, h.isSymbolChar⟩⟩
      · exact ⟨List.forall_mem_cons.mpr ⟨isShaped_word h, htokens⟩, hstate⟩
  | string start reversed escaped => exact isShaped_string h c

theorem isShaped_finish {state : LexerState} (h : state.IsShaped) :
    ∀ token ∈ state.finish.1, token.IsShaped := by
  cases state with
  | tilde => exact List.forall_mem_singleton.mpr (.inl rfl)
  | symbol reversed => exact List.forall_mem_singleton.mpr (isShaped_word h)
  | _ => simp [finish]

theorem isShaped_of_mem_scan {state : LexerState} (h : state.IsShaped) (position : Nat)
    (cs : List Char) : ∀ token ∈ (Lexemes.scan state position cs).tokens, token.IsShaped := by
  induction cs generalizing state position with
  | nil => exact isShaped_finish h
  | cons c cs ih =>
      obtain ⟨htokens, hstate⟩ := isShaped_step h position c
      rw [Lexemes.scan_cons]
      intro token htoken
      exact (List.mem_append.mp htoken).elim (htokens token) (ih hstate _ token)

end LexerState

theorem Lexemes.isShaped_of_mem {text : List Char} {token : Token}
    (h : token ∈ (Lexemes.ofText text).tokens) : token.IsShaped :=
  LexerState.isShaped_of_mem_scan (show LexerState.IsShaped .gap from trivial) 0 text token h

end Quasiquote
