import Quasiquote.Proofs.Reader.Accepted

namespace Quasiquote

namespace LexerState

/-- The same state with more text before it. -/
def displaced (n : Nat) : LexerState → LexerState
  | string start reversed escaped => string (start + n) reversed escaped
  | state => state

theorem enter_displaced (n position : Nat) (c : Char) :
    enter (position + n) c = ((enter position c).1, (enter position c).2.displaced n) := by
  unfold enter
  split_ifs <;> rfl

theorem step_displaced (n position : Nat) (c : Char) (state : LexerState) :
    (state.displaced n).step (position + n) c =
      ((state.step position c).1, (state.step position c).2.displaced n) := by
  cases state with
  | gap => exact enter_displaced n position c
  | comment =>
      simp only [displaced, step]
      split_ifs <;> rfl
  | tilde =>
      simp only [displaced, step, enter_displaced]
      split_ifs <;> rfl
  | symbol reversed =>
      simp only [displaced, step, enter_displaced]
      split_ifs <;> rfl
  | string start reversed escaped =>
      simp only [displaced, step]
      split_ifs <;> rfl

theorem finish_displaced (n : Nat) (state : LexerState) :
    (state.displaced n).finish = (state.finish.1, state.finish.2.map (· + n)) := by
  cases state <;> rfl

theorem step_newline {state : LexerState} (h : state.finish.2 = none) (position : Nat) :
    state.step position '\n' = (state.finish.1, gap) := by
  cases state with
  | string start reversed escaped => exact nomatch h
  | _ => rfl

end LexerState

namespace Lexemes

/-- The same tokens with more text before them. -/
def displaced (n : Nat) (lexemes : Lexemes) : Lexemes :=
  { lexemes with unclosed := lexemes.unclosed.map (· + n) }

theorem scan_displaced (n : Nat) (state : LexerState) (position : Nat) (cs : List Char) :
    scan (state.displaced n) (position + n) cs = (scan state position cs).displaced n := by
  induction cs generalizing state position with
  | nil =>
      rw [scan, LexerState.finish_displaced]
      rfl
  | cons c cs ih =>
      rw [scan_cons, scan_cons, LexerState.step_displaced, Nat.add_right_comm, ih]
      rfl

theorem scan_append_newline {cs : List Char} {state : LexerState} {position : Nat}
    (h : (scan state position cs).unclosed = none) (ds : List Char) :
    scan state position (cs ++ '\n' :: ds) =
      (scan .gap (position + (cs.length + 1)) ds).prepend (scan state position cs).tokens := by
  induction cs generalizing state position with
  | nil =>
      rw [List.nil_append, scan_cons, LexerState.step_newline h]
      rfl
  | cons c cs ih =>
      have hrest : (scan (state.step position c).2 (position + 1) cs).unclosed = none := h
      rw [List.cons_append, scan_cons, scan_cons, ih hrest, prepend_prepend, List.length_cons]
      congr 2
      omega

theorem ofText_append_newline {a : List Char} (h : (ofText a).unclosed = none) (b : List Char) :
    ofText (a ++ '\n' :: b) = ((ofText b).displaced (a.length + 1)).prepend (ofText a).tokens := by
  rw [ofText, scan_append_newline h]
  exact congrArg (prepend (ofText a).tokens) (scan_displaced (a.length + 1) .gap 0 b)

end Lexemes

namespace Failure

/-- The same failure with more text before it: the position of a string that is never closed is
another one. -/
def displaced (n : Nat) : Failure → Failure
  | malformed (.unterminatedString position) => malformed (.unterminatedString (position + n))
  | failure => failure

theorem kind_displaced (n : Nat) (failure : Failure) : (failure.displaced n).kind = failure.kind := by
  unfold displaced
  split <;> rfl

end Failure

namespace Reader

theorem displaced_of_decode {cs : List Char} {failure : Failure}
    (h : Atom.decode cs = .error failure) (n : Nat) : failure.displaced n = failure := by
  induction cs using Atom.decode.induct with
  | case1 => exact nomatch h
  | case2 =>
      cases h
      rfl
  | case3 c cs d hd ih =>
      rw [Atom.decode, hd] at h
      exact ih (map_eq_error h)
  | case4 c cs hnone =>
      rw [Atom.decode, hnone] at h
      cases h
      rfl
  | case5 c cs _ _ ih =>
      rw [Atom.decode] at h
      · exact ih (map_eq_error h)
      all_goals assumption

theorem displaced_of_ofWord {word : String} {failure : Failure}
    (h : Atom.ofWord word = .error failure) (n : Nat) : failure.displaced n = failure := by
  unfold Atom.ofWord at h
  split_ifs at h
  · cases h
  · cases h
  · cases h
  split at h
  case h_1 =>
    split at h <;> cases h
    rfl
  split at h
  case h_1 => cases h
  split at h <;> cases h
  rfl

theorem displaced_of_role {last : Bool} {token : Token} {failure : Failure}
    (h : role last token = .error failure) (n : Nat) : failure.displaced n = failure := by
  unfold role at h
  split at h
  case h_1 => exact displaced_of_ofWord (map_eq_error h) n
  case h_2 => exact displaced_of_decode (map_eq_error (map_eq_error h)) n
  case h_3 | h_4 =>
    split at h
    · cases h
    · split at h <;> cases h <;> rfl
  case h_5 =>
    split at h <;> cases h
    rfl
  case h_6 => cases h
  case h_7 =>
    cases h
    rfl

theorem displaced_of_shift {last : Bool} {token : Token} {stack : List Pending} {failure : Failure}
    (h : shift last token stack = .error failure) (n : Nat) : failure.displaced n = failure := by
  rcases bind_eq_error.mp h with hrole | ⟨r, -, hr⟩
  · exact displaced_of_role hrole n
  cases r with
  | closer =>
      rcases stack with _ | ⟨⟨opener, closer, reversed⟩ | ⟨mark, s⟩, stack⟩
      · cases hr
        rfl
      · change (if _ then _ else _) = _ at hr
        split at hr <;> cases hr
        rfl
      · cases hr
        rfl
  | _ => exact nomatch hr

theorem endFailure_displaced (n : Nat) (unclosed : Option Nat) (stack : List Pending) :
    endFailure (unclosed.map (· + n)) stack = (endFailure unclosed stack).displaced n := by
  cases unclosed with
  | some position => rfl
  | none => rcases stack with _ | ⟨_ | _, _⟩ <;> rfl

theorem all_displaced (n : Nat) (unclosed : Option Nat) (stack : List Pending) (ts : List Token) :
    all (unclosed.map (· + n)) stack ts =
      ((all unclosed stack ts).1, (all unclosed stack ts).2.map (Failure.displaced n)) := by
  induction ts generalizing stack with
  | nil =>
      have hend := endFailure_displaced n unclosed stack
      cases unclosed with
      | some position => rfl
      | none =>
          cases stack with
          | nil => rfl
          | cons pending stack => exact congrArg (fun failure => ([], some failure)) hend
  | cons token ts ih =>
      have hlast : (ts.isEmpty && (unclosed.map (· + n)).isNone) =
          (ts.isEmpty && unclosed.isNone) := by rw [Option.isNone_map]
      cases hshift : shift (ts.isEmpty && unclosed.isNone) token stack with
      | error failure =>
          have hfailure := displaced_of_shift hshift n
          rw [all, all, hlast, hshift]
          exact congrArg (fun failure => ([], some failure)) hfailure.symm
      | ok state =>
          rw [all_cons_of_shift hshift, all_cons_of_shift (hlast ▸ hshift)]
          cases state with
          | inl stack => exact ih stack
          | inr v => simp only [resume, ih]

theorem shift_of_ok {last : Bool} {token : Token} {stack : List Pending}
    {state : List Pending ⊕ Value} (h : shift last token stack = .ok state) (last' : Bool) :
    shift last' token stack = .ok state := by
  obtain ⟨r, hrole, hr⟩ := bind_eq_ok.mp h
  exact bind_eq_ok.mpr ⟨r, role_of_ok hrole last', hr⟩

/-- Tokens that are read without a failure hand over their forms, whatever tokens follow. -/
theorem all_append {stack : List Pending} {ts : List Token} {forms : List Value}
    (h : all none stack ts = (forms, none)) (unclosed : Option Nat) (us : List Token) :
    all unclosed stack (ts ++ us) =
      (forms ++ (all unclosed [] us).1, (all unclosed [] us).2) := by
  induction ts generalizing stack forms with
  | nil =>
      cases stack with
      | nil =>
          cases h
          rfl
      | cons pending stack => cases h
  | cons token ts ih =>
      cases hshift : shift (ts.isEmpty && Option.isNone (none : Option Nat)) token stack with
      | error failure =>
          rw [all, hshift] at h
          cases h
      | ok state =>
          rw [all_cons_of_shift hshift] at h
          rw [List.cons_append, all_cons_of_shift (shift_of_ok hshift _)]
          cases state with
          | inl stack => exact ih h
          | inr v =>
              obtain ⟨rfl, hnone⟩ := Prod.mk.inj h
              rw [resume, ih (Prod.ext rfl hnone)]
              rfl

theorem unclosed_of_all {unclosed : Option Nat} {stack : List Pending} {ts : List Token}
    {forms : List Value} (h : all unclosed stack ts = (forms, none)) : unclosed = none := by
  induction ts generalizing stack forms with
  | nil =>
      cases unclosed with
      | none => rfl
      | some position => cases h
  | cons token ts ih =>
      cases hshift : shift (ts.isEmpty && unclosed.isNone) token stack with
      | error failure =>
          rw [all, hshift] at h
          cases h
      | ok state =>
          rw [all_cons_of_shift hshift] at h
          cases state with
          | inl stack => exact ih h
          | inr v => exact ih (Prod.ext rfl (Prod.mk.inj h).2)

theorem stream_append_newline {a : List Char} {forms : List Value} (h : readAll a = .ok forms)
    (b : List Char) :
    stream (a ++ '\n' :: b) =
      (forms ++ (stream b).1, (stream b).2.map (Failure.displaced (a.length + 1))) := by
  have hall := readAll_eq_ok_iff.mp h
  have hclosed := unclosed_of_all hall
  rw [hclosed] at hall
  rw [stream, Lexemes.ofText_append_newline hclosed]
  show all ((Lexemes.ofText b).unclosed.map (· + (a.length + 1))) []
    ((Lexemes.ofText a).tokens ++ (Lexemes.ofText b).tokens) = _
  rw [all_append hall, all_displaced]
  rfl

/-- Behind a text that is read and a newline, any text is read as it is by itself: the forms of the
first text come first, then those of the second one, and the failure of the second one, if it has
one, is the same but for the position of a string that is never closed. -/
theorem stream_of_readAll {a : List Char} {forms : List Value} (h : readAll a = .ok forms)
    (b : List Char) :
    (stream (a ++ '\n' :: b)).1 = forms ++ (stream b).1 ∧
    ((stream (a ++ '\n' :: b)).2 = none ↔ (stream b).2 = none) ∧
    (∀ failure, (stream b).2 = some failure →
      (stream (a ++ '\n' :: b)).2 = some (failure.displaced (a.length + 1)) ∧
        (failure.displaced (a.length + 1)).kind = failure.kind) ∧
    ∀ more, readAll b = .ok more → readAll (a ++ '\n' :: b) = .ok (forms ++ more) := by
  have hstream := stream_append_newline h b
  refine ⟨by rw [hstream], by rw [hstream, Option.map_eq_none_iff], fun failure hfailure => ?_,
    fun more hmore => ?_⟩
  · rw [hstream, hfailure]
    exact ⟨rfl, failure.kind_displaced _⟩
  · have hb : stream b = (more, none) := readAll_eq_ok_iff.mp hmore
    refine readAll_eq_ok_iff.mpr (hstream.trans ?_)
    rw [hb]
    rfl

theorem stream_of_readAll_unclosed :
    readAll "1 (a) ; b \"".toList = .ok [.int 1, .list [.bare "a"]] ∧
      (stream ("1 (a) ; b \"".toList ++ '\n' :: "'[:c ~x] \"d".toList)).1 =
        [.int 1, .list [.bare "a"], .list [.sym .quote, .list [.kw "c",
          .list [.sym .unquote, .bare "x"]]]] ∧
      (stream ("1 (a) ; b \"".toList ++ '\n' :: "'[:c ~x] \"d".toList)).2 =
        some (.malformed (.unterminatedString 21)) := by
  have hread : readAll "1 (a) ; b \"".toList = .ok [.int 1, .list [.bare "a"]] := rfl
  have hb : stream "'[:c ~x] \"d".toList = ([.list [.sym .quote, .list [.kw "c",
      .list [.sym .unquote, .bare "x"]]]], some (.malformed (.unterminatedString 9))) := rfl
  obtain ⟨hforms, -, hfailure, -⟩ := stream_of_readAll hread "'[:c ~x] \"d".toList
  refine ⟨hread, ?_, ?_⟩
  · rw [hforms, hb]
    rfl
  · exact (hfailure (.malformed (.unterminatedString 9)) (congrArg Prod.snd hb)).1

end Reader

end Quasiquote
