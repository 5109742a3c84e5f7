import Quasiquote.Proofs.Reader.Beginning
import Quasiquote.Reader.Cursor

namespace Quasiquote

open Reader

namespace Reader

theorem shift_quote {token : Token} (h : token.kind = .quote ∨ token.kind = .unquote) (last : Bool)
    (stack : List Pending) : shift last ⟨.quote, token.text⟩ stack = shift last token stack := by
  obtain ⟨kind, text⟩ := token
  rcases h with rfl | rfl <;> rfl

theorem shift_of_not_mark {token : Token} (h : ¬(token.kind = .quote ∨ token.kind = .unquote))
    (last : Bool) (stack : List Pending) : shift last token stack = shift false token stack := by
  obtain ⟨kind, text⟩ := token
  cases kind with
  | quote => exact (h (.inl rfl)).elim
  | unquote => exact (h (.inr rfl)).elim
  | _ => rfl

section

variable {mark : String}

theorem next_mark {head : Symbol} (h : headOf? mark = some head) (stack : List Pending)
    (rest : List Token) :
    next none stack (⟨.quote, mark⟩ :: rest) = next none (.mark mark head :: stack) rest := by
  have hrole (last : Bool) : role last ⟨.quote, mark⟩ = .ok (.mark head) := by
    simp only [role, h]
    rfl
  rw [next, shift_mark (hrole _)]

theorem next_unknown_mark (h : headOf? mark = none) (stack : List Pending) (token : Token)
    (rest : List Token) : next none stack (⟨.quote, mark⟩ :: token :: rest) =
      (throw (.unknownMark mark), token :: rest) := by
  have hrole : role false ⟨.quote, mark⟩ = .error (.unknownMark mark) := by
    simp only [role, h]
    rfl
  rw [next, List.isEmpty_cons, Bool.false_and, shift_error hrole]

theorem next_last_mark (mark : String) (stack : List Pending) :
    next none stack [⟨.quote, mark⟩] =
      (throw (.malformed (.missingForm (Text.quoted mark))), []) := by
  cases h : headOf? mark with
  | some head => exact next_mark h stack []
  | none =>
      have hrole : role true ⟨.quote, mark⟩ =
          .error (.malformed (.missingForm (Text.quoted mark))) := by
        simp only [role, h]
        rfl
      rw [next, List.isEmpty_nil, Option.isNone_none, Bool.true_and, shift_error hrole]

end

end Reader

namespace Reading

/-- What reading without a buffer gives and leaves from the same point on. It takes a mark together
with what the mark stands before, so that a mark that is followed is still ahead of it. -/
def unbuffered : Reading → Except Failure Value × List Token
  | ⟨stack, .take, c⟩ | ⟨stack, .look, c⟩ => next none stack c.left
  | ⟨stack, .follow mark, c⟩ => next none stack (⟨.quote, mark⟩ :: c.left)

/-- The same behind a step. -/
def unbufferedAfter : Reading ⊕ (Except Failure Value × Cursor) → Except Failure Value × List Token
  | .inl r => r.unbuffered
  | .inr (result, c) => (result, c.left)

theorem unbufferedAfter_proceed {token : Token}
    (h : ¬(token.kind = .quote ∨ token.kind = .unquote)) (stack : List Pending) (c : Cursor) :
    unbufferedAfter (proceed c (shift false token stack)) = next none stack (token :: c.left) := by
  rw [next, shift_of_not_mark h (_ && _)]
  rcases shift false token stack with failure | stack | v <;> rfl

theorem unbufferedAfter_step (r : Reading) : unbufferedAfter r.step = r.unbuffered := by
  obtain ⟨stack, move, c⟩ := r
  rw [step, fst_call]
  cases hleft : c.left with
  | nil =>
      cases move with
      | take =>
          simp only [react, call, unbufferedAfter, unbuffered, Cursor.left_advance, hleft,
            List.head?_nil]
          rfl
      | look =>
          simp only [react, call, unbufferedAfter, unbuffered, Cursor.left_peek, hleft,
            List.head?_nil]
          rfl
      | follow mark =>
          simp only [react, call, unbufferedAfter, unbuffered, Cursor.left_peek, hleft,
            List.head?_nil, next_last_mark]
  | cons token rest =>
      cases move with
      | take =>
          simp only [react, call, unbuffered, hleft, List.head?_cons]
          split
          case isTrue hmark =>
            rw [unbufferedAfter, unbuffered, Cursor.left_advance, hleft, List.tail_cons, next, next,
              shift_quote hmark]
          case isFalse hmark =>
            rw [unbufferedAfter_proceed hmark, Cursor.left_advance, hleft, List.tail_cons]
      | look =>
          simp only [react, call, unbufferedAfter, unbuffered, Cursor.left_peek, hleft,
            List.head?_cons]
      | follow mark =>
          simp only [react, call, unbuffered, hleft, List.head?_cons]
          split
          case h_1 head hhead =>
            rw [unbufferedAfter, unbuffered, Cursor.left_peek, hleft, next_mark hhead]
          case h_2 hhead =>
            rw [unbufferedAfter, Cursor.left_peek, hleft, next_unknown_mark hhead]

theorem unbufferedAfter_run (r : Reading) : unbufferedAfter (.inr r.run) = r.unbuffered := by
  fun_induction run r with
  | case1 r r' hstep ih => rw [ih, ← unbufferedAfter_step r, hstep, unbufferedAfter]
  | case2 r outcome hstep => rw [← unbufferedAfter_step r, hstep]

/-- The reading after so many steps at most, or what it has ended with. -/
def after : Nat → Reading → Reading ⊕ (Except Failure Value × Cursor)
  | 0, r => .inl r
  | n + 1, r =>
      match r.step with
      | .inl r' => after n r'
      | .inr outcome => .inr outcome

def cursorOf : Reading ⊕ (Except Failure Value × Cursor) → Cursor :=
  Sum.elim Reading.cursor Prod.snd

theorem run_of_inl {r r' : Reading} (h : r.step = .inl r') : r.run = r'.run := by
  rw [run]
  split
  case h_1 s hstep =>
    cases hstep.symm.trans h
    rfl
  case h_2 outcome hstep => cases hstep.symm.trans h

theorem run_of_inr {r : Reading} {outcome : Except Failure Value × Cursor}
    (h : r.step = .inr outcome) : r.run = outcome := by
  rw [run]
  split
  case h_1 s hstep => cases hstep.symm.trans h
  case h_2 outcome' hstep =>
    cases hstep.symm.trans h
    rfl

theorem exists_after_eq_run (r : Reading) : ∃ n, after n r = .inr r.run := by
  fun_induction run r with
  | case1 r r' hstep ih =>
      obtain ⟨n, hn⟩ := ih
      refine ⟨n + 1, ?_⟩
      rw [after, hstep]
      exact hn
  | case2 r outcome hstep =>
      refine ⟨1, ?_⟩
      rw [after, hstep]

theorem cursorOf_proceed (c : Cursor) (result : Except Failure (List Pending ⊕ Value)) :
    cursorOf (proceed c result) = c := by
  rcases result with failure | stack | v <;> rfl

theorem cursorOf_react (stack : List Pending) (c : Cursor) (move : Move) (answer : Option Token) :
    cursorOf (react stack c move answer) = c := by
  unfold react
  split
  case h_3 =>
    split
    · rfl
    · exact cursorOf_proceed c _
  case h_6 => split <;> rfl
  all_goals rfl

theorem cursorOf_step (r : Reading) :
    cursorOf r.step = r.cursor.peek.2 ∨ cursorOf r.step = r.cursor.advance.2 := by
  rw [step, cursorOf_react]
  obtain ⟨stack, _ | _ | mark, c⟩ := r
  · exact .inr rfl
  · exact .inl rfl
  · exact .inl rfl

section

variable {P : Cursor → Prop} (hpeek : ∀ c, P c → P c.peek.2) (hadvance : ∀ c, P c → P c.advance.2)

include hpeek hadvance

/-- What looking and taking keep is kept at every moment of a reading. -/
theorem holds_after {r : Reading} (h : P r.cursor) (n : Nat) : P (cursorOf (after n r)) := by
  induction n generalizing r with
  | zero => exact h
  | succ n ih =>
      have hnext : P (cursorOf r.step) := by
        rcases r.cursorOf_step with hstep | hstep <;> rw [hstep]
        · exact hpeek _ h
        · exact hadvance _ h
      rw [after]
      split
      case h_1 r' hstep =>
        rw [hstep] at hnext
        exact ih hnext
      case h_2 outcome hstep =>
        rw [hstep] at hnext
        exact hnext

theorem holds_run {r : Reading} (h : P r.cursor) : P r.run.2 := by
  obtain ⟨n, hn⟩ := r.exists_after_eq_run
  have hend := holds_after hpeek hadvance h n
  rw [hn] at hend
  exact hend

end

end Reading

namespace Cursor

theorem suffix_peek {c : Cursor} {ts : List Token} (h : c.left <:+ ts) : c.peek.2.left <:+ ts := by
  rwa [left_peek]

theorem suffix_advance {c : Cursor} {ts : List Token} (h : c.left <:+ ts) :
    c.advance.2.left <:+ ts := by
  rw [left_advance]
  exact (List.tail_suffix _).trans h

end Cursor

namespace Reading

theorem left_run_suffix (r : Reading) (n : Nat) :
    r.run.2.left <:+ (cursorOf (after n r)).left := by
  induction n generalizing r with
  | zero =>
      exact holds_run (P := (·.left <:+ r.cursor.left)) (fun _ => Cursor.suffix_peek)
        (fun _ => Cursor.suffix_advance) (List.suffix_refl _)
  | succ n ih =>
      rw [after]
      split
      case h_1 r' hstep =>
        rw [run_of_inl hstep]
        exact ih r'
      case h_2 outcome hstep =>
        rw [run_of_inr hstep]
        exact List.suffix_refl _

end Reading

namespace Cursor

/-- Whether a cursor stands in a row of tokens: at most one token has been looked at and not taken,
and what is left is an end of the row. -/
structure StandsIn (c : Cursor) (ts : List Token) : Prop where
  length_buffer_le : c.buffer.length ≤ 1
  left_suffix : c.left <:+ ts

theorem standsIn_ofTokens (ts : List Token) : (ofTokens ts).StandsIn ts :=
  ⟨Nat.zero_le 1, List.suffix_refl ts⟩

theorem StandsIn.peek {c : Cursor} {ts : List Token} (h : c.StandsIn ts) :
    c.peek.2.StandsIn ts where
  length_buffer_le := by
    obtain ⟨_ | _, _ | _⟩ := c
    · exact Nat.zero_le 1
    · exact Nat.le_refl 1
    · exact h.length_buffer_le
    · exact h.length_buffer_le
  left_suffix := suffix_peek h.left_suffix

theorem StandsIn.advance {c : Cursor} {ts : List Token} (h : c.StandsIn ts) :
    c.advance.2.StandsIn ts where
  length_buffer_le := by
    obtain ⟨_ | _, _ | _⟩ := c
    · exact Nat.zero_le 1
    · exact Nat.zero_le 1
    · exact Nat.le_of_succ_le h.length_buffer_le
    · exact Nat.le_of_succ_le h.length_buffer_le
  left_suffix := suffix_advance h.left_suffix

/-- What a host asks of a cursor. -/
inductive Call where
  | peek
  | advance
  | read

/-- The cursor behind a call, whether the call fails or not. -/
def behind (c : Cursor) : Call → Cursor
  | .peek => c.peek.2
  | .advance => c.advance.2
  | .read => c.read.2

/-- The cursor behind so many steps of reading a form, or where the reading has left it. -/
def during (c : Cursor) (n : Nat) : Cursor := Reading.cursorOf ((Reading.start c).after n)

theorem StandsIn.during {c : Cursor} {ts : List Token} (h : c.StandsIn ts) (n : Nat) :
    (c.during n).StandsIn ts :=
  Reading.holds_after (P := (·.StandsIn ts)) (fun _ => StandsIn.peek) (fun _ => StandsIn.advance) h n

theorem StandsIn.behind {c : Cursor} {ts : List Token} (h : c.StandsIn ts) (call : Call) :
    (c.behind call).StandsIn ts := by
  cases call with
  | peek => exact h.peek
  | advance => exact h.advance
  | read =>
      exact Reading.holds_run (P := (·.StandsIn ts)) (fun _ => StandsIn.peek)
        (fun _ => StandsIn.advance) (r := Reading.start c) h

theorem StandsIn.calls {c : Cursor} {ts : List Token} (h : c.StandsIn ts) (calls : List Call) :
    (calls.foldl Cursor.behind c).StandsIn ts := by
  induction calls generalizing c with
  | nil => exact h
  | cons call calls ih => exact ih (h.behind call)

/-- Reading with a buffer gives and leaves what reading without one does. -/
theorem next_left (c : Cursor) : next none [] c.left = (c.read.1, c.read.2.left) :=
  (Reading.unbufferedAfter_run (Reading.start c)).symm

/-- The tokens that are left, without a buffer. -/
def lexemes (c : Cursor) : Lexemes := ⟨c.left, none⟩

theorem peek_lexemes (c : Cursor) : c.lexemes.peek = c.peek.1 := c.fst_peek.symm

theorem advance_lexemes (c : Cursor) :
    c.lexemes.advance = (c.advance.1, c.advance.2.lexemes) := by
  rw [Lexemes.advance, c.fst_advance, lexemes, lexemes, c.left_advance]

theorem nextOf_lexemes (c : Cursor) : nextOf c.lexemes = (c.read.1, c.read.2.lexemes) := by
  rw [nextOf, lexemes, c.next_left]
  rfl

theorem read_eq_ok_iff {c : Cursor} {v : Value} {rest : List Token} :
    c.read.1 = .ok v ∧ c.read.2.left = rest ↔ ∃ taken, IsForm taken v ∧ c.left = taken ++ rest := by
  rw [← next_eq_ok_iff, c.next_left, Prod.mk.injEq]

theorem read_fails_iff {c : Cursor} {rest : List Token} :
    (∃ failure, c.read.1 = .error failure) ∧ c.read.2.left = rest ↔
      ∃ taken, Stops taken rest ∧ c.left = taken ++ rest := by
  rw [← next_fails_iff, c.next_left]
  simp only [Prod.mk.injEq, exists_and_right]

/-- Whatever has been asked of a cursor over tokens, at most one token waits in the buffer, and the
tokens that are left are an end of them. Looking gives the first one and keeps it, taking gives it and
drops it, and every call gives what it gives without a buffer. Reading gives a form exactly if the
tokens that are left begin with those of one, and drops these. It fails exactly if a form stops in
them, and drops them up to the token at which it stops. At every moment until it ends, tokens have
only been dropped. -/
theorem calls_act_on_suffix (ts : List Token) (calls : List Call) :
    let c := calls.foldl behind (ofTokens ts)
    c.StandsIn ts ∧
    (c.peek.1 = c.left.head? ∧ c.peek.2.left = c.left) ∧
    (c.advance.1 = c.left.head? ∧ c.advance.2.left = c.left.tail) ∧
    (c.lexemes.peek = c.peek.1 ∧ c.lexemes.advance = (c.advance.1, c.advance.2.lexemes) ∧
      nextOf c.lexemes = (c.read.1, c.read.2.lexemes)) ∧
    (∀ v rest, c.read.1 = .ok v ∧ c.read.2.left = rest ↔
      ∃ taken, taken ≠ [] ∧ IsForm taken v ∧ c.left = taken ++ rest) ∧
    (∀ rest, (∃ failure, c.read.1 = .error failure) ∧ c.read.2.left = rest ↔
      ∃ taken, Stops taken rest ∧ c.left = taken ++ rest) ∧
    (∃ n, c.during n = c.read.2) ∧
    ∀ n, (c.during n).StandsIn ts ∧ (c.during n).left <:+ c.left ∧
      c.read.2.left <:+ (c.during n).left := by
  intro c
  have hc : c.StandsIn ts := (standsIn_ofTokens ts).calls calls
  refine ⟨hc, ⟨c.fst_peek, c.left_peek⟩, ⟨c.fst_advance, c.left_advance⟩,
    ⟨c.peek_lexemes, c.advance_lexemes, c.nextOf_lexemes⟩, fun v rest => ?_,
    fun rest => read_fails_iff, ?_, fun n => ⟨hc.during n, ?_, (Reading.start c).left_run_suffix n⟩⟩
  · rw [read_eq_ok_iff]
    exact exists_congr fun taken => (and_iff_right_of_imp fun h => h.1.ne_nil).symm
  · obtain ⟨n, hn⟩ := (Reading.start c).exists_after_eq_run
    exact ⟨n, congrArg Reading.cursorOf hn⟩
  · exact Reading.holds_after (P := (·.left <:+ c.left)) (fun _ => suffix_peek)
      (fun _ => suffix_advance) (r := Reading.start c) (List.suffix_refl _) n

/-- No form follows the mark in `(~) b`, so that `b` is left. The bracket has been looked at before. -/
example :
    let c := ofTokens [⟨.opening, "("⟩, ⟨.unquote, "~"⟩, ⟨.closing, ")"⟩, ⟨.symbol, "b"⟩]
    c.during 4 = ⟨[⟨.closing, ")"⟩], [⟨.symbol, "b"⟩]⟩ ∧
      (c.behind .read).left = [⟨.symbol, "b"⟩] := by
  decide +kernel

end Cursor

end Quasiquote
