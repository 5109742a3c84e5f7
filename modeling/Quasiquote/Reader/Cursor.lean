import Quasiquote.Reader.Form

namespace Quasiquote

/-- The tokens that have been looked at and not taken, and those that have not been asked for. -/
structure Cursor where
  buffer : List Token
  unread : List Token
deriving DecidableEq, Repr

namespace Cursor

/-- A cursor that has not been asked for anything yet. -/
def ofTokens (tokens : List Token) : Cursor := ⟨[], tokens⟩

/-- The tokens that are left, the next one first. -/
def left (c : Cursor) : List Token := c.buffer ++ c.unread

/-- The next token, if one is left. -/
def peek : Cursor → Option Token × Cursor
  | ⟨[], []⟩ => (none, ⟨[], []⟩)
  | ⟨[], token :: unread⟩ => (some token, ⟨[token], unread⟩)
  | ⟨token :: buffer, unread⟩ => (some token, ⟨token :: buffer, unread⟩)

/-- Take the next token, if one is left. -/
def advance : Cursor → Option Token × Cursor
  | ⟨[], []⟩ => (none, ⟨[], []⟩)
  | ⟨[], token :: unread⟩ => (some token, ⟨[], unread⟩)
  | ⟨token :: buffer, unread⟩ => (some token, ⟨buffer, unread⟩)

@[simp] theorem fst_peek (c : Cursor) : c.peek.1 = c.left.head? := by
  obtain ⟨_ | _, _ | _⟩ := c <;> rfl

@[simp] theorem left_peek (c : Cursor) : c.peek.2.left = c.left := by
  obtain ⟨_ | _, _ | _⟩ := c <;> rfl

@[simp] theorem fst_advance (c : Cursor) : c.advance.1 = c.left.head? := by
  obtain ⟨_ | _, _ | _⟩ := c <;> rfl

@[simp] theorem left_advance (c : Cursor) : c.advance.2.left = c.left.tail := by
  obtain ⟨_ | _, _ | _⟩ := c <;> rfl

end Cursor

/-- What the reading of a form does next. -/
inductive Move where
  /-- Take a token. -/
  | take
  /-- Look whether the group that waits has a token left. -/
  | look
  /-- Look whether anything follows a mark, which has been taken. -/
  | follow (mark : String)

/-- The reading of a form: what waits for its contents, and what is done next. Every step looks once or
takes once, and what has been taken stays taken if the reading fails. -/
structure Reading where
  stack : List Pending
  move : Move
  cursor : Cursor

namespace Reading

open Reader

def start (c : Cursor) : Reading := ⟨[], .take, c⟩

/-- Go on after a token: look for the next one if something still waits. -/
def proceed (c : Cursor) :
    Except Failure (List Pending ⊕ Value) → Reading ⊕ (Except Failure Value × Cursor)
  | .error failure => .inr (throw failure, c)
  | .ok (.inr v) => .inr (pure v, c)
  | .ok (.inl stack) => .inl ⟨stack, .look, c⟩

/-- The one call that a step makes. -/
def call : Reading → Option Token × Cursor
  | ⟨_, .take, c⟩ => c.advance
  | ⟨_, .look, c⟩ | ⟨_, .follow _, c⟩ => c.peek

/-- What is made of the answer to the call: the next step, or the end. -/
def react (stack : List Pending) (c : Cursor) :
    Move → Option Token → Reading ⊕ (Except Failure Value × Cursor)
  | .take, none | .look, none => .inr (throw (endFailure none stack), c)
  | .take, some token =>
      if token.kind = .quote ∨ token.kind = .unquote then .inl ⟨stack, .follow token.text, c⟩
      else proceed c (shift false token stack)
  | .look, some _ => .inl ⟨stack, .take, c⟩
  | .follow mark, none => .inr (throw (.malformed (.missingForm (Text.quoted mark))), c)
  | .follow mark, some _ =>
      match headOf? mark with
      | some head => .inl ⟨.mark mark head :: stack, .take, c⟩
      | none => .inr (throw (.unknownMark mark), c)

/-- Look once or take once. -/
def step (r : Reading) : Reading ⊕ (Except Failure Value × Cursor) :=
  react r.stack r.call.2 r.move r.call.1

/-- How many steps are left at most. Every token is taken once and looked for once. -/
def bound (r : Reading) : Nat :=
  2 * r.cursor.left.length + match r.move with
    | .take => 0
    | .look | .follow _ => 1

theorem fst_call (r : Reading) : r.call.1 = r.cursor.left.head? := by
  obtain ⟨stack, _ | _ | mark, c⟩ := r
  · exact c.fst_advance
  · exact c.fst_peek
  · exact c.fst_peek

theorem eq_of_proceed {c : Cursor} {result : Except Failure (List Pending ⊕ Value)} {r : Reading}
    (h : proceed c result = .inl r) : ∃ stack, result = .ok (.inl stack) ∧ r = ⟨stack, .look, c⟩ := by
  rcases result with failure | stack | v
  · cases h
  · cases h
    exact ⟨stack, rfl, rfl⟩
  · cases h

theorem bound_lt_of_step {r r' : Reading} (h : r.step = .inl r') : r'.bound < r.bound := by
  obtain ⟨stack, move, c⟩ := r
  rw [step, fst_call] at h
  dsimp only at h
  cases hleft : c.left with
  | nil =>
      rw [hleft] at h
      cases move <;> cases h
  | cons token rest =>
      rw [hleft] at h
      cases move with
      | take =>
          have htaken : 2 * rest.length + 1 < 2 * (rest.length + 1) := by omega
          change (if _ then _ else _) = _ at h
          split at h
          · cases h
            simpa [bound, call, hleft] using htaken
          · obtain ⟨stack', -, rfl⟩ := eq_of_proceed h
            simpa [bound, call, hleft] using htaken
      | look =>
          cases h
          simp [bound, call]
      | follow mark =>
          change (match headOf? mark with | some _ => _ | none => _) = _ at h
          split at h
          · cases h
            simp [bound, call]
          · cases h

/-- Go on until the form is read or cannot be. -/
def run (r : Reading) : Except Failure Value × Cursor :=
  match _h : r.step with
  | .inl r' => r'.run
  | .inr outcome => outcome
termination_by r.bound
decreasing_by exact bound_lt_of_step _h

end Reading

/-- Read a form. -/
def Cursor.read (c : Cursor) : Except Failure Value × Cursor := (Reading.start c).run

end Quasiquote
