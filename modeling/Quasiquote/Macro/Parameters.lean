import Quasiquote.Value.Quoted

namespace Quasiquote

/-- The parameters of a macro: bare names, and perhaps one more that takes all further arguments. No
name occurs twice. -/
structure Parameters where
  fixed : List String
  variadic : Option String
  nodup : (fixed ++ variadic.toList).Nodup

namespace Parameters

instance : Inhabited Parameters := ⟨⟨[], none, by simp⟩⟩

def names (p : Parameters) : List String := p.fixed ++ p.variadic.toList

/-- The symbol before the name that takes all further arguments. -/
def ampersand : Symbol := ⟨"&", none⟩

/-- The name behind the ampersand, which has to be a bare symbol other than the ampersand itself. -/
def variadicName : Value → Except Failure String
  | .sym s =>
      if s.isQualified ∨ s = ampersand then throw (.malformed (.variadicParameter s.quoted))
      else pure s.name
  | v => do throw (.malformed (.variadicParameter (← v.written Value.quoted)))

/-- Split the items of a parameter list into the names before the ampersand and the one behind it.
-/
def split : List Value → Except Failure (List String × Option String)
  | [] => pure ([], none)
  | .sym s :: rest =>
      if s = ampersand then
        match rest with
        | [v] => do pure ([], some (← variadicName v))
        | _ => throw (.malformed .parameterAfterAmpersand)
      else if s.isQualified then throw (.malformed (.parameter s.quoted))
      else do
        let (fixed, variadic) ← split rest
        pure (s.name :: fixed, variadic)
  | v :: _ => do throw (.malformed (.parameter (← v.written Value.quoted)))

/-- The names as the message about a duplicate shows them. -/
def quotedNames (names : List String) : String :=
  "[" ++ ", ".intercalate (names.map Text.quoted) ++ "]"

/-- Read a parameter list. The first item that is wrong is blamed, and duplicates after that. -/
def ofValue : Value → Except Failure Parameters
  | .list items => do
      let (fixed, variadic) ← split items
      if h : (fixed ++ variadic.toList).Nodup then pure ⟨fixed, variadic, h⟩
      else throw (.malformed (.duplicateParameter (quotedNames (fixed ++ variadic.toList))))
  | _ => throw (.malformed .parameterList)

def least (p : Parameters) : Nat := p.fixed.length

def most (p : Parameters) : Option Nat :=
  match p.variadic with
  | some _ => none
  | none => some p.fixed.length

/-- Whether a call may have so many arguments. -/
def accepts (p : Parameters) (n : Nat) : Bool :=
  p.fixed.length ≤ n && (p.variadic.isSome || n ≤ p.fixed.length)

/-- What the names stand for in a call with the given arguments. -/
def bind (p : Parameters) (args : List Value) : Table String Value :=
  Table.ofList (p.fixed.zip args ++
    p.variadic.toList.map fun name => (name, Value.list (args.drop p.fixed.length)))

end Parameters

end Quasiquote
