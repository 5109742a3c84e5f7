import Quasiquote.Value.Quoted

namespace Quasiquote

/-- The mark that abbreviates a list of this head and one more item. -/
def readerMark? (s : Symbol) : Option (List Char) :=
  if s = .quote then some ['\'']
  else if s = .syntaxQuote then some ['\x60']
  else if s = .unquote then some ['~']
  else if s = .unquoteSplicing then some ['~', '@']
  else none

/-- A character inside a string, as it is written. -/
def stringChar (c : Char) : List Char :=
  if c = '\\' then ['\\', '\\']
  else if c = '"' then ['\\', '"']
  else if c = '\n' then ['\\', 'n']
  else if c = '\t' then ['\\', 't']
  else if c = '\r' then ['\\', 'r']
  else [c]

def stringSource (s : String) : List Char := '"' :: s.toList.flatMap stringChar ++ ['"']

def spaced (texts : List (List Char)) : List Char := List.intercalate [' '] texts

namespace Value

mutual

/-- The source text of a value, on one line. -/
def source : Value → List Char
  | nil => ['n', 'i', 'l']
  | bool true => ['t', 'r', 'u', 'e']
  | bool false => ['f', 'a', 'l', 's', 'e']
  | num n => n.text.toList
  | str s => stringSource s
  | sym s => s.text.toList
  | kw name => ':' :: name.toList
  | list [sym s, v] =>
      match readerMark? s with
      | some mark => mark ++ v.source
      | none => '(' :: s.text.toList ++ ' ' :: v.source ++ [')']
  | list items => '(' :: spaced (sources items) ++ [')']
  | tuple items => '(' :: spaced (sources items) ++ [')']
  | splice items => (splice items).quoted.toList
  | error _ failure =>
      ("#error " ++ failure.kind ++ "(" ++ Text.quoted failure.message ++ ")").toList
  | fn f => ("#function " ++ f.label).toList
termination_by structural v => v

def sources : List Value → List (List Char)
  | [] => []
  | v :: vs => v.source :: sources vs
termination_by structural vs => vs

end

/-- What a value shows when it is printed: texts without quotes, nil as nothing, and a caught
failure by its kind and message. -/
def display : Value → String
  | nil => ""
  | str s => s
  | sym s => s.text
  | kw name => ":" ++ name
  | error _ failure => failure.kind ++ ": " ++ failure.message
  | v => String.ofList v.source

/-- What a node adds to a name or text that is put together: texts without quotes, nil as
nothing. -/
def spelling : Value → String
  | nil => ""
  | str s => s
  | sym s => s.text
  | kw name => ":" ++ name
  | v => String.ofList v.source

end Value

/-- How trees are laid out on lines. -/
structure LineStyle where
  width : Int := 80
  /-- How far the items of a broken list stand to the right of it. -/
  indent : Int := 2

namespace Value

mutual

/-- The source text of a value that starts at a column, broken into lines where it does not fit.
A broken list has its head on its first line and one more item on each line that follows. -/
def layout (style : LineStyle) (column : Int) : Value → List Char
  | list [sym s, v] =>
      let flat := (list [sym s, v]).source
      if column + flat.length ≤ style.width then flat
      else
        match readerMark? s with
        | some mark => mark ++ v.layout style (column + mark.length)
        | none =>
            '(' :: s.text.toList ++
              layoutItems style (column + style.indent) [v] ++ [')']
  | list (v :: vs) =>
      let flat := (list (v :: vs)).source
      if column + flat.length ≤ style.width then flat
      else
        '(' :: v.layout style (column + 1) ++
          layoutItems style (column + style.indent) vs ++ [')']
  | tuple (v :: vs) =>
      let flat := (tuple (v :: vs)).source
      if column + flat.length ≤ style.width then flat
      else
        '(' :: v.layout style (column + 1) ++
          layoutItems style (column + style.indent) vs ++ [')']
  | v => v.source
termination_by structural v => v

/-- Each item on a line of its own, at the given column. -/
def layoutItems (style : LineStyle) (column : Int) : List Value → List Char
  | [] => []
  | v :: vs =>
      '\n' :: List.replicate column.toNat ' ' ++ v.layout style column ++
        layoutItems style column vs
termination_by structural vs => vs

end

mutual

/-- The columns at which the lines of a layout begin, apart from its first line. -/
def lineColumns (style : LineStyle) (column : Int) : Value → List Int
  | list [sym s, v] =>
      if column + (list [sym s, v]).source.length ≤ style.width then []
      else
        match readerMark? s with
        | some mark => v.lineColumns style (column + mark.length)
        | none => itemColumns style (column + style.indent) [v]
  | list (v :: vs) =>
      if column + (list (v :: vs)).source.length ≤ style.width then []
      else v.lineColumns style (column + 1) ++ itemColumns style (column + style.indent) vs
  | tuple (v :: vs) =>
      if column + (tuple (v :: vs)).source.length ≤ style.width then []
      else v.lineColumns style (column + 1) ++ itemColumns style (column + style.indent) vs
  | _ => []
termination_by structural v => v

/-- The columns at which lines begin if each item stands on a line of its own. -/
def itemColumns (style : LineStyle) (column : Int) : List Value → List Int
  | [] => []
  | v :: vs => column :: v.lineColumns style column ++ itemColumns style column vs
termination_by structural vs => vs

end

/-- Whether as many blanks as a column needs can be counted. -/
def IsCountable (column : Int) : Prop := -countBound ≤ column ∧ column < countBound

instance (column : Int) : Decidable (IsCountable column) :=
  inferInstanceAs (Decidable (_ ∧ _))

/-- Why no line can begin at a column. The memory has room for the blanks of some columns only. -/
def columnFault? (hasRoom : Int → Bool) (column : Int) : Option ArithmeticFault :=
  if ¬IsCountable column then some .farColumn
  else if hasRoom column then none
  else some .noRoom

/-- The layout of a value, if it can be written and its lines can begin where they should. -/
def laidOutWithin (hasRoom : Int → Bool) (v : Value) (style : LineStyle) (column : Int) :
    Except Failure (List Char) := do
  let v ← v.written id
  match (v.lineColumns style column).findSome? (columnFault? hasRoom) with
  | some fault => throw (.arithmetic fault)
  | none => pure (v.layout style column)

/-- The layout of a value where the memory has room for all lines. -/
def laidOut : Value → LineStyle → Int → Except Failure (List Char) :=
  laidOutWithin fun _ => true

end Value

end Quasiquote
