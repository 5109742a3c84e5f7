import Quasiquote.Text.Blank
import Quasiquote.Text.Digit
import Quasiquote.Value.Quoted

namespace Quasiquote

/-- The texts of the settings that are given, by name. -/
abbrev SettingTexts := List (String × String)

namespace Settings

/-- An integer in decimal digits with an optional sign. Single underscores may stand between
digits, and blank characters around the whole. -/
def parseInt? (text : String) : Option Int :=
  let trimmed := Text.trim text.toList
  let (negative, digits) : Bool × List Char := match trimmed with
    | '+' :: cs => (false, cs)
    | '-' :: cs => (true, cs)
    | cs => (false, cs)
  let groups := digits.splitOn '_'
  let count := (digits.filter Text.isDecimal).length
  if groups.all (fun g => !g.isEmpty && g.all Text.isDecimal) && count ≤ 4300 then
    let n : Int := Text.decimalValue digits
    some (if negative then -n else n)
  else none

/-- The text of a setting, unless it is blank. -/
def given? (texts : SettingTexts) (name : String) : Option String :=
  (texts.lookup name).filter fun text => !(Text.trim text.toList).isEmpty

/-- A setting that has to be a positive integer. A text that is missing or blank leaves the default. -/
def positive (texts : SettingTexts) (name : String) (default : Int) : Except Failure Int :=
  match given? texts name with
  | none => pure default
  | some text =>
      match parseInt? text with
      | none => throw (.setting (.notInteger name (Text.quoted text)))
      | some n => if n < 1 then throw (.setting (.notPositive name n)) else pure n

/-- How many macro steps may follow each other on the way to a leaf. -/
def maxExpansionDepth (texts : SettingTexts) : Except Failure Int :=
  positive texts "SYNQUOTE_MAX_EXPANSION_DEPTH" 100

def maxTemplateNesting (texts : SettingTexts) : Except Failure Int :=
  positive texts "SYNQUOTE_MAX_TEMPLATE_NESTING" 8

/-- The namespace of a new session, if no other one is asked for. -/
def defaultNamespace (texts : SettingTexts) : String :=
  match given? texts "SYNQUOTE_NAMESPACE" with
  | none => "user"
  | some text => String.ofList (Text.trim text.toList)

end Settings

end Quasiquote
