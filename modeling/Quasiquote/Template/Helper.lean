import Quasiquote.Primitive.Call
import Quasiquote.Template.Site

namespace Quasiquote

/-- The course of a helper call: names are taken, each with a leading text, and then the call has
a result. -/
inductive HelperCall where
  | done (result : Except Failure Value)
  | naming (lead : String) (next : String → HelperCall)

namespace HelperCall

/-- Take the names of a call from an allocator. The call fails if a name cannot be had. -/
def run {m : Type → Type} [Monad m] [MonadFresh m] : HelperCall → Building m Value
  | done result => MonadExcept.ofExcept result
  | naming lead next => do (next (← Building.performFailing (fresh lead))).run

end HelperCall

/-- A function that macro bodies call while they are expanded. Helpers work on nodes and have no effect
but taking fresh names. -/
inductive Helper where
  | list
  | vec
  | concat
  | cons
  | first
  | rest
  | count
  | range
  | inc
  | dec
  | str
  | symbol
  | keyword
  | gensym
  /-- A helper that a host adds, given by what it does with its arguments. -/
  | host (call : List Value → HelperCall)

namespace Helper

/-- The helpers that every macro body can call, by name. -/
def builtin : Table String Helper :=
  Table.ofList
    [("list", list), ("vec", vec), ("concat", concat), ("cons", cons), ("first", first),
     ("rest", rest), ("count", count), ("range", range), ("inc", inc), ("dec", dec),
     ("str", str), ("symbol", symbol), ("keyword", keyword), ("gensym", gensym)]

/-- The items of a list or tuple; nil has none. -/
def sequence (who : String) : Value → Except Failure (List Value)
  | .nil => pure []
  | .list items => pure items
  | .tuple items => pure items
  | v => do throw (.typing (.notSequence who (← v.written Value.quoted)))

def integer (who : String) : Value → Except Failure Int
  | .num (.int n) => pure n
  | v => do throw (.typing (.notInteger who (← v.written Value.quoted)))

/-- What an argument adds to a name or text. -/
def spelling (v : Value) : Except Failure String := v.written Value.spelling

def only (who : String) : List Value → Except Failure Value
  | [v] => pure v
  | _ => throw (.typing (.argumentCount who 1))

/-- The first argument of a helper that reads it without asking whether it is there. -/
def leading : List Value → Except Failure Value
  | v :: _ => pure v
  | [] => throw .missingArgument

/-- The symbol spelled by a text, or by a namespace and a name. An empty namespace is none. -/
def makeSymbol : List Value → Except Failure Value
  | [v] => do pure (.sym (Symbol.parse (← spelling v)))
  | [ns, name] => do
      let name ← spelling name
      let ns ← spelling ns
      pure (.sym ⟨name, if ns.isEmpty then none else some ns⟩)
  | _ => throw (.typing .symbolArguments)

/-- The keyword spelled by a text. Colons in front of it are dropped. -/
def makeKeyword (args : List Value) : Except Failure Value := do
  let name ← spelling (← only "keyword" args)
  pure (.kw (String.ofList (name.toList.dropWhile (· = ':'))))

/-- A list with one more item in front. -/
def makeCons : List Value → Except Failure Value
  | [v, vs] => do pure (.list (v :: (← sequence "cons" vs)))
  | _ => throw (.typing (.argumentCount "cons" 2))

def makeRange (args : List Value) : Except Failure Value := do
  if args.isEmpty || 3 < args.length then throw (.typing .rangeArguments)
  rangeOf (← args.mapM (integer "range"))

/-- The leading text of the name that the arguments of `gensym` ask for. -/
def gensymLead : List Value → Except Failure String
  | [] => pure "G__"
  | [v] => spelling v
  | _ => throw (.typing .gensymArguments)

/-- The call of `gensym`: one name, as a symbol. -/
def gensymCall (args : List Value) : HelperCall :=
  match gensymLead args with
  | .ok lead => .naming lead fun name => .done (pure (.sym ⟨name, none⟩))
  | .error f => .done (.error f)

/-- The course of a call with the given arguments. -/
def course (args : List Value) : Helper → HelperCall
  | list => .done (pure (.list args))
  | vec => .done do pure (.list (← sequence "vec" (← only "vec" args)))
  | concat => .done do pure (.list (← args.mapM (sequence "concat")).flatten)
  | cons => .done (makeCons args)
  | first => .done do pure ((← sequence "first" (args.headD .nil)).headD .nil)
  | rest => .done do pure (.list (← sequence "rest" (args.headD .nil)).tail)
  | count => .done do pure (.int (← sequence "count" (← only "count" args)).length)
  | range => .done (makeRange args)
  | inc => .done do pure (.int ((← integer "inc" (← leading args)) + 1))
  | dec => .done do pure (.int ((← integer "dec" (← leading args)) - 1))
  | str => .done do pure (.str (String.join (← args.mapM spelling)))
  | symbol => .done (makeSymbol args)
  | keyword => .done (makeKeyword args)
  | gensym => gensymCall args
  | host call => call args

def call {m : Type → Type} [Monad m] [MonadFresh m] (h : Helper) (args : List Value) :
    Building m Value :=
  (h.course args).run

end Helper

end Quasiquote
