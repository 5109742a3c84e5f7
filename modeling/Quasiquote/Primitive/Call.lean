import Quasiquote.Log
import Quasiquote.Value.Equality
import Quasiquote.Value.Source

namespace Quasiquote

/-- What a call does besides answering. -/
inductive Effect where
  | none
  | print (text : String)
  | log (event : LogEvent)
  | count

/-- How many integers a range has whose step is not zero. -/
def rangeSize (start stop step : Int) : Nat :=
  if 0 < step then ((stop - start + (step - 1)) / step).toNat
  else ((start - stop + (-step - 1)) / -step).toNat

/-- The integers from `start` on, `step` apart, before `stop` is reached. -/
def integerRange (start stop step : Int) : List Int :=
  (List.range (rangeSize start stop step)).map fun (i : Nat) => start + i * step

/-- The start, stop and step that the one to three bounds of a range stand for. -/
def rangeBounds : List Int → Int × Int × Int
  | [] => (0, 0, 1)
  | [stop] => (0, stop, 1)
  | [start, stop] => (start, stop, 1)
  | start :: stop :: step :: _ => (start, stop, step)

/-- The range with the given bounds, if it has a step, can be counted, and there is room for it. -/
def rangeOf (bounds : List Int) : Except Failure Value :=
  let (start, stop, step) := rangeBounds bounds
  if step = 0 then throw (.arithmetic .zeroStep)
  else if countBound ≤ rangeSize start stop step then throw (.arithmetic .uncountable)
  else if roomBound ≤ rangeSize start stop step then throw (.arithmetic .noRoom)
  else pure (.list ((integerRange start stop step).map Value.int))

namespace Primitive

/-- The arguments of a function as numbers. Booleans are none. -/
def numbers (who : String) : List Value → Except Failure (List Number)
  | [] => pure []
  | .num n :: more => do pure (n :: (← numbers who more))
  | v :: _ => do throw (.typing (.notNumber who (← v.written Value.quoted)))

/-- The items of a sequence: of a list or tuple, the characters of a string, none of nil. -/
def sequence (who : String) : Value → Except Failure (List Value)
  | .nil => pure []
  | .list items => pure items
  | .tuple items => pure items
  | .str s => pure (s.toList.map fun c => .str c.toString)
  | v => do throw (.typing (.notSequence who (← v.written Value.quoted)))

def ofNumber (result : Except ArithmeticFault Number) : Except Failure Value :=
  match result with
  | .ok n => pure (.num n)
  | .error fault => throw (.arithmetic fault)

/-- Combine numbers from left to right, and write a whole fraction as an integer. -/
def fold (step : Number → Number → Except ArithmeticFault Number) (start : Number)
    (ns : List Number) : Except Failure Value :=
  ofNumber ((ns.foldlM step start).map Number.normal)

/-- Whether each number is related to the next one. -/
def chain (related : Number → Number → Bool) (ns : List Number) : Value :=
  .bool ((ns.zip ns.tail).all fun (a, b) => related a b)

/-- Of several numbers the first that no later one improves on. -/
def best (better : Number → Number → Bool) (n : Number) (ns : List Number) : Value :=
  .num (ns.foldl (fun held m => if better m held then m else held) n)

def integers : List Number → Except Failure (List Int)
  | [] => pure []
  | .int n :: more => do pure (n :: (← integers more))
  | n :: _ => throw (.arithmetic (.bound n))

/-- Values as they are printed, with a text between them. -/
def displayed (separator : String) (vs : List Value) : Except Failure String := do
  pure (separator.intercalate (← vs.mapM fun v => v.written Value.display))

def sum (id : Nat) (args : List Value) : Except Failure Value := do
  fold (Number.add id) (.int 0) (← numbers "+" args)

/-- The first number less all others; of one number, its negative. -/
def difference (id : Nat) (args : List Value) : Except Failure Value := do
  match ← numbers "-" args with
  | [] => throw (.typing (.noArgument "-"))
  | [n] => pure (.num (n.neg id))
  | n :: more => fold (Number.sub id) n more

def product (id : Nat) (args : List Value) : Except Failure Value := do
  fold (Number.mul id) (.int 1) (← numbers "*" args)

/-- The first number divided by all others; of one number, its reciprocal. -/
def quotient (id : Nat) (args : List Value) : Except Failure Value := do
  match ← numbers "/" args with
  | [] => throw (.typing (.noArgument "/"))
  | [n] => fold (Number.div id) (.int 1) [n]
  | n :: more => fold (Number.div id) n more

/-- The first number changed by one. Further numbers are not used. -/
def changedByOne (who : String) (change : Number → Number → Except ArithmeticFault Number)
    (args : List Value) : Except Failure Value := do
  match ← numbers who args with
  | [] => throw .missingArgument
  | n :: _ => ofNumber (change n (.int 1))

/-- The best of the arguments. There has to be one. -/
def extreme (who : String) (better : Number → Number → Bool) (args : List Value) :
    Except Failure Value := do
  if args.isEmpty then throw (.typing (.noArgument who))
  match ← numbers who args with
  | [] => throw (.typing (.noArgument who))
  | n :: more => pure (best better n more)

/-- The range whose one to three bounds are the arguments. -/
def rangeCall (args : List Value) : Except Failure Value := do
  if args.isEmpty || 3 < args.length then throw (.typing .rangeArguments)
  rangeOf (← integers (← numbers "range" args))

/-- Answer without an effect. -/
def plainly (result : Except Failure Value) : Except Failure (Value × Effect) := do
  pure (← result, .none)

/-- Call a function. `calls` says how often counting probes have been called before, and `id` is
the identity of a result that is no number. -/
def call (calls id : Nat) (args : List Value) : Primitive → Except Failure (Value × Effect)
  | add => plainly (sum id args)
  | sub => plainly (difference id args)
  | mul => plainly (product id args)
  | div => plainly (quotient id args)
  | inc => plainly (changedByOne "inc" (Number.add id) args)
  | dec => plainly (changedByOne "dec" (Number.sub id) args)
  | equal => plainly (pure (.bool ((args.zip args.tail).all fun (v, w) => v.equal w)))
  | less => plainly ((numbers "<" args).map (chain Number.less))
  | greater => plainly ((numbers ">" args).map (chain fun a b => b.less a))
  | atMost => plainly ((numbers "<=" args).map (chain Number.atMost))
  | atLeast => plainly ((numbers ">=" args).map (chain fun a b => b.atMost a))
  | list => plainly (pure (.list args))
  | first => plainly do pure ((← sequence "first" (args.headD .nil)).headD .nil)
  | rest => plainly do pure (.list (← sequence "rest" (args.headD .nil)).tail)
  | count => plainly do pure (.int (← sequence "count" (args.headD .nil)).length)
  | concat => plainly do pure (.list (← args.mapM (sequence "concat")).flatten)
  | range => plainly (rangeCall args)
  | max => plainly (extreme "max" (fun m held => held.less m) args)
  | min => plainly (extreme "min" Number.less args)
  | isNil => plainly (pure (.bool (args matches [.nil])))
  | str => plainly ((displayed "" args).map .str)
  | println => do pure (.nil, .print ((← displayed " " args) ++ "\n"))
  | log level => do pure (.nil, .log (.message level (← displayed " " args)))
  | probe .echo _ => pure (.list args, .none)
  | probe .tally _ => pure (.int (calls + 1), .count)
  | probe .boom _ => do throw (.reported .typing ("boom: " ++ (← displayed " " args)))

end Primitive

end Quasiquote
