import Quasiquote.Value.Quoted

namespace Quasiquote

/-- An allocator hands out fresh names: a text that the caller chooses, and behind it a number that
never comes again. It holds the next number. -/
structure Allocator where
  next : Int := 1
deriving DecidableEq, Repr, Inhabited

namespace Allocator

/-- The name that an allocator hands out for a leading text, and the allocator after it. -/
def allocate (a : Allocator) (lead : String) : String × Allocator :=
  (lead ++ toString a.next, ⟨a.next + 1⟩)

/-- Whether the next number has few enough digits to be written. -/
def isWritable (a : Allocator) : Bool := (Nat.toDigits 10 a.next.natAbs).length ≤ 4300

/-- Hand out a name. A number that cannot be written is used up too. -/
def issue (lead : String) : ExceptT Failure (StateM Allocator) String := ExceptT.mk fun a =>
  let (name, next) := a.allocate lead
  (if a.isWritable then .ok name else .error .unwritable, next)

end Allocator

/-- Computations that can take fresh names. -/
class MonadFresh (m : Type → Type) where
  fresh : String → ExceptT Failure m String

export MonadFresh (fresh)

instance : MonadFresh (StateM Allocator) := ⟨Allocator.issue⟩

end Quasiquote
