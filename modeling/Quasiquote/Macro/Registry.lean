import Quasiquote.Macro.Basic
import Quasiquote.Namespace
import Quasiquote.Text.Order

/-!
The registry of macros, in the order of their definitions. Defining a macro again puts it last.
A qualified symbol finds the macro of exactly that namespace and name. A bare one is resolved by
the namespace of the caller; without a caller it finds the newest macro of that name.
-/

namespace Quasiquote

/-- The macros that are defined, the newest last. -/
structure Registry where
  macros : List Macro := []
  /-- No two macros have the same namespace and name. -/
  keys_nodup : (macros.map Macro.key).Nodup := by simp

namespace Registry

def empty : Registry := ⟨[], by simp⟩

instance : Inhabited Registry := ⟨empty⟩

/-- Take away the macro with a key, if there is one. All others keep their order. -/
def remove (r : Registry) (key : String × String) : Registry where
  macros := r.macros.filter (·.key ≠ key)
  keys_nodup := List.Nodup.sublist (List.Sublist.map _ List.filter_sublist) r.keys_nodup

/-- Define a macro, in place of the one with its key. -/
def define (r : Registry) (m : Macro) : Registry where
  macros := (r.remove m.key).macros ++ [m]
  keys_nodup := by
    rw [List.map_append, List.nodup_append]
    refine ⟨(r.remove m.key).keys_nodup, by simp, ?_⟩
    intro a ha b hb
    obtain ⟨n, hn, rfl⟩ := List.mem_map.mp ha
    simp only [remove, List.mem_filter, decide_eq_true_eq] at hn
    simp only [List.map_cons, List.map_nil, List.mem_singleton] at hb
    exact hb ▸ hn.2

def find? (r : Registry) (key : String × String) : Option Macro :=
  r.macros.find? (·.key = key)

/-- The macro that was defined last of those with a name, in any namespace. -/
def newest? (r : Registry) (name : String) : Option Macro :=
  r.macros.reverse.find? (·.name = name)

/-- The macro that a symbol stands for, in the namespace of the caller if there is one. -/
def lookup (r : Registry) (caller : Option Namespace) (s : Symbol) : Option Macro :=
  match s.ns, caller with
  | some ns, _ => r.find? (ns, s.name)
  | none, none => r.newest? s.name
  | none, some caller => r.find? ((caller.resolve s).ns.getD "", s.name)

/-- Take away the macro that a symbol stands for, and say whether there was one. -/
def undefine (r : Registry) (caller : Option Namespace) (s : Symbol) : Bool × Registry :=
  match r.lookup caller s with
  | some m => (true, r.remove m.key)
  | none => (false, r)

def size (r : Registry) : Nat := r.macros.length

def names (r : Registry) : List String :=
  Text.sorted (r.macros.map fun m => m.ns ++ "/" ++ m.name)

end Registry

end Quasiquote
