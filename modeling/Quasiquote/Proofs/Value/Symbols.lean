import Quasiquote.Value.Basic

namespace Quasiquote.Value

mutual

/-- The symbols in a value, from left to right. -/
def symbols : Value → List Symbol
  | sym s => [s]
  | list items => symbolsOfItems items
  | tuple items => symbolsOfItems items
  | splice items => symbolsOfItems items
  | _ => []
termination_by structural v => v

def symbolsOfItems : List Value → List Symbol
  | [] => []
  | v :: vs => v.symbols ++ symbolsOfItems vs
termination_by structural vs => vs

end

theorem symbolsOfItems_eq_flatMap (items : List Value) :
    symbolsOfItems items = items.flatMap symbols := by
  induction items with
  | nil => rfl
  | cons v vs ih => rw [symbolsOfItems, ih, List.flatMap_cons]

theorem symbols_list (items : List Value) : (list items).symbols = items.flatMap symbols := by
  rw [symbols, symbolsOfItems_eq_flatMap]

theorem mem_symbols_list {items : List Value} {v : Value} {s : Symbol} (hv : v ∈ items)
    (hs : s ∈ v.symbols) : s ∈ (list items).symbols := by
  rw [symbols_list]
  exact List.mem_flatMap_of_mem hv hs

end Quasiquote.Value
