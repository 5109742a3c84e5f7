import Mathlib.Data.List.DropRight
import Quasiquote.Proofs.Freshness.Name
import Quasiquote.Proofs.Template.Renaming

namespace Quasiquote

theorem rtakeWhile_append_cons {α : Type} {p : α → Bool} (xs : List α) {a : α} {ys : List α}
    (ha : p a = false) (hys : ∀ y ∈ ys, p y = true) : (xs ++ a :: ys).rtakeWhile p = ys := by
  rw [List.rtakeWhile, List.reverse_append, List.reverse_cons, List.append_assoc,
    List.takeWhile_append_of_pos fun y hy => hys y (List.mem_reverse.mp hy), List.singleton_append,
    List.takeWhile_cons_of_neg (by simp [ha]), List.append_nil, List.reverse_reverse]

theorem rdropWhile_append_cons {α : Type} {p : α → Bool} (xs : List α) {a : α} {ys : List α}
    (ha : p a = false) (hys : ∀ y ∈ ys, p y = true) :
    (xs ++ a :: ys).rdropWhile p = xs ++ [a] := by
  rw [List.rdropWhile, List.reverse_append, List.reverse_cons, List.append_assoc,
    List.dropWhile_append_of_pos fun y hy => hys y (List.mem_reverse.mp hy), List.singleton_append,
    List.dropWhile_cons_of_neg (by simp [ha]), List.reverse_cons, List.reverse_reverse]

namespace Symbol

/-- The leading text and the number of a symbol that stands for a marked name. -/
def numbering? (s : Symbol) : Option (String × Nat) :=
  if s.ns = none ∧ s.HasRenameEnding then
    let stem := s.name.toList.take (s.name.toList.length - renameEnding.toList.length)
    let lead := stem.rdropWhile Char.isDigit
    let digits := stem.rtakeWhile Char.isDigit
    if digits ≠ [] ∧ "__".toList <:+ lead then
      some (String.ofList lead, Nat.ofDigitChars 10 digits 0)
    else none
  else none

theorem hasRenameEnding_numbered (lead : String) (k : Int) :
    (numbered lead k).HasRenameEnding := by
  rw [HasRenameEnding, numbered, String.toList_append]
  exact List.suffix_append _ _

theorem numbering?_numbered (first : String) (k : Nat) :
    (numbered (first ++ "__") k).numbering? = some (first ++ "__", k) := by
  have hdigits : (toString (k : Int)).toList = Nat.toDigits 10 k := Nat.toList_repr
  have hname : (numbered (first ++ "__") k).name.toList =
      ((first.toList ++ ['_']) ++ '_' :: Nat.toDigits 10 k) ++ renameEnding.toList := by
    rw [numbered, String.toList_append, String.toList_append, String.toList_append, hdigits]
    simp
  have hisDigit : ∀ c ∈ Nat.toDigits 10 k, c.isDigit = true := fun c =>
    Nat.isDigit_of_mem_toDigits (by decide) (by decide)
  have hlead : String.ofList ((first.toList ++ ['_']) ++ ['_']) = first ++ "__" := by
    simp
  have hsuffix : "__".toList <:+ (first.toList ++ ['_']) ++ ['_'] := by
    rw [List.append_assoc]
    exact List.suffix_append _ _
  rw [numbering?, if_pos ⟨rfl, hasRenameEnding_numbered _ _⟩]
  dsimp only
  rw [hname, List.length_append, Nat.add_sub_cancel, List.take_left,
    rtakeWhile_append_cons _ (by decide) hisDigit, rdropWhile_append_cons _ (by decide) hisDigit,
    if_pos ⟨Nat.toDigits_ne_nil, hsuffix⟩, hlead, Nat.ofDigitChars_ten_toDigits]

end Symbol

/-- Add a number to the numbers of all symbols that stand for marked names. -/
def Renaming.renumbering (offset : Int) : Renaming where
  toFun s := match s.numbering? with
    | some (lead, k) => .numbered lead (k + offset)
    | none => s
  fixed {s} hs := by
    have hnone : s.numbering? = none := by
      rw [Symbol.numbering?, if_neg fun h => hs h.2]
    rw [hnone]
  ending {s} hs := by
    split
    · exact Symbol.hasRenameEnding_numbered _ _
    · exact hs

theorem Renaming.shifts_renumbering (offset : Int) : (renumbering offset).Shifts offset := by
  intro first k hk
  obtain ⟨n, rfl⟩ := Int.eq_ofNat_of_zero_le hk
  simp only [renumbering, Symbol.numbering?_numbered]

end Quasiquote
