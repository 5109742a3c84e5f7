import Quasiquote.Template.Site

namespace Quasiquote

theorem repr_injective {m n : Nat} (h : m.repr = n.repr) : m = n := by
  have hdigits : Nat.toDigits 10 m = Nat.toDigits 10 n := by
    rw [← Nat.toList_repr, ← Nat.toList_repr, h]
  have hvalues := congrArg (fun digits => Nat.ofDigitChars 10 digits 0) hdigits
  simpa only [Nat.ofDigitChars_ten_toDigits] using hvalues

theorem repr_ne_minus_append (m n : Nat) : m.repr ≠ "-" ++ n.repr := by
  intro h
  have hmem : '-' ∈ m.repr.toList := by
    rw [h, String.toList_append]
    exact List.mem_append_left _ (by decide)
  rw [Nat.toList_repr] at hmem
  exact absurd (Nat.isDigit_of_mem_toDigits (by decide) (by decide) hmem) (by decide)

theorem toString_injective {k l : Int} (h : toString k = toString l) : k = l := by
  cases k with
  | ofNat m =>
      cases l with
      | ofNat n => exact congrArg Int.ofNat (repr_injective h)
      | negSucc n => exact absurd h (repr_ne_minus_append _ _)
  | negSucc m =>
      cases l with
      | ofNat n => exact absurd h.symm (repr_ne_minus_append _ _)
      | negSucc n =>
          have h : "-" ++ (m + 1).repr = "-" ++ (n + 1).repr := h
          have hrepr : (m + 1).repr = (n + 1).repr := by
            rw [← String.toList_inj, String.toList_append, String.toList_append,
              List.append_cancel_left_eq, String.toList_inj] at h
            exact h
          exact congrArg Int.negSucc (Nat.succ.inj (repr_injective hrepr))

theorem underscore_notMem_toString (k : Int) : '_' ∉ (toString k).toList := by
  cases k with
  | ofNat n =>
      change '_' ∉ n.repr.toList
      rw [Nat.toList_repr]
      exact Nat.underscore_not_in_toDigits
  | negSucc n =>
      change '_' ∉ ("-" ++ (n + 1).repr).toList
      rw [String.toList_append, Nat.toList_repr, List.mem_append, not_or]
      exact ⟨by decide, Nat.underscore_not_in_toDigits⟩

theorem toString_ne_empty (k : Int) : (toString k).toList ≠ [] := by
  cases k with
  | ofNat n =>
      change n.repr.toList ≠ []
      rw [Nat.toList_repr]
      exact Nat.toDigits_ne_nil
  | negSucc n =>
      change ("-" ++ (n + 1).repr).toList ≠ []
      rw [String.toList_append]
      exact List.append_ne_nil_of_left_ne_nil (by decide) _

theorem eq_of_append_cons_eq {α : Type} [DecidableEq α] {a : α} (xs ys : List α) {t u : List α}
    (ht : a ∉ t) (hu : a ∉ u) (h : xs ++ a :: t = ys ++ a :: u) : t = u := by
  have tail {zs v : List α} (hv : a ∉ v) :
      (zs ++ a :: v).reverse.takeWhile (· ≠ a) = v.reverse := by
    rw [List.reverse_append, List.reverse_cons, List.append_assoc,
      List.takeWhile_append_of_pos]
    · simp
    · intro b hb
      rw [List.mem_reverse] at hb
      exact decide_eq_true fun hba => hv (hba ▸ hb)
  rw [← List.reverse_inj, ← tail ht, h, tail hu]

/-- The renaming with a leading text and a number. -/
def Symbol.numbered (lead : String) (k : Int) : Symbol := ⟨lead ++ toString k ++ renameEnding, none⟩

/-- Renamings with different numbers differ, whatever the marked names are. -/
theorem Symbol.numbered_injective {first second : String} {k l : Int}
    (h : numbered (first ++ "__") k = numbered (second ++ "__") l) : k = l := by
  have hname := congrArg (fun s : Symbol => s.name.toList) h
  simp only [numbered, String.toList_append, List.append_cancel_right_eq] at hname
  rw [show "__".toList = ['_', '_'] from rfl, List.append_assoc, List.append_assoc] at hname
  have hdigits : (toString k).toList = (toString l).toList :=
    eq_of_append_cons_eq (first.toList ++ ['_']) (second.toList ++ ['_'])
      (underscore_notMem_toString k) (underscore_notMem_toString l) (by simpa using hname)
  exact toString_injective (String.toList_inj.mp hdigits)

/-- A renaming ends in an underscore, and a fresh name in a digit. -/
theorem Symbol.numbered_ne_fresh (lead lead' : String) (k : Int) (a : Allocator) :
    numbered lead k ≠ ⟨(a.allocate lead').1, none⟩ := by
  intro h
  have hname : (lead ++ toString k ++ renameEnding).toList.getLast? =
      (lead' ++ toString a.next).toList.getLast? :=
    congrArg (fun s : Symbol => s.name.toList.getLast?) h
  obtain ⟨digit, hdigit⟩ : ∃ digit, (toString a.next).toList.getLast? = some digit :=
    Option.isSome_iff_exists.mp (List.getLast?_isSome.mpr (toString_ne_empty a.next))
  rw [String.toList_append, String.toList_append, String.toList_append, List.getLast?_append,
    List.getLast?_append, List.getLast?_append, hdigit] at hname
  obtain rfl : '_' = digit := Option.some.inj hname
  exact underscore_notMem_toString a.next (List.mem_of_getLast? hdigit)

end Quasiquote
