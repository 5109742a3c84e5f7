import Quasiquote.Proofs.Reader.Number
import Quasiquote.Proofs.Reader.Printing
import Quasiquote.Reader.Form

namespace Quasiquote

namespace Value

/-- The leaves that can be written so that they read as themselves. -/
inductive IsLegible : Value → Prop
  | nil : IsLegible nil
  | bool (b : Bool) : IsLegible (bool b)
  | int {n : Int} (h : (Nat.toDigits 10 n.natAbs).length ≤ Atom.digitLimit) : IsLegible (int n)
  | float {x : Float} {negative : Bool} {m : Nat} {e : Int}
      (h : Binary64.parts x = .finite negative m e) : IsLegible (num (.float x))
  | str (s : String) : IsLegible (str s)
  | sym {s : Symbol} (hword : IsWord s.text.toList) (hread : Atom.ofWord s.text = .ok (sym s)) :
      IsLegible (sym s)
  | kw {name : String} (hword : IsWord (':' :: name.toList))
      (hread : Atom.ofWord (":" ++ name) = .ok (kw name)) : IsLegible (kw name)

/-- Whether a value is a float that is too large to be finite. -/
def IsInfinite (v : Value) : Prop :=
  ∃ x negative, v = num (.float x) ∧ Binary64.parts x = .infinite negative

theorem isWord_of_all {cs : List Char} (hne : cs ≠ []) (h : cs.all isSymbolChar = true) :
    IsWord cs := ⟨hne, List.all_eq_true.mp h⟩

theorem isToken_of_isWord {v : Value} (hleaf : v.IsLeaf) (htuple : ∀ items, v ≠ tuple items)
    (hword : IsWord v.source) (hhead : v.source.head? ≠ some '@') : v.IsToken where
  isLeaf := hleaf
  isWord := fun _ => hword
  ne_tuple := htuple
  head := fun h => (hhead h).elim

theorem head?_ne_at {cs : List Char} (h : ∀ c ∈ cs, Atom.IsNumeralChar c) :
    cs.head? ≠ some '@' := by
  intro hhead
  have hat : ¬Atom.IsNumeralChar '@' := by
    unfold Atom.IsNumeralChar
    decide
  exact hat (h '@' (List.mem_of_head? hhead))

theorem IsLegible.isToken {v : Value} (h : v.IsLegible) : v.IsToken := by
  cases h with
  | nil =>
      exact isToken_of_isWord trivial (by simp) (isWord_of_all (by decide) (by decide)) (by decide)
  | bool b =>
      cases b <;>
        exact isToken_of_isWord trivial (by simp) (isWord_of_all (by decide) (by decide)) (by decide)
  | int hlength =>
      exact isToken_of_isWord trivial (by simp [Value.int]) (Atom.isWord_intText _)
        (head?_ne_at fun _ => Atom.isNumeralChar_of_mem_intText)
  | float hparts =>
      exact isToken_of_isWord trivial (by simp) (Atom.isWord_text hparts)
        (head?_ne_at fun _ => Atom.isNumeralChar_of_mem_text hparts)
  | str s =>
      exact ⟨trivial, fun hs => (hs s rfl).elim, by simp,
        fun hhead => absurd (Option.some.inj hhead) (by decide)⟩
  | sym hword hread => exact ⟨trivial, fun _ => hword, by simp, fun _ => ⟨_, rfl⟩⟩
  | kw hword hread =>
      exact isToken_of_isWord trivial (by simp) hword fun hhead =>
        absurd (Option.some.inj hhead) (by decide)

theorem IsInfinite.isToken {v : Value} (h : v.IsInfinite) : v.IsToken := by
  obtain ⟨x, negative, rfl, hparts⟩ := h
  have hsource : (num (.float x)).source =
      if negative then ['-', 'i', 'n', 'f'] else ['i', 'n', 'f'] := by
    show (Binary64.text x).toList = _
    rw [Binary64.text, hparts]
    cases negative <;> rfl
  refine isToken_of_isWord trivial (by simp) ?_ ?_ <;> rw [hsource]
  · cases negative <;> exact isWord_of_all (by decide) (by decide)
  · cases negative <;> decide

theorem role_word {v : Value} {word : String} (htoken : v.leafToken = ⟨.symbol, word⟩)
    (hread : Atom.ofWord word = .ok v) (last : Bool) :
    Reader.role last v.leafToken = .ok (.value v) := by
  rw [htoken, Reader.role, hread]
  rfl

theorem decode_stringChar (c : Char) (cs : List Char) :
    Atom.decode (stringChar c ++ cs) = (Atom.decode cs).map (c :: ·) := by
  unfold stringChar
  split_ifs with hbackslash hquote hnewline htab hreturn
  case neg => rw [List.singleton_append, Atom.decode] <;> simp [hbackslash]
  all_goals
    simp only [List.cons_append, List.nil_append]
    subst c
    rfl

theorem decode_stringChars (cs : List Char) : Atom.decode (cs.flatMap stringChar) = .ok cs := by
  induction cs with
  | nil => rfl
  | cons c cs ih =>
      rw [List.flatMap_cons, decode_stringChar, ih]
      rfl

theorem ofString_stringSource (s : String) :
    Atom.ofString (String.ofList (stringSource s)) = .ok (str s) := by
  have hbody : (stringSource s).tail.dropLast = s.toList.flatMap stringChar := by
    rw [stringSource, List.cons_append, List.tail_cons, List.dropLast_concat]
  rw [Atom.ofString, String.toList_ofList, hbody, decode_stringChars]
  simp [Except.map]

theorem IsLegible.role {v : Value} (h : v.IsLegible) (last : Bool) :
    Reader.role last v.leafToken = .ok (.value v) := by
  cases h with
  | nil => exact role_word rfl rfl last
  | bool b => cases b <;> exact role_word rfl rfl last
  | int hlength =>
      exact role_word (by simp [leafToken, Value.int, source, Number.text])
        (Atom.ofWord_intText hlength) last
  | float hparts =>
      exact role_word (by simp [leafToken, source, Number.text]) (Atom.ofWord_text hparts) last
  | str s =>
      rw [leafToken, Reader.role, ofString_stringSource]
      rfl
  | sym hword hread => exact role_word (by simp [leafToken, source]) hread last
  | kw hword hread =>
      refine role_word ?_ hread last
      simp [leafToken, source, String.ofList_cons]

end Value

end Quasiquote
