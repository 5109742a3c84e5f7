import Quasiquote.Proofs.Reader.Lexing
import Quasiquote.Proofs.Value.Printed

namespace Quasiquote

namespace Value

/-- Whether a value is printed as one token. Only a symbol begins with `@` then. -/
structure IsToken (v : Value) : Prop where
  isLeaf : v.IsLeaf
  isWord : (∀ s, v ≠ str s) → IsWord v.source
  ne_tuple : ∀ items, v ≠ tuple items
  head : v.source.head? = some '@' → ∃ s, v = sym s

/-- The token that a leaf is printed as. -/
def leafToken : Value → Token
  | str s => ⟨.string, String.ofList (stringSource s)⟩
  | v => ⟨.symbol, String.ofList v.source⟩

theorem IsToken.lexes {v : Value} (h : v.IsToken) : Lexes v.source [v.leafToken] := by
  cases v with
  | str s => exact lexes_stringSource s
  | list items => exact h.isLeaf.elim
  | _ => exact (h.isWord (by simp)).lexes

/-- What is left of an argument when its `@` runs together with the escape mark before it. -/
def fusedRest? (head : Symbol) : Value → Option (List Char)
  | sym s =>
      if head = .unquote then
        match s.text.toList with
        | '@' :: rest => some rest
        | _ => none
      else none
  | _ => none

/-- Whether a tree is an escape whose mark runs together with its argument. -/
def IsFused (v : Value) : Prop :=
  ∃ s, v = list [sym .unquote, sym s] ∧ s.text.toList.head? = some '@'

def wordTokens (rest : List Char) : List Token :=
  if rest = [] then [] else [⟨.symbol, String.ofList rest⟩]

def markToken (mark : List Char) : Token :=
  ⟨if mark.head? = some '~' then .unquote else .quote, String.ofList mark⟩

mutual

/-- The tokens that a tree is printed as. -/
def tokens : Value → List Token
  | list [sym s, v] =>
      match readerMark? s, fusedRest? s v with
      | some _, some rest => ⟨.unquote, "~@"⟩ :: wordTokens rest
      | some mark, none => markToken mark :: v.tokens
      | none, _ => ⟨.opening, "("⟩ :: (sym s).leafToken :: v.tokens ++ [⟨.closing, ")"⟩]
  | list items => ⟨.opening, "("⟩ :: tokensOfItems items ++ [⟨.closing, ")"⟩]
  | v => [v.leafToken]
termination_by structural v => v

def tokensOfItems : List Value → List Token
  | [] => []
  | v :: vs => v.tokens ++ tokensOfItems vs
termination_by structural vs => vs

end

theorem tokensOfItems_eq_flatMap (items : List Value) :
    tokensOfItems items = items.flatMap tokens := by
  induction items with
  | nil => rfl
  | cons v vs ih => rw [tokensOfItems, ih, List.flatMap_cons]

theorem tokens_of_isLeaf {v : Value} (h : v.IsLeaf) : v.tokens = [v.leafToken] := by
  cases v with
  | list items => exact h.elim
  | _ => rw [tokens] <;> simp

theorem tokens_fused {s : Symbol} {rest : List Char} (h : s.text.toList = '@' :: rest) :
    (list [sym .unquote, sym s]).tokens = ⟨.unquote, "~@"⟩ :: wordTokens rest := by
  have hrest : fusedRest? .unquote (sym s) = some rest := by simp [fusedRest?, h]
  have hmark : readerMark? .unquote = some ['~'] := rfl
  rw [tokens, hmark, hrest]

theorem fusedRest?_eq_none {s : Symbol} {v : Value} (h : ¬(list [sym s, v]).IsFused) :
    fusedRest? s v = none := by
  cases v with
  | sym t =>
      rw [fusedRest?]
      split_ifs with hs
      · split
        case h_1 rest htext => exact (h ⟨t, by rw [hs], by rw [htext]; rfl⟩).elim
        case h_2 => rfl
      · rfl
  | _ => rfl

theorem tokens_marked {s : Symbol} {mark : List Char} {v : Value} (hmark : readerMark? s = some mark)
    (h : ¬(list [sym s, v]).IsFused) : (list [sym s, v]).tokens = markToken mark :: v.tokens := by
  rw [tokens, hmark, fusedRest?_eq_none h]

theorem tokens_plain {items : List Value} (h : ¬IsMarked items) :
    (list items).tokens = ⟨.opening, "("⟩ :: items.flatMap tokens ++ [⟨.closing, ")"⟩] := by
  rw [← tokensOfItems_eq_flatMap]
  by_cases hpair : ∃ s v, items = [sym s, v]
  · obtain ⟨s, v, rfl⟩ := hpair
    rw [tokens, readerMark?_eq_none h]
    simp [tokensOfItems, tokens]
  · rw [tokens]
    rintro s v rfl
    exact hpair ⟨s, v, rfl⟩

theorem lexes_mark {s : Symbol} {mark cs : List Char} {ts : List Token}
    (hmark : readerMark? s = some mark) (h : Lexes cs ts)
    (hhead : s = .unquote → cs.head? ≠ some '@') : Lexes (mark ++ cs) (markToken mark :: ts) := by
  unfold readerMark? at hmark
  split_ifs at hmark with hquote hsyntax hunquote hsplicing
  · cases hmark
    exact h.quote
  · cases hmark
    exact h.syntaxQuote
  · cases hmark
    exact h.unquote (hhead hunquote)
  · cases hmark
    exact h.splicing

theorem lexes_wordTokens {rest : List Char} (h : ∀ c ∈ rest, isSymbolChar c = true) :
    Lexes rest (wordTokens rest) := by
  unfold wordTokens
  split_ifs with hrest
  · rw [hrest]
    exact Lexes.nil
  · exact IsWord.lexes ⟨hrest, h⟩

/-- A text that a tree is printed as. A symbol has only one. -/
structure IsPrinting (v : Value) (cs : List Char) : Prop where
  lexes : Lexes cs v.tokens
  sym : ∀ s, v = sym s → cs = s.text.toList
  head : cs.head? = some '@' → ∃ s, v = Value.sym s

theorem IsToken.isPrinting {v : Value} (h : v.IsToken) : IsPrinting v v.source where
  lexes := by
    rw [tokens_of_isLeaf h.isLeaf]
    exact h.lexes
  sym := by
    rintro s rfl
    rfl
  head := h.head

theorem head?_readerMark? {s : Symbol} {mark : List Char} (h : readerMark? s = some mark) :
    ∃ c rest, mark = c :: rest ∧ c ≠ '@' := by
  unfold readerMark? at h
  split_ifs at h <;> cases h <;> exact ⟨_, _, rfl, by decide⟩

theorem IsPrinting.marked {s : Symbol} {mark cs : List Char} {v : Value}
    (hmark : readerMark? s = some mark) (hv : ∀ w ∈ v.leaves, w.IsToken) (h : IsPrinting v cs) :
    IsPrinting (list [Value.sym s, v]) (mark ++ cs) where
  lexes := by
    by_cases hfused : (list [Value.sym s, v]).IsFused
    · obtain ⟨t, heq, hhead⟩ := hfused
      cases heq
      obtain ⟨rest, hrest⟩ := List.head?_eq_some_iff.mp hhead
      have hword := (hv (Value.sym t) (by simp [leaves])).isWord (by simp)
      rw [source, hrest] at hword
      rw [tokens_fused hrest, h.sym t rfl, hrest]
      cases hmark
      exact (lexes_wordTokens fun c hc => hword.isSymbolChar c (by simp [hc])).splicing
    · rw [tokens_marked hmark hfused]
      refine lexes_mark hmark h.lexes ?_
      rintro rfl hhead
      obtain ⟨t, rfl⟩ := h.head hhead
      rw [h.sym t rfl] at hhead
      exact hfused ⟨t, rfl, hhead⟩
  sym := by simp
  head := by
    obtain ⟨c, rest, rfl, hc⟩ := head?_readerMark? hmark
    intro hhead
    exact (hc (Option.some.inj hhead)).elim

theorem IsPrinting.plain {items : List Value} {body : List Char} (h : ¬IsMarked items)
    (hbody : Lexes body (items.flatMap tokens)) : IsPrinting (list items) ('(' :: body ++ [')']) where
  lexes := by
    rw [tokens_plain h]
    exact hbody.opening.closing
  sym := by simp
  head := fun hhead => absurd (Option.some.inj hhead) (by decide)

theorem lexes_intercalate {c : Char} (hc : isGap c = true) {items : List Value}
    (h : ∀ v ∈ items, Lexes v.source v.tokens) :
    Lexes (List.intercalate [c] (items.map source)) (items.flatMap tokens) := by
  induction items with
  | nil => exact Lexes.nil
  | cons v vs ih =>
      have hv := h v (by simp)
      specialize ih fun w hw => h w (by simp [hw])
      cases vs with
      | nil => simpa [List.intercalate] using hv
      | cons w vs =>
          have hsymbol : isSymbolChar c = false := by simp [isSymbolChar, hc]
          have happend := hv.append (ih.gap hc) (breaks_cons hsymbol _)
          simpa [List.intercalate, List.intersperse] using happend

theorem isPrinting_source (v : Value) : (∀ w ∈ v.leaves, w.IsToken) → IsPrinting v v.source := by
  induction v using printedInduction with
  | leaf v hleaf =>
      intro h
      exact (h v (by simp [leaves_of_isLeaf hleaf])).isPrinting
  | marked s mark v hmark ih =>
      intro h
      have hv : ∀ w ∈ v.leaves, w.IsToken := fun w hw => h w (by simp [leaves_list, hw])
      rw [source_marked hmark]
      exact (ih hv).marked hmark hv
  | plain items hplain ih =>
      intro h
      rw [source_plain hplain]
      refine IsPrinting.plain hplain (lexes_intercalate (by decide) fun v hv => ?_)
      exact (ih v hv fun w hw => h w (mem_leaves_list hv hw)).lexes

theorem lexes_blanks {cs : List Char} {ts : List Token} (h : Lexes cs ts) (n : Nat) :
    Lexes (List.replicate n ' ' ++ cs) ts := by
  induction n with
  | zero => exact h
  | succ n ih => exact ih.gap (by decide)

theorem breaks_layoutItems (style : LineStyle) (column : Int) (items : List Value) :
    Breaks (layoutItems style column items) := by
  cases items with
  | nil => exact breaks_nil
  | cons v vs => exact breaks_cons (by decide) _

theorem lexes_layoutItems (style : LineStyle) (column : Int) {items : List Value}
    (h : ∀ v ∈ items, Lexes (v.layout style column) v.tokens) :
    Lexes (layoutItems style column items) (items.flatMap tokens) := by
  induction items with
  | nil => exact Lexes.nil
  | cons v vs ih =>
      have hv := h v (by simp)
      specialize ih fun w hw => h w (by simp [hw])
      rw [layoutItems, List.flatMap_cons]
      exact ((lexes_blanks hv _).gap (by decide)).append ih (breaks_layoutItems style column vs)

/-- However the lines of a tree are broken, it is printed as the same tokens. -/
theorem isPrinting_layout (style : LineStyle) (v : Value) :
    (∀ w ∈ v.leaves, w.IsToken) → ∀ column, IsPrinting v (v.layout style column) := by
  induction v using printedInduction with
  | leaf v hleaf =>
      intro h column
      have hv := h v (by simp [leaves_of_isLeaf hleaf])
      rw [layout_of_isLeaf hleaf hv.ne_tuple]
      exact hv.isPrinting
  | marked s mark v hmark ih =>
      intro h column
      have hv : ∀ w ∈ v.leaves, w.IsToken := fun w hw => h w (by simp [leaves_list, hw])
      rw [layout_marked hmark]
      split_ifs
      · rw [source_marked hmark]
        exact (isPrinting_source v hv).marked hmark hv
      · exact (ih hv _).marked hmark hv
  | plain items hplain ih =>
      intro h column
      cases items with
      | nil =>
          rw [layout_nil]
          exact isPrinting_source _ h
      | cons v vs =>
          have hleaves (w : Value) (hw : w ∈ v :: vs) : ∀ u ∈ w.leaves, u.IsToken :=
            fun u hu => h u (mem_leaves_list hw hu)
          rw [layout_plain hplain]
          split_ifs
          · exact isPrinting_source _ h
          · have hhead := (ih v (by simp) (hleaves v (by simp)) (column + 1)).lexes
            have hrest := @lexes_layoutItems style (column + style.indent) vs fun w hw =>
              (ih w (by simp [hw]) (hleaves w (by simp [hw])) _).lexes
            exact IsPrinting.plain hplain (hhead.append hrest (breaks_layoutItems _ _ vs))

end Value

end Quasiquote
