import Quasiquote.Proofs.Reader.Grammar
import Quasiquote.Proofs.Reader.Reading
import Quasiquote.Proofs.Reader.Shape

namespace Quasiquote

open Reader

namespace Atom

/-- The characters that stand behind the backslashes of a string token. -/
def escapedChars : List Char → List Char
  | '\\' :: c :: cs => c :: escapedChars cs
  | _ :: cs => escapedChars cs
  | [] => []

/-- The characters that a backslash may escape. -/
def escapable : List Char := ['n', 't', 'r', '\\', '"']

theorem decode_plain {c : Char} (h : c ≠ '\\') (cs : List Char) :
    decode (c :: cs) = (decode cs).map (c :: ·) := by
  rw [decode]
  · rintro rfl
    exact (h rfl).elim
  · rintro d ds rfl
    exact (h rfl).elim

theorem escapedChars_plain {c : Char} (h : c ≠ '\\') (cs : List Char) :
    escapedChars (c :: cs) = escapedChars cs := by
  rw [escapedChars]
  rintro d ds rfl
  exact (h rfl).elim

theorem unescape?_eq_none_iff {c : Char} : unescape? c = none ↔ c ∉ escapable := by
  unfold unescape? escapable
  split_ifs <;> simp [*]

theorem decode_cases {body : List Char} (h : IsStringBody body) :
    ((∀ c ∈ escapedChars body, c ∈ escapable) ∧ ∃ cs, decode body = .ok cs) ∨
      (¬∀ c ∈ escapedChars body, c ∈ escapable) ∧ ∃ fault, decode body = .error (.malformed fault) := by
  induction h with
  | nil => exact .inl ⟨by simp [escapedChars], [], rfl⟩
  | @plain c cs hbackslash _ _ ih =>
      rw [decode_plain hbackslash, escapedChars_plain hbackslash]
      rcases ih with ⟨hknown, ds, hds⟩ | ⟨hunknown, fault, hfault⟩
      · exact .inl ⟨hknown, c :: ds, by rw [hds]; rfl⟩
      · exact .inr ⟨hunknown, fault, by rw [hfault]; rfl⟩
  | @escape c cs _ ih =>
      rw [escapedChars, decode, List.forall_mem_cons]
      cases hc : unescape? c with
      | none =>
          have hunknown := unescape?_eq_none_iff.mp hc
          exact .inr ⟨fun h => hunknown h.1, _, rfl⟩
      | some d =>
          have hknown : c ∈ escapable := by
            by_contra hunknown
            rw [unescape?_eq_none_iff.mpr hunknown] at hc
            cases hc
          rcases ih with ⟨hrest, ds, hds⟩ | ⟨hunknown, fault, hfault⟩
          · exact .inl ⟨⟨hknown, hrest⟩, d :: ds, by simp only [hds]; rfl⟩
          · exact .inr ⟨fun h => hunknown h.2, fault, by simp only [hfault]; rfl⟩

theorem ofWord_cases {word : String}
    (h : ∀ negative digits, integer? word.toList = some (negative, digits) →
      digits.length ≤ digitLimit) :
    (word ≠ ":" ∧ ∃ v, ofWord word = .ok v) ∨
      word = ":" ∧ ofWord word = .error (.malformed .namelessKeyword) := by
  by_cases hcolon : word = ":"
  · exact .inr ⟨hcolon, by rw [hcolon]; rfl⟩
  refine .inl ⟨hcolon, ?_⟩
  unfold ofWord
  split_ifs
  · exact ⟨_, rfl⟩
  · exact ⟨_, rfl⟩
  · exact ⟨_, rfl⟩
  split
  case h_1 negative digits hdigits =>
    rw [if_neg (Nat.not_lt.mpr (h _ _ hdigits))]
    exact ⟨_, rfl⟩
  split
  case h_1 => exact ⟨_, rfl⟩
  split
  case h_1 hword => exact (hcolon (String.toList_inj.mp hword)).elim
  case h_2 => exact ⟨_, rfl⟩
  case h_3 => exact ⟨_, rfl⟩

theorem length_splitSign_le (cs : List Char) : (splitSign cs).2.length ≤ cs.length := by
  unfold splitSign
  split <;> simp

theorem length_le_of_integer? {cs digits : List Char} {negative : Bool}
    (h : integer? cs = some (negative, digits)) : digits.length ≤ cs.length := by
  have hsplit := length_splitSign_le cs
  simp only [integer?] at h
  split at h
  · cases h
    exact hsplit
  · cases h

end Atom

namespace Token

/-- Whether a token is no integer of too many digits. -/
def IsShort (token : Token) : Prop :=
  token.kind = .symbol → ∀ negative digits,
    Atom.integer? token.text.toList = some (negative, digits) → digits.length ≤ Atom.digitLimit

theorem isShort_of_length {token : Token} (h : token.text.toList.length ≤ Atom.digitLimit) :
    token.IsShort :=
  fun _ _ _ hdigits => Nat.le_trans (Atom.length_le_of_integer? hdigits) h

/-- Whether a token is no colon that stands alone, and no string with an unknown escape. -/
structure IsDecodable (token : Token) : Prop where
  word : token.kind = .symbol → token.text ≠ ":"
  string : token.kind = .string →
    ∀ c ∈ Atom.escapedChars token.text.toList.tail.dropLast, c ∈ Atom.escapable

theorem IsShaped.cases {token : Token} (h : token.IsShaped) :
    (∃ text, token = ⟨.symbol, text⟩) ∨ (∃ text, token = ⟨.string, text⟩) ∨
      (∃ mark : Mark, token = mark.token) ∨ (∃ bracket : Bracket, token = bracket.opening) ∨
        ∃ bracket : Bracket, token = bracket.closing := by
  obtain ⟨kind, text⟩ := token
  cases kind with
  | symbol => exact .inl ⟨text, rfl⟩
  | string => exact .inr (.inl ⟨text, rfl⟩)
  | quote =>
      refine .inr (.inr (.inl ?_))
      rcases h with rfl | rfl
      · exact ⟨.quote, rfl⟩
      · exact ⟨.syntaxQuote, rfl⟩
  | unquote =>
      refine .inr (.inr (.inl ?_))
      rcases h with rfl | rfl
      · exact ⟨.unquote, rfl⟩
      · exact ⟨.splicing, rfl⟩
  | opening =>
      refine .inr (.inr (.inr (.inl ?_)))
      rcases h with rfl | rfl
      · exact ⟨.round, rfl⟩
      · exact ⟨.square, rfl⟩
  | closing =>
      refine .inr (.inr (.inr (.inr ?_)))
      rcases h with rfl | rfl
      · exact ⟨.round, rfl⟩
      · exact ⟨.square, rfl⟩
  | other label => exact h.elim

theorem IsShaped.normal_eq {token : Token} (h : token.IsShaped) : token.normal = token := by
  rcases h.cases with ⟨text, rfl⟩ | ⟨text, rfl⟩ | ⟨mark, rfl⟩ | ⟨bracket, rfl⟩ | ⟨bracket, rfl⟩
  · rfl
  · rfl
  · exact mark.normal_token
  · cases bracket <;> rfl
  · cases bracket <;> rfl

theorem isDecodable_of_kind {token : Token} (hword : token.kind ≠ .symbol)
    (hstring : token.kind ≠ .string) : token.IsDecodable :=
  ⟨fun h => (hword h).elim, fun h => (hstring h).elim⟩

theorem isDecodable_mark (mark : Mark) : mark.token.IsDecodable := by
  cases mark <;> exact isDecodable_of_kind (by decide) (by decide)

theorem isDecodable_opening (bracket : Bracket) : bracket.opening.IsDecodable := by
  cases bracket <;> exact isDecodable_of_kind (by decide) (by decide)

theorem isDecodable_closing (bracket : Bracket) : bracket.closing.IsDecodable := by
  cases bracket <;> exact isDecodable_of_kind (by decide) (by decide)

theorem word_cases {text : String} (h : (⟨.symbol, text⟩ : Token).IsShort) :
    ((⟨.symbol, text⟩ : Token).IsDecodable ∧ ∃ v, Atom.ofWord text = .ok v) ∨
      ¬(⟨.symbol, text⟩ : Token).IsDecodable ∧
        ∃ fault, Atom.ofWord text = .error (.malformed fault) := by
  rcases Atom.ofWord_cases (h rfl) with ⟨hcolon, hv⟩ | ⟨hcolon, hfault⟩
  · exact .inl ⟨⟨fun _ => hcolon, nofun⟩, hv⟩
  · exact .inr ⟨fun h => h.word rfl hcolon, _, hfault⟩

theorem string_cases {text : String} (h : (⟨.string, text⟩ : Token).IsShaped) :
    ((⟨.string, text⟩ : Token).IsDecodable ∧ ∃ v, Atom.ofString text = .ok v) ∨
      ¬(⟨.string, text⟩ : Token).IsDecodable ∧
        ∃ fault, Atom.ofString text = .error (.malformed fault) := by
  obtain ⟨body, hbody, htext⟩ := h
  have hinner : text.toList.tail.dropLast = body := by
    rw [htext]
    simp
  unfold Atom.ofString
  rw [hinner]
  rcases Atom.decode_cases hbody with ⟨hknown, cs, hcs⟩ | ⟨hunknown, fault, hfault⟩
  · exact .inl ⟨⟨nofun, fun _ => hinner ▸ hknown⟩, _, by rw [hcs]; rfl⟩
  · exact .inr ⟨fun h => hunknown (hinner ▸ h.string rfl), fault, by rw [hfault]; rfl⟩

end Token

theorem Mark.role_token (mark : Mark) (last : Bool) :
    role last mark.token = .ok (.mark mark.head) := by
  cases mark <;> rfl

theorem Mark.exists_of_headOf? {text : String} {head : Symbol} (h : headOf? text = some head) :
    ∃ mark : Mark, mark.token.text = text ∧ mark.head = head := by
  unfold headOf? at h
  split_ifs at h <;> cases h <;> subst text
  · exact ⟨.quote, rfl, rfl⟩
  · exact ⟨.syntaxQuote, rfl, rfl⟩
  · exact ⟨.unquote, rfl, rfl⟩
  · exact ⟨.splicing, rfl, rfl⟩

namespace Bracket

theorem role_opening (bracket : Bracket) (last : Bool) :
    role last bracket.opening = .ok (.opener bracket.closing.text) := by
  cases bracket <;> rfl

theorem role_closing (bracket : Bracket) (last : Bool) :
    role last bracket.closing = .ok .closer := by
  cases bracket <;> rfl

theorem exists_of_closerOf? {text closer : String} (h : closerOf? text = some closer) :
    ∃ bracket : Bracket, bracket.opening.text = text ∧ bracket.closing.text = closer := by
  unfold closerOf? at h
  split_ifs at h <;> cases h <;> subst text
  · exact ⟨.round, rfl, rfl⟩
  · exact ⟨.square, rfl, rfl⟩

end Bracket

namespace Derivation

theorem forall₂_reads {unclosed : Option Nat} {ds : List Derivation} {vs : List Value}
    (h : List.Forall₂ (fun d v => d.tree = .ok v) ds vs)
    (hds : ∀ d ∈ ds, ∀ v, d.tree = .ok v → Reads unclosed d.tokens v) :
    List.Forall₂ (Reads unclosed) (ds.map tokens) vs := by
  induction h with
  | nil => exact .nil
  | cons hd _ ih =>
      exact .cons (hds _ (by simp) _ hd) (ih fun d hd => hds d (by simp [hd]))

theorem reads (unclosed : Option Nat) (d : Derivation) :
    ∀ v, d.tree = .ok v → Reads unclosed d.tokens v := by
  induction d using induction with
  | symbol text =>
      intro v h
      have hv : Atom.ofWord text = .ok v := h
      exact .atom fun last => by rw [role, hv]; rfl
  | string text =>
      intro v h
      have hv : Atom.ofString text = .ok v := h
      exact .atom fun last => by rw [role, hv]; rfl
  | marked mark form ih =>
      intro v h
      rw [tree] at h
      obtain ⟨w, hw, ⟨⟩⟩ := bind_eq_ok.mp h
      exact .marked mark.role_token (ih w hw)
  | group bracket forms ih =>
      intro v h
      rw [tree] at h
      obtain ⟨vs, hvs, ⟨⟩⟩ := bind_eq_ok.mp h
      rw [tokens, tokensOfAll_eq_flatten]
      exact .group bracket.role_opening bracket.role_closing
        (forall₂_reads (trees_eq_ok_iff.mp hvs) ih)

theorem all_tokensOfAll {ds : List Derivation} {forms : List Value} (h : trees ds = .ok forms) :
    all none [] (tokensOfAll ds) = (forms, none) := by
  rw [tokensOfAll_eq_flatten]
  exact all_flatten (forall₂_reads (trees_eq_ok_iff.mp h) fun d _ => d.reads none)

theorem exists_tree_iff (d : Derivation) : (∀ token ∈ d.tokens, token.IsShaped ∧ token.IsShort) →
    ((∃ v, d.tree = .ok v) ↔ ∀ token ∈ d.tokens, token.IsDecodable) := by
  induction d using induction with
  | symbol text =>
      intro h
      rw [tokens, List.forall_mem_singleton] at h ⊢
      rcases Token.word_cases h.2 with ⟨hdecodable, hv⟩ | ⟨hnot, fault, hfault⟩
      · exact iff_of_true hv hdecodable
      · refine iff_of_false ?_ hnot
        rintro ⟨v, hv⟩
        cases hfault.symm.trans hv
  | string text =>
      intro h
      rw [tokens, List.forall_mem_singleton] at h ⊢
      rcases Token.string_cases h.1 with ⟨hdecodable, hv⟩ | ⟨hnot, fault, hfault⟩
      · exact iff_of_true hv hdecodable
      · refine iff_of_false ?_ hnot
        rintro ⟨v, hv⟩
        cases hfault.symm.trans hv
  | marked mark form ih =>
      intro h
      rw [tokens, List.forall_mem_cons] at h ⊢
      rw [← ih h.2, and_iff_right (Token.isDecodable_mark mark)]
      simp only [tree, bind_eq_ok]
      constructor
      · rintro ⟨_, w, hw, -⟩
        exact ⟨w, hw⟩
      · rintro ⟨w, hw⟩
        exact ⟨_, w, hw, rfl⟩
  | group bracket forms ih =>
      intro h
      have hforms : ∀ d ∈ forms, ∀ token ∈ d.tokens, token.IsShaped ∧ token.IsShort := by
        intro d hd token htoken
        refine h token ?_
        rw [tokens, List.mem_cons, List.mem_append]
        exact .inr (.inl (mem_tokensOfAll.mpr ⟨d, hd, htoken⟩))
      simp only [tree, bind_eq_ok]
      constructor
      · rintro ⟨_, vs, hvs, -⟩ token htoken
        rw [tokens, List.mem_cons, List.mem_append, List.mem_singleton] at htoken
        rcases htoken with rfl | htoken | rfl
        · exact Token.isDecodable_opening bracket
        · obtain ⟨d, hd, htoken⟩ := mem_tokensOfAll.mp htoken
          exact (ih d hd (hforms d hd)).mp (exists_trees_iff.mp ⟨vs, hvs⟩ d hd) token htoken
        · exact Token.isDecodable_closing bracket
      · intro hdecodable
        obtain ⟨vs, hvs⟩ := exists_trees_iff.mpr fun d hd => (ih d hd (hforms d hd)).mpr fun token htoken =>
          hdecodable token (by
            rw [tokens, List.mem_cons, List.mem_append]
            exact .inr (.inl (mem_tokensOfAll.mpr ⟨d, hd, htoken⟩)))
        exact ⟨_, vs, hvs, rfl⟩

end Derivation

open Quasiquote.Derivation

namespace Reader

/-- The tokens that have been taken for what waits on a stack. -/
inductive Opened : List Pending → List Token → Prop
  | nil : Opened [] []
  | group {stack : List Pending} {ts : List Token} (h : Opened stack ts) (bracket : Bracket)
      {ds : List Derivation} {vs : List Value} (hvs : trees ds = .ok vs) :
      Opened (.group bracket.opening.text bracket.closing.text vs.reverse :: stack)
        (ts ++ bracket.opening :: tokensOfAll ds)
  | mark {stack : List Pending} {ts : List Token} (h : Opened stack ts) (mark : Mark) :
      Opened (.mark mark.token.text mark.head :: stack) (ts ++ [mark.token])

/-- The tokens that have been taken for a state of the reader. -/
def Accounts : List Pending ⊕ Value → List Token → Prop
  | .inl stack, ts => Opened stack ts
  | .inr v, ts => ∃ d : Derivation, d.tokens = ts ∧ d.tree = .ok v

theorem accounts_deliver {stack : List Pending} {ts : List Token} (h : Opened stack ts)
    {d : Derivation} {v : Value} (hd : d.tree = .ok v) :
    Accounts (deliver v stack) (ts ++ d.tokens) := by
  induction h generalizing d v with
  | nil => exact ⟨d, rfl, hd⟩
  | @group stack ts h bracket ds vs hvs _ =>
      have hopened := Opened.group h bracket (trees_concat hvs hd)
      rw [tokensOfAll_append, List.reverse_append, tokensOfAll, tokensOfAll, List.append_nil]
        at hopened
      rw [List.append_assoc, List.cons_append]
      exact hopened
  | mark h mark ih =>
      rw [List.append_assoc]
      exact ih (tree_marked hd mark)

theorem role_normal (last : Bool) (token : Token) : role last token.normal = role last token := by
  obtain ⟨kind, text⟩ := token
  cases kind with
  | quote | unquote =>
      unfold Token.normal
      dsimp only
      split <;> rfl
  | _ => rfl

theorem shift_normal (last : Bool) (token : Token) (stack : List Pending) :
    shift last token.normal stack = shift last token stack := by
  unfold shift
  rw [role_normal, token.text_normal]

theorem role_cases {last : Bool} {token : Token} {r : TokenRole} (h : role last token = .ok r) :
    (∃ (d : Derivation) (v : Value), r = .value v ∧ d.tokens = [token.normal] ∧ d.tree = .ok v) ∨
      (∃ mark : Mark, r = .mark mark.head ∧ token.normal = mark.token) ∨
      (∃ bracket : Bracket, r = .opener bracket.closing.text ∧ token.normal = bracket.opening) ∨
        r = .closer ∧ token.normal = ⟨.closing, token.text⟩ := by
  obtain ⟨kind, text⟩ := token
  cases kind with
  | symbol =>
      obtain ⟨v, hv, rfl⟩ := map_eq_ok h
      exact .inl ⟨.symbol text, v, rfl, rfl, hv⟩
  | string =>
      obtain ⟨v, hv, rfl⟩ := map_eq_ok h
      exact .inl ⟨.string text, v, rfl, rfl, hv⟩
  | quote | unquote =>
      unfold role at h
      dsimp only at h
      split at h
      case h_1 head hhead =>
        cases h
        obtain ⟨mark, rfl, rfl⟩ := Mark.exists_of_headOf? hhead
        exact .inr (.inl ⟨mark, rfl, by cases mark <;> rfl⟩)
      case h_2 => split at h <;> cases h
  | opening =>
      unfold role at h
      dsimp only at h
      split at h
      case h_1 closer hcloser =>
        cases h
        obtain ⟨bracket, rfl, rfl⟩ := Bracket.exists_of_closerOf? hcloser
        exact .inr (.inr (.inl ⟨bracket, rfl, by cases bracket <;> rfl⟩))
      case h_2 => cases h
  | closing =>
      cases h
      exact .inr (.inr (.inr ⟨rfl, rfl⟩))
  | other label => cases h

theorem accounts_shift {last : Bool} {token : Token} {stack : List Pending} {ts : List Token}
    {state : List Pending ⊕ Value} (h : Opened stack ts)
    (hshift : shift last token stack = .ok state) : Accounts state (ts ++ [token.normal]) := by
  obtain ⟨r, hrole, hstate⟩ := bind_eq_ok.mp hshift
  rcases role_cases hrole with ⟨d, v, rfl, hd, hv⟩ | ⟨mark, rfl, hmark⟩ |
    ⟨bracket, rfl, hopening⟩ | ⟨rfl, hclosing⟩
  · cases hstate
    rw [← hd]
    exact accounts_deliver h hv
  · cases hstate
    rw [← token.text_normal, hmark]
    exact .mark h mark
  · cases hstate
    rw [← token.text_normal, hopening]
    exact .group h bracket (rfl : trees [] = .ok [])
  · cases h with
    | nil => exact nomatch hstate
    | mark h mark => exact nomatch hstate
    | @group stack ts h bracket ds vs hvs =>
        change (if _ then _ else _) = _ at hstate
        split at hstate
        case isTrue hcloser =>
          cases hstate
          have hbracket : token.normal = bracket.closing := by
            rw [hclosing, hcloser]
            cases bracket <;> rfl
          rw [List.reverse_reverse, List.append_assoc, List.cons_append, hbracket]
          exact accounts_deliver h (tree_group hvs bracket)
        case isFalse => exact nomatch hstate

/-- What is read without a failure has a derivation. -/
theorem exists_trees_of_all {unclosed : Option Nat} {stack : List Pending} {ts rest : List Token}
    {forms : List Value} (h : Opened stack ts) (hshaped : ∀ token ∈ rest, token.IsShaped)
    (hall : all unclosed stack rest = (forms, none)) :
    unclosed = none ∧ ∃ ds, tokensOfAll ds = ts ++ rest ∧ trees ds = .ok forms := by
  -- Each token moves from those that follow to those that the stack accounts for.
  induction rest generalizing stack ts forms with
  | nil =>
      unfold all at hall
      split at hall
      · cases h
        cases hall
        exact ⟨rfl, [], rfl, rfl⟩
      · cases (Prod.mk.inj hall).2
  | cons token rest ih =>
      cases hshift : shift (rest.isEmpty && unclosed.isNone) token stack with
      | error failure =>
          rw [all, hshift] at hall
          cases (Prod.mk.inj hall).2
      | ok state =>
          have haccounts := accounts_shift h hshift
          rw [(hshaped token (by simp)).normal_eq] at haccounts
          have hrest : ∀ token ∈ rest, token.IsShaped := fun t ht => hshaped t (by simp [ht])
          rw [all_cons_of_shift hshift] at hall
          cases state with
          | inl stack =>
              obtain ⟨hnone, ds, hds, htrees⟩ := ih haccounts hrest hall
              exact ⟨hnone, ds, by rw [hds, List.append_assoc, List.singleton_append], htrees⟩
          | inr v =>
              obtain ⟨d, hd, hv⟩ := haccounts
              obtain ⟨rfl, hfailure⟩ := Prod.mk.inj hall
              obtain ⟨hnone, ds, hds, htrees⟩ := ih .nil hrest (Prod.ext rfl hfailure)
              refine ⟨hnone, d :: ds, ?_, trees_eq_ok_iff.mpr (.cons hv (trees_eq_ok_iff.mp htrees))⟩
              rw [tokensOfAll, hd, hds, List.nil_append, List.append_assoc, List.singleton_append]

theorem malformed_of_shift {last : Bool} {token : Token} {stack : List Pending} {failure : Failure}
    (hshaped : token.IsShaped) (hshort : token.IsShort)
    (h : shift last token stack = .error failure) : ∃ fault, failure = .malformed fault := by
  rcases hshaped.cases with ⟨text, rfl⟩ | ⟨text, rfl⟩ | ⟨mark, rfl⟩ | ⟨bracket, rfl⟩ | ⟨bracket, rfl⟩
  · rcases Token.word_cases hshort with ⟨-, v, hv⟩ | ⟨-, fault, hfault⟩
    · rw [shift_value (v := v) (by rw [role, hv]; rfl)] at h
      cases h
    · cases (shift_error (by rw [role, hfault]; rfl) stack).symm.trans h
      exact ⟨fault, rfl⟩
  · rcases Token.string_cases hshaped with ⟨-, v, hv⟩ | ⟨-, fault, hfault⟩
    · rw [shift_value (v := v) (by rw [role, hv]; rfl)] at h
      cases h
    · cases (shift_error (by rw [role, hfault]; rfl) stack).symm.trans h
      exact ⟨fault, rfl⟩
  · cases (shift_mark (mark.role_token last) stack).symm.trans h
  · cases (shift_opener (bracket.role_opening last) stack).symm.trans h
  · unfold shift at h
    rw [bracket.role_closing] at h
    rcases stack with _ | ⟨⟨opener, closer, reversed⟩ | ⟨mark, s⟩, stack⟩
    · cases h
      exact ⟨_, rfl⟩
    · change (if _ then _ else _) = _ at h
      split at h
      · cases h
      · cases h
        exact ⟨_, rfl⟩
    · cases h
      exact ⟨_, rfl⟩

theorem malformed_of_all {unclosed : Option Nat} {stack : List Pending} {ts : List Token}
    {failure : Failure} (hshaped : ∀ token ∈ ts, token.IsShaped) (hshort : ∀ token ∈ ts, token.IsShort)
    (h : (all unclosed stack ts).2 = some failure) : ∃ fault, failure = .malformed fault := by
  induction ts generalizing stack with
  | nil =>
      unfold all at h
      split at h
      · exact nomatch h
      · cases h
        unfold endFailure
        split <;> exact ⟨_, rfl⟩
  | cons token rest ih =>
      cases hshift : shift (rest.isEmpty && unclosed.isNone) token stack with
      | error failure =>
          rw [all, hshift] at h
          cases h
          exact malformed_of_shift (hshaped token (by simp)) (hshort token (by simp)) hshift
      | ok state =>
          have hrest (stack : List Pending) (h : (all unclosed stack rest).2 = some failure) :=
            ih (fun t ht => hshaped t (by simp [ht])) (fun t ht => hshort t (by simp [ht])) h
          rw [all_cons_of_shift hshift] at h
          cases state with
          | inl stack => exact hrest stack h
          | inr v => exact hrest [] h

theorem tokens_eq_ok_iff {text : List Char} {ts : List Token} :
    tokens text = .ok ts ↔ Lexemes.ofText text = ⟨ts, none⟩ := by
  unfold tokens
  cases hlexed : Lexemes.ofText text with
  | mk lexed unclosed =>
      cases unclosed with
      | none =>
          rw [Lexemes.mk.injEq, and_iff_left rfl]
          exact ⟨Except.ok.inj, congrArg Except.ok⟩
      | some position => exact iff_of_false nofun (by simp)

/-- A text is read exactly if its tokens have a derivation and all of them can be decoded. It is
then read as the trees that the one derivation stands for. Any other text is malformed. -/
theorem readAll_iff_derivation {text : List Char}
    (h : ∀ token ∈ (Lexemes.ofText text).tokens, token.IsShort) :
    ((∃ forms, readAll text = .ok forms) ↔ ∃ ds, tokens text = .ok (tokensOfAll ds) ∧
      ∀ token ∈ tokensOfAll ds, token.IsDecodable) ∧
    (∀ forms, readAll text = .ok forms ↔
      ∃ ds, tokens text = .ok (tokensOfAll ds) ∧ trees ds = .ok forms) ∧
    (∀ ds ds', tokensOfAll ds = tokensOfAll ds' → ds = ds') ∧
    ∀ failure, readAll text = .error failure → ∃ fault, failure = .malformed fault := by
  have hshaped : ∀ token ∈ (Lexemes.ofText text).tokens, token.IsShaped := fun _ =>
    Lexemes.isShaped_of_mem
  have hread (forms : List Value) : readAll text = .ok forms ↔
      ∃ ds, tokens text = .ok (tokensOfAll ds) ∧ trees ds = .ok forms := by
    constructor
    · intro hforms
      obtain ⟨hclosed, ds, hds, htrees⟩ :=
        exists_trees_of_all .nil hshaped (readAll_eq_ok_iff.mp hforms)
      refine ⟨ds, tokens_eq_ok_iff.mpr ?_, htrees⟩
      rw [hds, ← hclosed]
      rfl
    · rintro ⟨ds, hds, htrees⟩
      rw [readAll_eq_ok_iff, tokens_eq_ok_iff.mp hds]
      exact all_tokensOfAll htrees
  have hdecodable (ds : List Derivation) (hds : tokens text = .ok (tokensOfAll ds)) :
      (∃ forms, trees ds = .ok forms) ↔ ∀ token ∈ tokensOfAll ds, token.IsDecodable := by
    have hsound (d : Derivation) (hd : d ∈ ds) (token : Token) (htoken : token ∈ d.tokens) :
        token.IsShaped ∧ token.IsShort := by
      have hmem : token ∈ (Lexemes.ofText text).tokens := by
        rw [tokens_eq_ok_iff.mp hds]
        exact mem_tokensOfAll.mpr ⟨d, hd, htoken⟩
      exact ⟨hshaped token hmem, h token hmem⟩
    rw [exists_trees_iff]
    constructor
    · intro htrees token htoken
      obtain ⟨d, hd, htoken⟩ := mem_tokensOfAll.mp htoken
      exact (d.exists_tree_iff (hsound d hd)).mp (htrees d hd) token htoken
    · exact fun htokens d hd => (d.exists_tree_iff (hsound d hd)).mpr fun token htoken =>
        htokens token (mem_tokensOfAll.mpr ⟨d, hd, htoken⟩)
  refine ⟨⟨?_, ?_⟩, hread, fun _ _ => tokensOfAll_injective, fun failure hfailure => ?_⟩
  · rintro ⟨forms, hforms⟩
    obtain ⟨ds, hds, htrees⟩ := (hread forms).mp hforms
    exact ⟨ds, hds, (hdecodable ds hds).mp ⟨forms, htrees⟩⟩
  · rintro ⟨ds, hds, htokens⟩
    obtain ⟨forms, htrees⟩ := (hdecodable ds hds).mpr htokens
    exact ⟨forms, (hread forms).mpr ⟨ds, hds, htrees⟩⟩
  · exact malformed_of_all hshaped h (readAll_eq_error_iff.mp hfailure)

theorem readAll_iff_derivation_grouped :
    (∃ ds, tokens "'(a [\"x\\n\" ~@b] -12)".toList = .ok (tokensOfAll ds) ∧
      trees ds = .ok [.list [.sym .quote, .list [.bare "a",
        .list [.str "x\n", .list [.sym .unquoteSplicing, .bare "b"]], .int (-12)]]]) ∧
    ¬∃ ds, tokens "'(a [\"x\\n\" ~@b) -12]".toList = .ok (tokensOfAll ds) ∧
      ∀ token ∈ tokensOfAll ds, token.IsDecodable := by
  constructor
  · refine ((readAll_iff_derivation fun token htoken => ?_).2.1 _).mp rfl
    refine Token.isShort_of_length ?_
    revert token
    decide
  · rw [← (readAll_iff_derivation fun token htoken => ?_).1]
    · rintro ⟨forms, hforms⟩
      exact nomatch hforms
    · refine Token.isShort_of_length ?_
      revert token
      decide

end Reader

end Quasiquote
