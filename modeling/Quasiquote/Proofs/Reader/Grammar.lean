import Mathlib.Data.List.Forall2
import Quasiquote.Proofs.Outcome
import Quasiquote.Reader.Form

/-!
The grammar of source text. A form is a symbol token, a string token, a mark with a form, or a group
of forms between brackets that match. A derivation is a tree of these rules; its tokens determine
it, and they determine the tree of values that it stands for.
-/

namespace Quasiquote

/-- The marks that stand before a form. -/
inductive Mark where
  | quote
  | syntaxQuote
  | unquote
  | splicing
deriving DecidableEq

namespace Mark

/-- The symbol that heads the list that a marked form stands for. -/
def head : Mark → Symbol
  | quote => .quote
  | syntaxQuote => .syntaxQuote
  | unquote => .unquote
  | splicing => .unquoteSplicing

def token : Mark → Token
  | quote => ⟨.quote, "'"⟩
  | syntaxQuote => ⟨.quote, "\x60"⟩
  | unquote => ⟨.unquote, "~"⟩
  | splicing => ⟨.unquote, "~@"⟩

theorem token_injective {mark mark' : Mark} (h : mark.token = mark'.token) : mark = mark' := by
  revert h
  cases mark <;> cases mark' <;> simp [token]

end Mark

/-- A mark with the kind that belongs to its text. The reader goes by the text of a mark, so that it
takes a mark of the other kind for the same. -/
def Token.normal (token : Token) : Token :=
  match token.kind with
  | .quote | .unquote =>
      if token.text = "'" ∨ token.text = "\x60" then ⟨.quote, token.text⟩
      else ⟨.unquote, token.text⟩
  | _ => token

theorem Mark.normal_token (mark : Mark) : mark.token.normal = mark.token := by
  cases mark <;> rfl

theorem Token.text_normal (token : Token) : token.normal.text = token.text := by
  unfold normal
  split
  case h_1 | h_2 => split <;> rfl
  case h_3 => rfl

/-- The brackets around a group. Both kinds of groups are lists. -/
inductive Bracket where
  | round
  | square
deriving DecidableEq

namespace Bracket

def opening : Bracket → Token
  | round => ⟨.opening, "("⟩
  | square => ⟨.opening, "["⟩

def closing : Bracket → Token
  | round => ⟨.closing, ")"⟩
  | square => ⟨.closing, "]"⟩

theorem opening_injective {bracket bracket' : Bracket} (h : bracket.opening = bracket'.opening) :
    bracket = bracket' := by
  revert h
  cases bracket <;> cases bracket' <;> simp [opening]

end Bracket

/-- A derivation of a form. -/
inductive Derivation where
  | symbol (text : String)
  | string (text : String)
  | marked (mark : Mark) (form : Derivation)
  | group (bracket : Bracket) (forms : List Derivation)

namespace Derivation

mutual

/-- The tokens of a derivation, from left to right. -/
def tokens : Derivation → List Token
  | symbol text => [⟨.symbol, text⟩]
  | string text => [⟨.string, text⟩]
  | marked mark form => mark.token :: form.tokens
  | group bracket forms => bracket.opening :: (tokensOfAll forms ++ [bracket.closing])
termination_by structural d => d

def tokensOfAll : List Derivation → List Token
  | [] => []
  | d :: ds => d.tokens ++ tokensOfAll ds
termination_by structural ds => ds

end

mutual

/-- The tree that a derivation stands for, if its atoms can be decoded. -/
def tree : Derivation → Except Failure Value
  | symbol text => Atom.ofWord text
  | string text => Atom.ofString text
  | marked mark form => do pure (.list [.sym mark.head, ← form.tree])
  | group _ forms => do pure (.list (← trees forms))
termination_by structural d => d

def trees : List Derivation → Except Failure (List Value)
  | [] => pure []
  | d :: ds => do
      let v ← d.tree
      pure (v :: (← trees ds))
termination_by structural ds => ds

end

theorem induction {P : Derivation → Prop} (symbol : ∀ text, P (symbol text))
    (string : ∀ text, P (string text)) (marked : ∀ mark form, P form → P (marked mark form))
    (group : ∀ bracket forms, (∀ d ∈ forms, P d) → P (group bracket forms)) : ∀ d, P d := by
  intro d
  induction h : sizeOf d using Nat.strongRecOn generalizing d with
  | ind n ih =>
      subst h
      cases d with
      | symbol text => exact symbol text
      | string text => exact string text
      | marked mark form =>
          refine marked mark form (ih _ ?_ form rfl)
          simp only [Derivation.marked.sizeOf_spec]
          omega
      | group bracket forms =>
          refine group bracket forms fun d hd => ih _ ?_ d rfl
          have := List.sizeOf_lt_of_mem hd
          simp only [Derivation.group.sizeOf_spec]
          omega

theorem tokensOfAll_eq_flatten (ds : List Derivation) :
    tokensOfAll ds = (ds.map tokens).flatten := by
  induction ds with
  | nil => rfl
  | cons d ds ih => rw [tokensOfAll, ih, List.map_cons, List.flatten_cons]

theorem tokensOfAll_append (ds es : List Derivation) :
    tokensOfAll (ds ++ es) = tokensOfAll ds ++ tokensOfAll es := by
  simp only [tokensOfAll_eq_flatten, List.map_append, List.flatten_append]

theorem mem_tokensOfAll {token : Token} {ds : List Derivation} :
    token ∈ tokensOfAll ds ↔ ∃ d ∈ ds, token ∈ d.tokens := by
  simp only [tokensOfAll_eq_flatten, List.mem_flatten, List.mem_map, exists_exists_and_eq_and]

theorem trees_eq_ok_iff {ds : List Derivation} {vs : List Value} :
    trees ds = .ok vs ↔ List.Forall₂ (fun d v => d.tree = .ok v) ds vs := by
  induction ds generalizing vs with
  | nil =>
      rw [List.forall₂_nil_left_iff]
      constructor
      · rintro ⟨⟩
        rfl
      · rintro rfl
        rfl
  | cons d ds ih =>
      simp only [trees, bind_eq_ok, List.forall₂_cons_left_iff, ← ih]
      constructor
      · rintro ⟨v, hv, ws, hws, ⟨⟩⟩
        exact ⟨v, ws, hv, hws, rfl⟩
      · rintro ⟨v, ws, hv, hws, rfl⟩
        exact ⟨v, hv, ws, hws, rfl⟩

theorem trees_concat {ds : List Derivation} {d : Derivation} {vs : List Value} {v : Value}
    (hds : trees ds = .ok vs) (hd : d.tree = .ok v) : trees (ds ++ [d]) = .ok (vs ++ [v]) :=
  trees_eq_ok_iff.mpr (List.rel_append (trees_eq_ok_iff.mp hds) (.cons hd .nil))

theorem tree_marked {d : Derivation} {v : Value} (hd : d.tree = .ok v) (mark : Mark) :
    (marked mark d).tree = .ok (.list [.sym mark.head, v]) := by
  rw [tree, hd]
  rfl

theorem tree_group {ds : List Derivation} {vs : List Value} (hds : trees ds = .ok vs)
    (bracket : Bracket) : (group bracket ds).tree = .ok (.list vs) := by
  rw [tree, hds]
  rfl

theorem exists_trees_iff {ds : List Derivation} :
    (∃ vs, trees ds = .ok vs) ↔ ∀ d ∈ ds, ∃ v, d.tree = .ok v := by
  induction ds with
  | nil => exact iff_of_true ⟨[], rfl⟩ (by simp)
  | cons d ds ih =>
      simp only [trees, bind_eq_ok, List.forall_mem_cons, ← ih]
      constructor
      · rintro ⟨_, v, hv, vs, hvs, -⟩
        exact ⟨⟨v, hv⟩, vs, hvs⟩
      · rintro ⟨⟨v, hv⟩, vs, hvs⟩
        exact ⟨_, v, hv, vs, hvs, rfl⟩

theorem normal_of_mem_tokens {d : Derivation} {token : Token} (h : token ∈ d.tokens) :
    token.normal = token := by
  induction d using induction with
  | symbol text =>
      obtain rfl := List.mem_singleton.mp h
      rfl
  | string text =>
      obtain rfl := List.mem_singleton.mp h
      rfl
  | marked mark form ih =>
      rcases List.mem_cons.mp h with rfl | h
      · exact mark.normal_token
      · exact ih h
  | group bracket forms ih =>
      rw [tokens, List.mem_cons, List.mem_append, List.mem_singleton] at h
      rcases h with rfl | h | rfl
      · cases bracket <;> rfl
      · obtain ⟨d, hd, h⟩ := mem_tokensOfAll.mp h
        exact ih d hd h
      · cases bracket <;> rfl

/-- Whether the tokens of a derivation and what follows determine both. -/
def IsDetermined (d : Derivation) : Prop :=
  ∀ d' rest rest', d.tokens ++ rest = d'.tokens ++ rest' → d = d' ∧ rest = rest'

theorem head_tokens (d : Derivation) : ∃ token rest, d.tokens = token :: rest ∧
    token.kind ≠ .closing := by
  cases d with
  | symbol text => exact ⟨_, _, rfl, by simp⟩
  | string text => exact ⟨_, _, rfl, by simp⟩
  | marked mark form => exact ⟨_, _, rfl, by cases mark <;> simp [Mark.token]⟩
  | group bracket forms => exact ⟨_, _, rfl, by cases bracket <;> simp [Bracket.opening]⟩

theorem tokens_append_ne_closing (d : Derivation) (bracket : Bracket) (rest rest' : List Token) :
    d.tokens ++ rest ≠ bracket.closing :: rest' := by
  obtain ⟨token, more, hd, hkind⟩ := d.head_tokens
  rw [hd, List.cons_append]
  rintro ⟨⟩
  cases bracket <;> exact hkind rfl

theorem eq_of_tokensOfAll_closing {ds ds' : List Derivation} (h : ∀ d ∈ ds, d.IsDetermined)
    {bracket bracket' : Bracket} {rest rest' : List Token}
    (heq : tokensOfAll ds ++ bracket.closing :: rest =
      tokensOfAll ds' ++ bracket'.closing :: rest') : ds = ds' ∧ rest = rest' := by
  induction ds generalizing ds' with
  | nil =>
      cases ds' with
      | nil => exact ⟨rfl, (List.cons.inj heq).2⟩
      | cons d' ds' =>
          rw [tokensOfAll, tokensOfAll, List.nil_append, List.append_assoc] at heq
          exact (tokens_append_ne_closing d' _ _ _ heq.symm).elim
  | cons d ds ih =>
      cases ds' with
      | nil =>
          rw [tokensOfAll, tokensOfAll, List.nil_append, List.append_assoc] at heq
          exact (tokens_append_ne_closing d _ _ _ heq).elim
      | cons d' ds' =>
          rw [tokensOfAll, tokensOfAll, List.append_assoc, List.append_assoc] at heq
          obtain ⟨rfl, hrest⟩ := h d (by simp) d' _ _ heq
          obtain ⟨rfl, hafter⟩ := ih (fun e he => h e (by simp [he])) hrest
          exact ⟨rfl, hafter⟩

theorem isDetermined (d : Derivation) : d.IsDetermined := by
  -- What follows is any, because the forms of a group follow each other.
  induction d using induction with
  | symbol text =>
      intro d' rest rest' h
      cases d' with
      | symbol text' => simpa [tokens] using h
      | string text' => simp [tokens] at h
      | marked mark form => cases mark <;> simp [tokens, Mark.token] at h
      | group bracket forms => cases bracket <;> simp [tokens, Bracket.opening] at h
  | string text =>
      intro d' rest rest' h
      cases d' with
      | symbol text' => simp [tokens] at h
      | string text' => simpa [tokens] using h
      | marked mark form => cases mark <;> simp [tokens, Mark.token] at h
      | group bracket forms => cases bracket <;> simp [tokens, Bracket.opening] at h
  | marked mark form ih =>
      intro d' rest rest' h
      cases d' with
      | symbol text' => cases mark <;> simp [tokens, Mark.token] at h
      | string text' => cases mark <;> simp [tokens, Mark.token] at h
      | marked mark' form' =>
          obtain ⟨hmark, h⟩ := List.cons.inj h
          obtain ⟨rfl, rfl⟩ := ih form' _ _ h
          rw [Mark.token_injective hmark]
          exact ⟨rfl, rfl⟩
      | group bracket forms =>
          cases mark <;> cases bracket <;> simp [tokens, Mark.token, Bracket.opening] at h
  | group bracket forms ih =>
      intro d' rest rest' h
      cases d' with
      | symbol text' => cases bracket <;> simp [tokens, Bracket.opening] at h
      | string text' => cases bracket <;> simp [tokens, Bracket.opening] at h
      | marked mark form =>
          cases bracket <;> cases mark <;> simp [tokens, Mark.token, Bracket.opening] at h
      | group bracket' forms' =>
          rw [tokens, tokens, List.cons_append, List.cons_append, List.append_assoc,
            List.append_assoc] at h
          obtain ⟨hopening, h⟩ := List.cons.inj h
          obtain ⟨rfl, rfl⟩ := eq_of_tokensOfAll_closing ih h
          rw [Bracket.opening_injective hopening]
          exact ⟨rfl, rfl⟩

/-- A sequence of tokens has at most one derivation. -/
theorem tokensOfAll_injective {ds ds' : List Derivation} (h : tokensOfAll ds = tokensOfAll ds') :
    ds = ds' := by
  have hclosed : tokensOfAll ds ++ [Bracket.round.closing] =
      tokensOfAll ds' ++ [Bracket.round.closing] := by rw [h]
  exact (eq_of_tokensOfAll_closing (fun d _ => d.isDetermined) hclosed).1

end Derivation

end Quasiquote
