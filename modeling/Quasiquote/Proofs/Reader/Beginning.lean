import Quasiquote.Proofs.Reader.Concatenation
import Quasiquote.Proofs.Reader.Recognition

namespace Quasiquote

open Quasiquote.Derivation

namespace Reader

/-- Whether tokens are those of one form, which stands for a value. A mark may be of the other kind
of marks. -/
def IsForm (ts : List Token) (v : Value) : Prop :=
  ∃ d : Derivation, d.tokens = ts.map Token.normal ∧ d.tree = .ok v

/-- Whether a form begins with tokens and goes on behind them. -/
def IsBeginning (ts : List Token) : Prop :=
  ∃ token more v, IsForm (ts ++ token :: more) v

/-- Whether the reading of a form fails behind the first of two parts of a row of tokens. -/
inductive Stops : List Token → List Token → Prop
  | ended {taken : List Token} (h : IsBeginning taken) : Stops taken []
  /-- The token at which the reading fails is the last one that it takes. -/
  | stuck {before : List Token} {token : Token} (h : IsBeginning before)
      (hstuck : ∀ more v, ¬IsForm (before ++ token :: more) v) (rest : List Token) :
      Stops (before ++ [token]) rest

theorem IsForm.ne_nil {ts : List Token} {v : Value} (h : IsForm ts v) : ts ≠ [] := by
  obtain ⟨d, hd, -⟩ := h
  obtain ⟨token, rest, htokens, -⟩ := d.head_tokens
  rintro rfl
  cases htokens.symm.trans hd

/-- No form is the beginning of another one. -/
theorem IsForm.determined {ts ts' rest rest' : List Token} {v v' : Value} (h : IsForm ts v)
    (h' : IsForm ts' v') (heq : ts ++ rest = ts' ++ rest') : ts = ts' ∧ v = v' ∧ rest = rest' := by
  obtain ⟨d, hd, hv⟩ := h
  obtain ⟨d', hd', hv'⟩ := h'
  have hnormal : d.tokens ++ rest.map Token.normal = d'.tokens ++ rest'.map Token.normal := by
    rw [hd, hd', ← List.map_append, heq, List.map_append]
  obtain ⟨rfl, -⟩ := d.isDetermined d' _ _ hnormal
  have hlength : ts.length = ts'.length := by
    simpa using congrArg List.length (hd.symm.trans hd')
  obtain ⟨hts, hrest⟩ := List.append_inj heq hlength
  exact ⟨hts, Except.ok.inj (hv.symm.trans hv'), hrest⟩

theorem IsForm.not_isBeginning {ts : List Token} {v : Value} (h : IsForm ts v)
    (rest : List Token) : ¬IsBeginning (ts ++ rest) := by
  rintro ⟨token, more, w, hw⟩
  have heq : ts ++ (rest ++ token :: more) = ts ++ rest ++ token :: more ++ [] := by simp
  obtain ⟨-, -, hnil⟩ := h.determined hw heq
  simp at hnil

theorem IsForm.not_stops {ts rest taken rest' : List Token} {v : Value} (h : IsForm ts v)
    (heq : ts ++ rest = taken ++ rest') : ¬Stops taken rest' := by
  intro hstops
  cases hstops with
  | ended hbeginning =>
      rw [List.append_nil] at heq
      exact h.not_isBeginning rest (heq ▸ hbeginning)
  | @stuck before token hbeginning hstuck =>
      rw [List.append_assoc, List.singleton_append] at heq
      rcases List.append_eq_append_iff.mp heq with ⟨more, rfl, -⟩ | ⟨more, rfl, hmore⟩
      · exact h.not_isBeginning more hbeginning
      · cases more with
        | nil => exact h.not_isBeginning [] (by simpa using hbeginning)
        | cons _ more =>
            obtain ⟨rfl, -⟩ := List.cons.inj hmore
            exact hstuck more v h

section

variable {before before' rest rest' : List Token} {token token' : Token}

theorem not_isBeginning_of_stuck (hstuck : ∀ more v, ¬IsForm (before ++ token :: more) v)
    (more : List Token) : ¬IsBeginning (before ++ token :: more) := by
  rintro ⟨next, after, v, hv⟩
  rw [List.append_assoc, List.cons_append] at hv
  exact hstuck _ v hv

theorem rest_eq_of_stuck (hstuck : ∀ more v, ¬IsForm (before ++ token :: more) v)
    {more : List Token} (hbeginning : IsBeginning (before ++ more))
    (heq : token :: rest = more ++ token' :: rest') : rest = rest' := by
  cases more with
  | nil => exact (List.cons.inj heq).2
  | cons _ more =>
      obtain ⟨rfl, -⟩ := List.cons.inj heq
      exact (not_isBeginning_of_stuck hstuck more hbeginning).elim

end

/-- The row of tokens determines where the reading stops. -/
theorem Stops.determined {taken rest taken' rest' : List Token} (h : Stops taken rest)
    (h' : Stops taken' rest') (heq : taken ++ rest = taken' ++ rest') : rest = rest' := by
  cases h with
  | ended hbeginning =>
      cases h' with
      | ended => rfl
      | stuck _ hstuck =>
          rw [List.append_nil, List.append_assoc, List.singleton_append] at heq
          exact (not_isBeginning_of_stuck hstuck _ (heq ▸ hbeginning)).elim
  | stuck hbeginning hstuck =>
      rw [List.append_assoc, List.singleton_append] at heq
      cases h' with
      | ended hbeginning' =>
          rw [List.append_nil] at heq
          exact (not_isBeginning_of_stuck hstuck _ (heq ▸ hbeginning')).elim
      | stuck hbeginning' hstuck' =>
          rw [List.append_assoc, List.singleton_append] at heq
          rcases List.append_eq_append_iff.mp heq with ⟨more, rfl, hmore⟩ | ⟨more, rfl, hmore⟩
          · exact rest_eq_of_stuck hstuck hbeginning' hmore
          · exact (rest_eq_of_stuck hstuck' hbeginning hmore).symm

theorem all_opened {stack : List Pending} {ts : List Token} (h : Opened stack ts)
    (rest : List Token) : all none [] (ts ++ rest) = all none stack rest := by
  induction h generalizing rest with
  | nil => rfl
  | @group stack ts h bracket ds vs hvs ih =>
      have hitems := forall₂_reads (trees_eq_ok_iff.mp hvs) fun d _ => d.reads none
      rw [List.append_assoc, ih, List.cons_append,
        all_cons_of_shift (shift_opener (bracket.role_opening _) stack), resume,
        tokensOfAll_eq_flatten, all_items hitems, List.append_nil]
  | mark h mark ih =>
      rw [List.append_assoc, ih, List.singleton_append,
        all_cons_of_shift (shift_mark (mark.role_token _) _), resume]

theorem exists_completed {stack : List Pending} {ts : List Token} (h : Opened stack ts)
    {d : Derivation} {v : Value} (hd : d.tree = .ok v) :
    ∃ more, ∃ (d' : Derivation) (v' : Value),
      d'.tokens = ts ++ (d.tokens ++ more) ∧ d'.tree = .ok v' := by
  induction h generalizing d v with
  | nil => exact ⟨[], d, v, by simp, hd⟩
  | @group stack ts h bracket ds vs hvs ih =>
      obtain ⟨more, d', v', htokens, hv'⟩ := ih (tree_group (trees_concat hvs hd) bracket)
      refine ⟨bracket.closing :: more, d', v', ?_, hv'⟩
      rw [htokens, Derivation.tokens, tokensOfAll_append, tokensOfAll, tokensOfAll]
      simp
  | mark h mark ih =>
      obtain ⟨more, d', v', htokens, hv'⟩ := ih (tree_marked hd mark)
      refine ⟨more, d', v', ?_, hv'⟩
      rw [htokens, Derivation.tokens]
      simp

theorem isBeginning_of_opened {stack : List Pending} {ts : List Token}
    (h : Opened stack (ts.map Token.normal)) : IsBeginning ts := by
  obtain ⟨more, d, v, hd, hv⟩ := exists_completed h (d := .symbol "nil") rfl
  have hnormal (token : Token) (h : token ∈ more) : token.normal = id token :=
    normal_of_mem_tokens (d := d) (by simp [hd, h])
  have hmore : more.map Token.normal = more := by
    rw [List.map_congr_left hnormal, List.map_id]
  refine ⟨⟨.symbol, "nil"⟩, more, v, d, ?_, hv⟩
  rw [hd, List.map_append, List.map_cons, hmore]
  rfl

theorem not_isForm_of_shift {stack : List Pending} {ts : List Token} {token : Token} {last : Bool}
    {failure : Failure} (h : Opened stack (ts.map Token.normal))
    (hshift : shift last token stack = .error failure) (more : List Token) (v : Value) :
    ¬IsForm (ts ++ token :: more) v := by
  rintro ⟨d, hd, hv⟩
  have hread : all none [] d.tokens = ([v], none) := by
    simpa [deliver, resume, all] using d.reads none v hv [] []
  rw [hd, List.map_append, List.map_cons, all_opened h, all, shift_normal] at hread
  split at hread
  case h_1 => cases hread
  case h_2 hnext => cases hshift.symm.trans (shift_of_ok hnext last)
  case h_3 hnext => cases hshift.symm.trans (shift_of_ok hnext last)

/-- What the tokens that a reading has taken say of its end, and of those that it has left. -/
def Ends (taken rest : List Token) : Except Failure Value → Prop
  | .ok v => IsForm taken v
  | .error _ => Stops taken rest

theorem exists_ends_of_next {stack : List Pending} (taken : List Token) {ts rest : List Token}
    {result : Except Failure Value} (h : Opened stack (taken.map Token.normal))
    (hnext : next none stack ts = (result, rest)) :
    ∃ more, Ends (taken ++ more) rest result ∧ ts = more ++ rest := by
  induction ts generalizing stack taken with
  | nil =>
      cases hnext
      refine ⟨[], ?_, rfl⟩
      rw [List.append_nil]
      exact .ended (isBeginning_of_opened h)
  | cons token ts ih =>
      rw [next] at hnext
      split at hnext
      case h_1 failure hshift =>
        cases hnext
        exact ⟨[token], .stuck (isBeginning_of_opened h) (not_isForm_of_shift h hshift) rest, rfl⟩
      case h_2 v hshift =>
        cases hnext
        obtain ⟨d, hd, hv⟩ := accounts_shift h hshift
        exact ⟨[token], ⟨d, by rw [hd, List.map_append]; rfl, hv⟩, rfl⟩
      case h_3 stack' hshift =>
        have hopened : Opened stack' ((taken ++ [token]).map Token.normal) := by
          rw [List.map_append]
          exact accounts_shift h hshift
        obtain ⟨more, hends, rfl⟩ := ih (taken ++ [token]) hopened hnext
        rw [List.append_assoc, List.singleton_append] at hends
        exact ⟨token :: more, hends, rfl⟩

theorem next_eq_ok_iff {ts rest : List Token} {v : Value} :
    next none [] ts = (.ok v, rest) ↔ ∃ taken, IsForm taken v ∧ ts = taken ++ rest := by
  constructor
  · intro hnext
    exact exists_ends_of_next [] .nil hnext
  · rintro ⟨taken, hform, rfl⟩
    cases hnext : next none [] (taken ++ rest) with
    | mk result left =>
        obtain ⟨taken', hends, heq⟩ := exists_ends_of_next [] .nil hnext
        cases result with
        | ok w =>
            obtain ⟨-, rfl, rfl⟩ := hform.determined hends heq
            rfl
        | error failure => exact (hform.not_stops heq hends).elim

theorem next_fails_iff {ts rest : List Token} :
    (∃ failure, next none [] ts = (.error failure, rest)) ↔
      ∃ taken, Stops taken rest ∧ ts = taken ++ rest := by
  constructor
  · rintro ⟨failure, hnext⟩
    exact exists_ends_of_next [] .nil hnext
  · rintro ⟨taken, hstops, rfl⟩
    cases hnext : next none [] (taken ++ rest) with
    | mk result left =>
        obtain ⟨taken', hends, heq⟩ := exists_ends_of_next [] .nil hnext
        cases result with
        | ok v => exact (hends.not_stops heq.symm hstops).elim
        | error failure =>
            obtain rfl := hstops.determined hends heq
            exact ⟨failure, rfl⟩

end Reader

end Quasiquote
