import Mathlib.Algebra.BigOperators.Group.List.Basic
import Mathlib.Data.Rat.Lemmas
import Mathlib.Tactic.NormNum
import Quasiquote.Primitive.Call

namespace Quasiquote

namespace Number

/-- Whether a number is an integer, or a fraction that is no integer. -/
def IsExact : Number → Prop
  | int _ => True
  | ratio q => q.den ≠ 1
  | _ => False

/-- The value of an exact number. -/
def value (n : Number) : ℚ := n.toRat?.getD 0

/-- The exact number of a value. -/
def ofRat (q : ℚ) : Number := normal (ratio q)

theorem isExact_ofRat (q : ℚ) : (ofRat q).IsExact := by
  unfold ofRat normal
  dsimp only
  split_ifs with h
  · trivial
  · exact h

theorem toRat?_ofRat (q : ℚ) : (ofRat q).toRat? = some q := by
  unfold ofRat normal
  dsimp only
  split_ifs with h
  · exact congrArg some ((Rat.den_eq_one_iff q).mp h)
  · rfl

theorem eq_of_toRat? {n : Number} {q : ℚ} (h : n.toRat? = some q) :
    (∃ k : Int, n = int k ∧ q = k) ∨ n = ratio q := by
  cases n with
  | int k => exact .inl ⟨k, rfl, (Option.some.inj h).symm⟩
  | ratio p => exact .inr (congrArg ratio (Option.some.inj h))
  | float x => exact nomatch h
  | nan id => exact nomatch h

theorem normal_eq_ofRat {n : Number} {q : ℚ} (h : n.toRat? = some q) : n.normal = ofRat q := by
  rcases eq_of_toRat? h with ⟨k, rfl, rfl⟩ | rfl
  · simp [ofRat, normal]
  · rfl

theorem IsExact.normal_eq {n : Number} (h : n.IsExact) : n.normal = n := by
  cases n with
  | ratio q => exact if_neg h
  | _ => rfl

theorem IsExact.toRat?_eq {n : Number} (h : n.IsExact) : n.toRat? = some n.value := by
  cases n with
  | int k => rfl
  | ratio q => rfl
  | float x => exact h.elim
  | nan id => exact h.elim

theorem IsExact.eq_ofRat {n : Number} (h : n.IsExact) : n = ofRat n.value := by
  rw [← normal_eq_ofRat h.toRat?_eq, h.normal_eq]

theorem value_ofRat (q : ℚ) : (ofRat q).value = q := by rw [value, toRat?_ofRat, Option.getD_some]

theorem exists_ofRat_eq_int_iff {q : ℚ} : (∃ k : Int, ofRat q = int k) ↔ ∃ k : Int, q = k := by
  constructor
  · rintro ⟨k, hk⟩
    refine ⟨k, ?_⟩
    rw [← value_ofRat q, hk]
    rfl
  · rintro ⟨k, rfl⟩
    exact ⟨k, (normal_eq_ofRat (n := int k) rfl).symm⟩

theorem combine_eq {onInt : Int → Int → Int} {onRat : ℚ → ℚ → ℚ}
    (h : ∀ a b : Int, ((onInt a b : Int) : ℚ) = onRat a b) (onFloat : Float → Float → Float)
    (id : Nat) {a b : Number} {p q : ℚ} (ha : a.toRat? = some p) (hb : b.toRat? = some q) :
    ∃ c, combine onInt onRat onFloat id a b = .ok c ∧ c.toRat? = some (onRat p q) := by
  rcases eq_of_toRat? ha with ⟨j, rfl, rfl⟩ | rfl <;>
    rcases eq_of_toRat? hb with ⟨k, rfl, rfl⟩ | rfl
  · exact ⟨int (onInt j k), rfl, congrArg some (h j k)⟩
  all_goals exact ⟨_, rfl, rfl⟩

theorem add_eq (id : Nat) {a b : Number} {p q : ℚ} (ha : a.toRat? = some p)
    (hb : b.toRat? = some q) : ∃ c, add id a b = .ok c ∧ c.toRat? = some (p + q) :=
  combine_eq Int.cast_add _ id ha hb

theorem sub_eq (id : Nat) {a b : Number} {p q : ℚ} (ha : a.toRat? = some p)
    (hb : b.toRat? = some q) : ∃ c, sub id a b = .ok c ∧ c.toRat? = some (p - q) :=
  combine_eq Int.cast_sub _ id ha hb

theorem mul_eq (id : Nat) {a b : Number} {p q : ℚ} (ha : a.toRat? = some p)
    (hb : b.toRat? = some q) : ∃ c, mul id a b = .ok c ∧ c.toRat? = some (p * q) :=
  combine_eq Int.cast_mul _ id ha hb

theorem div_eq (id : Nat) {a b : Number} {p q : ℚ} (ha : a.toRat? = some p)
    (hb : b.toRat? = some q) : div id a b = divExact p q := by
  rcases eq_of_toRat? ha with ⟨j, rfl, rfl⟩ | rfl <;>
    rcases eq_of_toRat? hb with ⟨k, rfl, rfl⟩ | rfl <;> rfl

theorem div_eq_ok (id : Nat) {a b : Number} {p q : ℚ} (ha : a.toRat? = some p)
    (hb : b.toRat? = some q) (hq : q ≠ 0) :
    ∃ c, div id a b = .ok c ∧ c.toRat? = some (p / q) := by
  rw [div_eq id ha hb, divExact, if_neg hq]
  exact ⟨_, rfl, rfl⟩

theorem div_eq_error (id : Nat) {a b : Number} {p : ℚ} (ha : a.toRat? = some p)
    (hb : b.toRat? = some 0) : div id a b = .error (.exactDivision p.num.sign) := by
  rw [div_eq id ha hb, divExact, if_pos rfl]
  rfl

theorem neg_eq (id : Nat) {n : Number} (h : n.IsExact) : n.neg id = ofRat (-n.value) := by
  cases n with
  | int k => exact normal_eq_ofRat (n := int (-k)) (congrArg some (Int.cast_neg k))
  | ratio q =>
      refine (if_neg ?_).symm
      rw [Rat.den_neg_eq_den]
      exact h
  | float x => exact h.elim
  | nan id => exact h.elim

theorem add_one_eq (id : Nat) {n : Number} (h : n.IsExact) :
    add id n (int 1) = .ok (ofRat (n.value + 1)) := by
  cases n with
  | int k =>
      exact congrArg Except.ok (normal_eq_ofRat (n := int (k + 1)) (congrArg some (Int.cast_add k 1)))
  | ratio q =>
      refine congrArg Except.ok (if_neg ?_).symm
      show ¬(q + (1 : Int)).den = 1
      rw [Rat.add_intCast_den]
      exact h
  | float x => exact h.elim
  | nan id => exact h.elim

theorem sub_one_eq (id : Nat) {n : Number} (h : n.IsExact) :
    sub id n (int 1) = .ok (ofRat (n.value - 1)) := by
  cases n with
  | int k =>
      exact congrArg Except.ok (normal_eq_ofRat (n := int (k - 1)) (congrArg some (Int.cast_sub k 1)))
  | ratio q =>
      refine congrArg Except.ok (if_neg ?_).symm
      show ¬(q - (1 : Int)).den = 1
      rw [Rat.sub_intCast_den]
      exact h
  | float x => exact h.elim
  | nan id => exact h.elim

section

variable {step : Number → Number → Except ArithmeticFault Number} {f : ℚ → ℚ → ℚ}

/-- Along a row of numbers the values are combined as the numbers are. -/
theorem foldlM_eq {ns : List Number} (hns : ∀ n ∈ ns, n.IsExact)
    (hstep : ∀ a p, ∀ b ∈ ns, a.toRat? = some p →
      ∃ c, step a b = .ok c ∧ c.toRat? = some (f p b.value))
    {m : Number} {p : ℚ} (hm : m.toRat? = some p) :
    ∃ c, ns.foldlM step m = .ok c ∧ c.toRat? = some ((ns.map value).foldl f p) := by
  induction ns generalizing m p with
  | nil => exact ⟨m, rfl, hm⟩
  | cons n ns ih =>
      obtain ⟨c, hc, hvalue⟩ := hstep m p n (by simp) hm
      rw [List.foldlM_cons, hc]
      exact ih (fun k hk => hns k (by simp [hk])) (fun a q k hk => hstep a q k (by simp [hk])) hvalue

end

theorem foldlM_div_eq_error (id : Nat) {ns : List Number} (hns : ∀ n ∈ ns, n.IsExact)
    (hzero : ∃ n ∈ ns, n.value = 0) {m : Number} {p : ℚ} (hm : m.toRat? = some p) :
    ∃ sign, ns.foldlM (div id) m = .error (.exactDivision sign) := by
  induction ns generalizing m p with
  | nil => exact absurd hzero (by simp)
  | cons n ns ih =>
      have hn := (hns n (by simp)).toRat?_eq
      rw [List.foldlM_cons]
      by_cases hvalue : n.value = 0
      · rw [div_eq_error id hm (hvalue ▸ hn)]
        exact ⟨_, rfl⟩
      · obtain ⟨c, hc, hq⟩ := div_eq_ok id hm hn hvalue
        have hmore : ∃ k ∈ ns, k.value = 0 := by
          obtain ⟨k, hk, hzero⟩ := hzero
          rcases List.mem_cons.mp hk with rfl | hk
          · exact (hvalue hzero).elim
          · exact ⟨k, hk, hzero⟩
        rw [hc]
        exact ih (fun k hk => hns k (by simp [hk])) hmore hq

end Number

open Number

namespace Primitive

theorem numbers_map (who : String) (ns : List Number) : numbers who (ns.map .num) = .ok ns := by
  induction ns with
  | nil => rfl
  | cons n ns ih =>
      rw [List.map_cons, numbers, ih]
      rfl

theorem fold_eq {step : Number → Number → Except ArithmeticFault Number} {m c : Number}
    {ns : List Number} {q : ℚ} (h : ns.foldlM step m = .ok c) (hc : c.toRat? = some q) :
    fold step m ns = .ok (.num (ofRat q)) := by
  rw [fold, h, ← normal_eq_ofRat hc]
  rfl

/-- Whether a call has no effect and answers with the exact number of a value. -/
def AnswersExactly (result : Except Failure (Value × Effect)) (q : ℚ) : Prop :=
  ∃ n : Number, result = .ok (.num n, .none) ∧ n.IsExact ∧ n.toRat? = some q ∧
    ((∃ k : Int, n = .int k) ↔ ∃ k : Int, q = k)

theorem answersExactly_ofRat {result : Except Failure Value} {q : ℚ}
    (h : result = .ok (.num (ofRat q))) : AnswersExactly (plainly result) q := by
  subst h
  exact ⟨ofRat q, rfl, isExact_ofRat q, toRat?_ofRat q, exists_ofRat_eq_int_iff⟩

/-- A value less the others; by itself, its negative. -/
def lessOthers (p : ℚ) : List ℚ → ℚ
  | [] => -p
  | qs => p - qs.sum

/-- A value divided by one of the others after the other; by itself, its reciprocal. -/
def overOthers (p : ℚ) : List ℚ → ℚ
  | [] => p⁻¹
  | qs => qs.foldl (· / ·) p

/-- What a quotient divides by: all numbers but the first, or the only one. -/
def divisors (n : Number) : List Number → List Number
  | [] => [n]
  | ns => ns

section

variable {n : Number} {ns : List Number} (id : Nat)

theorem sum_eq (hns : ∀ n ∈ ns, n.IsExact) :
    sum id (ns.map .num) = .ok (.num (ofRat (ns.map value).sum)) := by
  obtain ⟨c, hc, hvalue⟩ := foldlM_eq hns
    (fun _ _ b hb ha => add_eq id ha (hns b hb).toRat?_eq) (m := .int 0) rfl
  rw [sum, numbers_map, List.sum_eq_foldl]
  exact fold_eq hc hvalue

theorem product_eq (hns : ∀ n ∈ ns, n.IsExact) :
    product id (ns.map .num) = .ok (.num (ofRat (ns.map value).prod)) := by
  obtain ⟨c, hc, hvalue⟩ := foldlM_eq hns
    (fun _ _ b hb ha => mul_eq id ha (hns b hb).toRat?_eq) (m := .int 1) rfl
  rw [product, numbers_map, List.prod_eq_foldl]
  exact fold_eq hc hvalue

theorem foldl_sub_eq (p : ℚ) (qs : List ℚ) : qs.foldl (· - ·) p = p - qs.sum := by
  induction qs generalizing p with
  | nil => simp
  | cons q qs ih => rw [List.foldl_cons, ih, List.sum_cons, sub_sub]

theorem difference_eq (hn : n.IsExact) (hns : ∀ n ∈ ns, n.IsExact) :
    difference id ((n :: ns).map .num) =
      .ok (.num (ofRat (lessOthers n.value (ns.map value)))) := by
  rw [difference, numbers_map]
  cases ns with
  | nil =>
      show Except.ok (Value.num (n.neg id)) = _
      rw [neg_eq id hn]
      rfl
  | cons m ns =>
      obtain ⟨c, hc, hvalue⟩ := foldlM_eq hns
        (fun _ _ b hb ha => sub_eq id ha (hns b hb).toRat?_eq) hn.toRat?_eq
      show fold (Number.sub id) n (m :: ns) = .ok (.num (ofRat (n.value - ((m :: ns).map value).sum)))
      rw [← foldl_sub_eq]
      exact fold_eq hc hvalue

theorem quotient_eq_ok (hn : n.IsExact) (hns : ∀ n ∈ ns, n.IsExact)
    (hzero : ∀ d ∈ divisors n ns, d.value ≠ 0) :
    quotient id ((n :: ns).map .num) =
      .ok (.num (ofRat (overOthers n.value (ns.map value)))) := by
  rw [quotient, numbers_map]
  cases ns with
  | nil =>
      obtain ⟨c, hc, hvalue⟩ := foldlM_eq (List.forall_mem_singleton.mpr hn)
        (fun _ _ b hb ha => div_eq_ok id ha (List.mem_singleton.mp hb ▸ hn).toRat?_eq (hzero b hb))
        (m := .int 1) rfl
      have hover : overOthers n.value [] = [n.value].foldl (· / ·) ((1 : Int) : ℚ) := by
        simp [overOthers]
      rw [List.map_nil, hover]
      exact fold_eq hc hvalue
  | cons m ns =>
      obtain ⟨c, hc, hvalue⟩ := foldlM_eq hns
        (fun _ _ b hb ha => div_eq_ok id ha (hns b hb).toRat?_eq (hzero b hb)) hn.toRat?_eq
      exact fold_eq hc hvalue

theorem quotient_eq_error (hn : n.IsExact) (hns : ∀ n ∈ ns, n.IsExact)
    (hzero : ∃ d ∈ divisors n ns, d.value = 0) :
    ∃ sign, quotient id ((n :: ns).map .num) = .error (.arithmetic (.exactDivision sign)) := by
  rw [quotient, numbers_map]
  have hfold {m : Number} {ns : List Number} {sign : Int}
      (h : ns.foldlM (Number.div id) m = .error (.exactDivision sign)) :
      fold (Number.div id) m ns = .error (.arithmetic (.exactDivision sign)) := by
    rw [fold, h]
    rfl
  cases ns with
  | nil =>
      obtain ⟨sign, hsign⟩ := foldlM_div_eq_error id (List.forall_mem_singleton.mpr hn) hzero
        (m := .int 1) rfl
      exact ⟨sign, hfold hsign⟩
  | cons m ns =>
      obtain ⟨sign, hsign⟩ := foldlM_div_eq_error id hns hzero hn.toRat?_eq
      exact ⟨sign, hfold hsign⟩

/-- A quotient times its divisor is the number that was divided. -/
theorem product_quotient_eq {a b : Number} (ha : a.IsExact) (hb : b.IsExact) (hzero : b.value ≠ 0) :
    ∃ q, quotient id [.num a, .num b] = .ok (.num q) ∧ product id [.num q, .num b] = .ok (.num a) := by
  have hexact : ∀ n ∈ [ofRat (a.value / b.value), b], n.IsExact := by
    simp [isExact_ofRat, hb]
  have hproduct := product_eq id hexact
  simp only [List.map_cons, List.map_nil, List.prod_cons, List.prod_nil, mul_one, value_ofRat,
    div_mul_cancel₀ _ hzero, ← ha.eq_ofRat] at hproduct
  exact ⟨_, quotient_eq_ok id ha (List.forall_mem_singleton.mpr hb)
    (List.forall_mem_singleton.mpr hzero), hproduct⟩

theorem changedByOne_eq (who : String) {change : Number → Number → Except ArithmeticFault Number}
    {q : ℚ} (h : change n (.int 1) = .ok (ofRat q)) :
    changedByOne who change ((n :: ns).map .num) = .ok (.num (ofRat q)) := by
  rw [changedByOne, numbers_map]
  show ofNumber (change n (.int 1)) = _
  rw [h]
  rfl

end

/-- Sums, products, differences, quotients and changes by one of exact numbers are the exact numbers
of their values. A quotient fails if and only if it divides by zero, and a quotient times its
divisor is the number that was divided. -/
theorem answersExactly_arithmetic (calls id : Nat) :
    (∀ ns : List Number, (∀ n ∈ ns, n.IsExact) →
      AnswersExactly (call calls id (ns.map .num) .add) (ns.map value).sum ∧
      AnswersExactly (call calls id (ns.map .num) .mul) (ns.map value).prod) ∧
    (∀ (n : Number) (ns : List Number), n.IsExact → (∀ m ∈ ns, m.IsExact) →
      AnswersExactly (call calls id ((n :: ns).map .num) .sub)
        (lessOthers n.value (ns.map value)) ∧
      AnswersExactly (call calls id ((n :: ns).map .num) .inc) (n.value + 1) ∧
      AnswersExactly (call calls id ((n :: ns).map .num) .dec) (n.value - 1) ∧
      ((∀ d ∈ divisors n ns, d.value ≠ 0) →
        AnswersExactly (call calls id ((n :: ns).map .num) .div)
          (overOthers n.value (ns.map value))) ∧
      ((∃ failure, call calls id ((n :: ns).map .num) .div = .error failure) ↔
        ∃ d ∈ divisors n ns, d.value = 0) ∧
      ∀ failure, call calls id ((n :: ns).map .num) .div = .error failure →
        failure.kind = "ZeroDivisionError") ∧
    ∀ a b : Number, a.IsExact → b.IsExact → b ≠ .int 0 →
      ∃ q, call calls id [.num a, .num b] .div = .ok (.num q, .none) ∧
        call calls id [.num q, .num b] .mul = .ok (.num a, .none) := by
  refine ⟨fun ns hns => ⟨answersExactly_ofRat (sum_eq id hns),
    answersExactly_ofRat (product_eq id hns)⟩, fun n ns hn hns => ?_, fun a b ha hb hzero => ?_⟩
  · have hquotient (h : ∀ d ∈ divisors n ns, d.value ≠ 0) :=
      answersExactly_ofRat (quotient_eq_ok id hn hns h)
    have hfails (h : ∃ d ∈ divisors n ns, d.value = 0) :
        ∃ sign, call calls id ((n :: ns).map .num) .div =
          .error (.arithmetic (.exactDivision sign)) := by
      obtain ⟨sign, hsign⟩ := quotient_eq_error id hn hns h
      exact ⟨sign, congrArg plainly hsign⟩
    have hdivisor {failure : Failure}
        (h : call calls id ((n :: ns).map .num) .div = .error failure) :
        ∃ d ∈ divisors n ns, d.value = 0 := by
      by_contra hnone
      obtain ⟨m, hm, -⟩ := hquotient fun d hd hvalue => hnone ⟨d, hd, hvalue⟩
      cases hm.symm.trans h
    refine ⟨answersExactly_ofRat (difference_eq id hn hns),
      answersExactly_ofRat (changedByOne_eq "inc" (add_one_eq id hn)),
      answersExactly_ofRat (changedByOne_eq "dec" (sub_one_eq id hn)), hquotient, ⟨?_, ?_⟩, ?_⟩
    · rintro ⟨failure, hfailure⟩
      exact hdivisor hfailure
    · intro hzero
      obtain ⟨sign, hsign⟩ := hfails hzero
      exact ⟨_, hsign⟩
    · intro failure hfailure
      obtain ⟨sign, hsign⟩ := hfails (hdivisor hfailure)
      cases hsign.symm.trans hfailure
      rfl
  · have hvalue : b.value ≠ 0 := by
      intro h
      rw [hb.eq_ofRat, h] at hzero
      exact hzero rfl
    obtain ⟨q, hquotient, hproduct⟩ := product_quotient_eq id ha hb hvalue
    exact ⟨q, congrArg plainly hquotient, congrArg plainly hproduct⟩

theorem answersExactly_arithmetic_thirds :
    AnswersExactly (call 0 0 [.num (.ratio (2 / 3)), .num (.ratio (1 / 3))] .add) 1 ∧
    AnswersExactly (call 0 0 [.num (.int 2), .num (.int 3)] .div) (2 / 3) ∧
    (∃ q, call 0 0 [.num (.int 2), .num (.int 3)] .div = .ok (.num q, .none) ∧
      call 0 0 [.num q, .num (.int 3)] .mul = .ok (.num (.int 2), .none)) ∧
    ∃ failure, call 0 0 [.num (.int 2), .num (.int 0)] .div = .error failure := by
  obtain ⟨hsum, hothers, hproduct⟩ := answersExactly_arithmetic 0 0
  have hint (k : Int) : (int k).IsExact := trivial
  have hratio {q : ℚ} (h : q.den ≠ 1) : (ratio q).IsExact := h
  have hadd := (hsum [ratio (2 / 3), ratio (1 / 3)] (List.forall_mem_cons.mpr
    ⟨hratio (by decide +kernel), List.forall_mem_singleton.mpr (hratio (by decide +kernel))⟩)).1
  obtain ⟨-, -, -, hquotient, -⟩ := hothers (int 2) [int 3] (hint 2) (by simp [hint])
  obtain ⟨-, -, -, -, hfails, -⟩ := hothers (int 2) [int 0] (hint 2) (by simp [hint])
  have hsumOne : ([ratio (2 / 3), ratio (1 / 3)].map value).sum = 1 := by decide +kernel
  have hover : overOthers (int 2).value ([int 3].map value) = 2 / 3 := by decide +kernel
  rw [hsumOne] at hadd
  rw [hover] at hquotient
  refine ⟨hadd, hquotient ?_, hproduct _ _ (hint 2) (hint 3) (by simp), hfails.mpr ?_⟩
  · simp [divisors, value, toRat?]
  · simp [divisors, value, toRat?]

end Primitive

end Quasiquote
