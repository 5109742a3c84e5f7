import Quasiquote.Proofs.Expansion.Once
import Quasiquote.Proofs.Macro.Parameters

namespace Quasiquote

namespace Parameters

/-- The items that list the given names. -/
def listing (fixed : List String) (variadic : Option String) : List Value :=
  fixed.map Value.bare ++ variadic.toList.flatMap fun name => [.sym ampersand, .bare name]

/-- The list of the parameters, as it is written in a definition. -/
def vector (p : Parameters) : Value := .list (listing p.fixed p.variadic)

/-- The item of a parameter list that the message about it quotes: the first one that is no bare name,
or what stands alone behind `&` and is no bare name other than `&`. -/
inductive Blames : List Value → Value → Prop
  | parameter {v : Value} {rest : List Value} : (∀ name, v ≠ .bare name) → Blames (v :: rest) v
  | variadic {v : Value} : (∀ name, v = .bare name → name = "&") → Blames [.sym ampersand, v] v
  | next {name : String} {v : Value} {rest : List Value} : name ≠ "&" → Blames rest v →
      Blames (.bare name :: rest) v

/-- Arguments of this number are too few for the names, or too many because no name takes the further
ones. -/
def Misfits (p : Parameters) (n : Nat) : Prop :=
  n < p.fixed.length ∨ p.variadic = none ∧ p.fixed.length < n

variable {p : Parameters} {items args : List Value} {v : Value}

theorem bare_eq_ampersand {name : String} : (⟨name, none⟩ : Symbol) = ampersand ↔ name = "&" := by
  simp [ampersand]

theorem split_sym {s : Symbol} (h : s ≠ ampersand) (rest : List Value) :
    split (.sym s :: rest) =
      if s.isQualified then .error (.malformed (.parameter s.quoted))
      else split rest >>= fun names => pure (s.name :: names.1, names.2) := by
  rw [split.eq_def]
  dsimp only
  rw [if_neg h]
  rfl

theorem split_bare {name : String} (h : name ≠ "&") (rest : List Value) :
    split (.bare name :: rest) =
      split rest >>= fun names => pure (name :: names.1, names.2) :=
  split_sym (mt bare_eq_ampersand.mp h) rest

theorem split_variadic (v : Value) :
    split [.sym ampersand, v] = variadicName v >>= fun name => pure ([], some name) :=
  rfl

theorem variadicName_bare {name : String} (h : name ≠ "&") :
    variadicName (.bare name) = .ok name := by
  rw [Value.bare, variadicName, if_neg (by simp [Symbol.isQualified, ampersand, h])]
  rfl

theorem split_listing {fixed : List String} {variadic : Option String}
    (h : "&" ∉ fixed ++ variadic.toList) :
    split (listing fixed variadic) = .ok (fixed, variadic) := by
  induction fixed with
  | nil =>
      cases variadic with
      | none => rfl
      | some name =>
          have hname : name ≠ "&" := fun heq => h (by simp [heq])
          change split [.sym ampersand, .bare name] = _
          rw [split_variadic, variadicName_bare hname]
          rfl
  | cons name fixed ih =>
      rw [List.cons_append, List.mem_cons, not_or] at h
      change split (.bare name :: listing fixed variadic) = _
      rw [split_bare (Ne.symm h.1), ih h.2]
      rfl

theorem item_cases (v : Value) :
    (∃ name, name ≠ "&" ∧ v = .bare name) ∨ v = .sym ampersand ∨ ∀ name, v ≠ .bare name := by
  by_cases h : ∃ name, v = .bare name
  · obtain ⟨name, rfl⟩ := h
    by_cases hname : name = "&"
    · exact .inr (.inl (by rw [hname]; rfl))
    · exact .inl ⟨name, hname, rfl⟩
  · exact .inr (.inr fun name hname => h ⟨name, hname⟩)

/-- What is said of an item that is refused. -/
def refusal (fault : String → SyntaxFault) (v : Value) : Failure :=
  if v.isWritable then .malformed (fault v.quoted) else .unwritable

theorem split_parameter (h : ∀ name, v ≠ .bare name) (rest : List Value) :
    split (v :: rest) = .error (refusal .parameter v) := by
  unfold refusal
  cases v with
  | sym s =>
      have hs : s.isQualified = true := by
        rcases s with ⟨name, _ | ns⟩
        · exact absurd rfl (h name)
        · rfl
      have hne : s ≠ ampersand := by
        rintro rfl
        exact nomatch hs
      rw [split_sym hne, if_pos hs]
      rfl
  | _ =>
      simp only [split, Value.written]
      split <;> rfl

theorem variadicName_refused (h : ∀ name, v = .bare name → name = "&") :
    variadicName v = .error (refusal .variadicParameter v) := by
  unfold refusal
  cases v with
  | sym s =>
      have hs : s.isQualified = true ∨ s = ampersand := by
        rcases s with ⟨name, _ | ns⟩
        · exact .inr (bare_eq_ampersand.mpr (h name rfl))
        · exact .inl rfl
      rw [variadicName, if_pos hs]
      rfl
  | _ =>
      simp only [variadicName, Value.written]
      split <;> rfl

theorem split_of_blames (h : Blames items v) : ∃ fault, split items = .error (refusal fault v) := by
  induction h with
  | parameter hv => exact ⟨_, split_parameter hv _⟩
  | @variadic v hv =>
      refine ⟨.variadicParameter, ?_⟩
      rw [split_variadic, variadicName_refused hv]
      rfl
  | next hname _ ih =>
      obtain ⟨fault, hrest⟩ := ih
      exact ⟨fault, by rw [split_bare hname, hrest]; rfl⟩

/-- What reading a parameter list comes to: its names, a fault if `&` does not stand before exactly one
item, or the refusal of the item that it blames. -/
theorem split_cases (items : List Value) :
    (∃ fixed variadic, split items = .ok (fixed, variadic) ∧ items = listing fixed variadic ∧
      "&" ∉ fixed ++ variadic.toList) ∨
    split items = .error (.malformed .parameterAfterAmpersand) ∨ ∃ v, Blames items v := by
  induction items with
  | nil => exact .inl ⟨[], none, rfl, rfl, List.not_mem_nil⟩
  | cons v rest ih =>
      rcases item_cases v with ⟨name, hname, rfl⟩ | rfl | hv
      · rcases ih with ⟨fixed, variadic, hrest, rfl, hnames⟩ | hrest | ⟨w, hw⟩
        · refine .inl ⟨name :: fixed, variadic, by rw [split_bare hname, hrest]; rfl, rfl, ?_⟩
          rw [List.cons_append, List.mem_cons, not_or]
          exact ⟨Ne.symm hname, hnames⟩
        · exact .inr (.inl (by rw [split_bare hname, hrest]; rfl))
        · exact .inr (.inr ⟨w, .next hname hw⟩)
      · rcases rest with _ | ⟨w, _ | ⟨w', rest⟩⟩
        · exact .inr (.inl rfl)
        · by_cases hw : ∀ name, w = .bare name → name = "&"
          · exact .inr (.inr ⟨w, .variadic hw⟩)
          · push Not at hw
            obtain ⟨name, rfl, hname⟩ := hw
            refine .inl ⟨[], some name, by rw [split_variadic, variadicName_bare hname]; rfl, rfl, ?_⟩
            exact List.mem_singleton.not.mpr (Ne.symm hname)
        · exact .inr (.inl rfl)
      · exact .inr (.inr ⟨v, .parameter hv⟩)

/-- A list of parameters is read if it is what its names are written as, and not otherwise. -/
theorem ofValue_eq_ok_iff {v : Value} {p : Parameters} :
    ofValue v = .ok p ↔ v = p.vector ∧ "&" ∉ p.names := by
  constructor
  · intro h
    cases v with
    | list items =>
        obtain ⟨⟨fixed, variadic⟩, hsplit, h⟩ := bind_eq_ok.mp h
        dsimp only at h
        split at h
        · cases h
          rcases split_cases items with ⟨fixed', variadic', hok, rfl, hnames⟩ | herror | ⟨w, hw⟩
          · cases hok.symm.trans hsplit
            exact ⟨rfl, hnames⟩
          · exact nomatch herror.symm.trans hsplit
          · obtain ⟨fault, herror⟩ := split_of_blames hw
            exact nomatch herror.symm.trans hsplit
        · exact nomatch h
    | _ => exact nomatch h
  · rintro ⟨rfl, hnames⟩
    change (split (listing p.fixed p.variadic) >>= _) = _
    rw [split_listing hnames]
    exact dif_pos p.nodup

theorem ofValue_injective {v w : Value} (hv : ofValue v = .ok p) (hw : ofValue w = .ok p) : v = w := by
  rw [(ofValue_eq_ok_iff.mp hv).1, (ofValue_eq_ok_iff.mp hw).1]

theorem ofValue_error {f : Failure} (h : ofValue v = .error f) :
    (∃ fault, f = .malformed fault) ∨ f = .unwritable ∧
      ∃ items w, v = .list items ∧ Blames items w ∧ w.isWritable = false := by
  cases v with
  | list items =>
      rcases bind_eq_error.mp h with h | ⟨⟨fixed, variadic⟩, -, h⟩
      · rcases split_cases items with ⟨_, _, hok, -⟩ | herror | ⟨w, hw⟩
        · exact nomatch hok.symm.trans h
        · cases herror.symm.trans h
          exact .inl ⟨_, rfl⟩
        · obtain ⟨fault, herror⟩ := split_of_blames hw
          obtain rfl := Except.error.inj (herror.symm.trans h)
          cases hwritable : w.isWritable with
          | true => exact .inl ⟨_, if_pos hwritable⟩
          | false =>
              exact .inr ⟨if_neg (by simp [hwritable]), items, w, rfl, hw, hwritable⟩
      · dsimp only at h
        split at h
        · exact nomatch h
        · cases h
          exact .inl ⟨_, rfl⟩
  | _ =>
      cases h
      exact .inl ⟨_, rfl⟩

theorem ofValue_eq_unwritable_iff : ofValue v = .error .unwritable ↔
    ∃ items w, v = .list items ∧ Blames items w ∧ w.isWritable = false := by
  constructor
  · intro h
    rcases ofValue_error h with ⟨fault, hf⟩ | ⟨-, hblames⟩
    · exact nomatch hf
    · exact hblames
  · rintro ⟨items, w, rfl, hw, hwritable⟩
    obtain ⟨fault, herror⟩ := split_of_blames hw
    have hrefusal : refusal fault w = .unwritable := if_neg (by simp [hwritable])
    rw [hrefusal] at herror
    exact bind_eq_error.mpr (.inl herror)

theorem accepts_eq_true_iff {n : Nat} : p.accepts n = true ↔ ¬p.Misfits n := by
  unfold accepts Misfits
  cases p.variadic with
  | none =>
      simp only [Option.isSome_none, Bool.false_or, Bool.and_eq_true, decide_eq_true_eq, true_and]
      omega
  | some name =>
      simp only [Option.isSome_some, Bool.true_or, Bool.and_true, decide_eq_true_eq, reduceCtorEq,
        false_and, or_false]
      omega

theorem keys_bind (h : p.accepts args.length = true) : (p.bind args).keys = p.names := by
  unfold Table.keys names
  rw [entries_bind h, List.map_append, List.map_fst_zip (length_fixed_le h), List.map_map]
  exact congrArg (p.fixed ++ ·) (List.map_id p.variadic.toList)

theorem map_find?_bind (h : p.accepts args.length = true) :
    p.fixed.map (p.bind args).find? = (args.take p.fixed.length).map some := by
  refine List.ext_getElem (by simp [length_fixed_le h]) fun i hi hi' => ?_
  rw [List.getElem_map, List.getElem_map, List.getElem_take, find?_bind_iff h]
  exact .inl ⟨i, List.getElem?_eq_getElem _, List.getElem?_eq_getElem _⟩

theorem bindings_eq_arity_iff {m : Macro} {call : Value} :
    Expander.bindings m call args = .error (.expansion (some m.name) (some call)
        (.arity m.parameters.least m.parameters.most args.length)) ↔
      ¬m.parameters.accepts args.length = true := by
  unfold Expander.bindings
  dsimp only
  split
  · rename_i h
    exact ⟨nofun, fun hnot => absurd h hnot⟩
  · rename_i h
    exact ⟨fun _ => h, fun _ => rfl⟩

/-- A parameter list is read exactly if it lists distinct bare names other than `&`, with perhaps `&`
before the last one, and its names are then those. All others are refused as malformed, except for one
whose message cannot be written. A call whose number of arguments does not fit has the fault that says
so. Any other call binds exactly the names, and the arguments are what the fixed names stand for and the
items that the last name stands for. -/
theorem ofValue_bindings (v : Value) (m : Macro) (head : Value) (args : List Value) :
    (∀ p, ofValue v = .ok p ↔ v = p.vector ∧ "&" ∉ p.names) ∧
    (∀ f, ofValue v = .error f → f.kind = "SynquoteSyntaxError" ∨ f = .unwritable) ∧
    (ofValue v = .error .unwritable ↔
      ∃ items w, v = .list items ∧ Blames items w ∧ w.isWritable = false) ∧
    (Expander.bindings m (.list (head :: args)) args =
        .error (.expansion (some m.name) (some (.list (head :: args)))
          (.arity m.parameters.fixed.length
            (m.parameters.variadic.elim (some m.parameters.fixed.length) fun _ => none)
            args.length)) ↔
      m.parameters.Misfits args.length) ∧
    (¬m.parameters.Misfits args.length → ∃ bound firsts rest,
      Expander.bindings m (.list (head :: args)) args = .ok bound ∧
      bound.keys = m.parameters.names ∧
      m.parameters.fixed.map bound.find? = firsts.map some ∧
      (∀ name, m.parameters.variadic = some name → bound.find? name = some (.list rest)) ∧
      (m.parameters.variadic = none → rest = []) ∧
      firsts ++ rest = args) := by
  refine ⟨fun p => ofValue_eq_ok_iff, fun f h => ?_, ofValue_eq_unwritable_iff, ?_, fun h => ?_⟩
  · rcases ofValue_error h with ⟨fault, rfl⟩ | ⟨hf, -⟩
    · exact .inl rfl
    · exact .inr hf
  · have hmost : m.parameters.most =
        m.parameters.variadic.elim (some m.parameters.fixed.length) fun _ => none := by
      unfold most
      cases m.parameters.variadic <;> rfl
    rw [← hmost, ← not_not (a := m.parameters.Misfits args.length), ← accepts_eq_true_iff]
    exact bindings_eq_arity_iff
  · have haccepts := accepts_eq_true_iff.mpr h
    refine ⟨_, args.take m.parameters.fixed.length, args.drop m.parameters.fixed.length,
      Expander.bindings_eq_ok_iff.mpr ⟨haccepts, rfl⟩, keys_bind haccepts,
      map_find?_bind haccepts, fun name hname => ?_, fun hnone => ?_, List.take_append_drop _ _⟩
    · exact (find?_bind_iff haccepts).mpr (.inr ⟨hname, rfl⟩)
    · have hlen : ¬m.parameters.fixed.length < args.length := fun hlt => h (.inr ⟨hnone, hlt⟩)
      exact List.drop_eq_nil_of_le (Nat.le_of_not_lt hlen)

/-- One name, and one that takes all further arguments. -/
def gathering : Parameters := ⟨["a"], some "more", by simp⟩

theorem ofValue_bindings_gathering :
    ofValue (.list [.bare "a", .bare "&", .bare "more"]) = .ok gathering ∧
    ∃ bound firsts rest,
      Expander.bindings ⟨"m", gathering, .nil, "u"⟩ (.list [.bare "m", .int 1, .int 2, .int 3])
        [.int 1, .int 2, .int 3] = .ok bound ∧
      bound.keys = ["a", "more"] ∧ ["a"].map bound.find? = firsts.map some ∧
      bound.find? "more" = some (.list rest) ∧ firsts ++ rest = [.int 1, .int 2, .int 3] := by
  obtain ⟨hreads, -, -, -, hbinds⟩ := ofValue_bindings
    (.list [.bare "a", .bare "&", .bare "more"]) ⟨"m", gathering, .nil, "u"⟩ (.bare "m")
    [.int 1, .int 2, .int 3]
  have hfits : ¬gathering.Misfits 3 := by simp [Misfits, gathering]
  obtain ⟨bound, firsts, rest, hok, hkeys, hfirsts, hrest, -, happend⟩ := hbinds hfits
  exact ⟨(hreads gathering).mpr ⟨rfl, by simp [gathering, names]⟩, bound, firsts, rest, hok, hkeys,
    hfirsts, hrest "more" rfl, happend⟩

/-- An integer in the place of a name may be too large for the message. -/
theorem not_ofValue_textBound :
    ¬∀ v : Value, (∃ p, ofValue v = .ok p) ∨
      ∃ f, ofValue v = .error f ∧ f.kind = "SynquoteSyntaxError" := by
  intro h
  have hbound : ofValue (.list [.int Number.textBound]) = .error .unwritable := by
    refine ofValue_eq_unwritable_iff.mpr ⟨_, .int Number.textBound, rfl, .parameter nofun, ?_⟩
    rw [Value.isWritable_int]
    exact decide_eq_false (Nat.lt_irrefl _)
  rcases h (.list [.int Number.textBound]) with ⟨p, hp⟩ | ⟨f, hf, hkind⟩
  · exact nomatch hbound.symm.trans hp
  · obtain rfl := Except.error.inj (hbound.symm.trans hf)
    exact absurd hkind (by decide)

end Parameters

end Quasiquote
