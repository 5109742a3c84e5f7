import Quasiquote.Proofs.Expansion.Failure
import Quasiquote.Proofs.Macro.Parameters
import Quasiquote.Reader.Form

namespace Quasiquote

open Stateful Template

/-- The kinds of failure that the language itself defines. -/
def Failure.ownKinds : List String :=
  ["SynquoteError", "SynquoteSyntaxError", "SynquoteNameError", "SynquoteTypeError",
    "SynquoteThrow", "ExpansionError", "UnknownMacro", "ArityMismatch", "MalformedSplice",
    "ExpansionDepthExceeded", "UnsupportedNestedTemplate"]

/-- A failure is of a kind that the language itself defines. -/
def Failure.IsOwn (f : Failure) : Prop := f.kind ∈ ownKinds

namespace Failure

theorem isOwn_malformed (fault : SyntaxFault) : (malformed fault).IsOwn := by
  simp [IsOwn, kind, ownKinds]

theorem isOwn_naming (fault : NameFault) : (naming fault).IsOwn := by
  simp [IsOwn, kind, ownKinds]

theorem isOwn_typing (fault : TypeFault) : (typing fault).IsOwn := by
  simp [IsOwn, kind, ownKinds]

theorem isOwn_expansion (macroName : Option String) (node : Option Value) (fault : ExpansionFault) :
    (expansion macroName node fault).IsOwn := by
  cases fault <;> simp [IsOwn, kind, ExpansionFault.kind, ownKinds]

theorem isOwn_locate {f : Failure} {name : String} {call : Value} (h : f.IsOwn) :
    (f.locate name call).IsOwn := by
  rw [IsOwn, Expander.kind_locate]
  exact h

end Failure

theorem Value.isWritable_single (v : Value) : v.single.isWritable = v.isWritable := by
  cases v <;> rfl

theorem Value.isWritable_sequenced (v : Value) : v.sequenced.isWritable = v.isWritable := by
  cases v <;> rfl

namespace Template

section

variable {m : Type → Type} [Monad m] [MonadFresh m] [Stateful m]

/-- Resolving an expression comes to a value: to an expression as it stands, or to what one resolves
to. -/
def ComesTo (site : Site m) (expr v : Value) : Prop :=
  Meets expr v ∨ ∃ e p q, Meets expr e ∧ Gives (resolve site e) p (.ok v) q

end

/-- What goes beyond the limits: an integer that is too long to be written, in a value or as the
last number that an allocator has handed out, and a range for which there is no room. -/
inductive Exceeds (site : Site (StateM Allocator)) (expr : Value) (a : Allocator) : Failure → Prop
  | value {v : Value} : ComesTo site expr v → v.isWritable = false → Exceeds site expr a .unwritable
  | number : (⟨a.next - 1⟩ : Allocator).isWritable = false → Exceeds site expr a .unwritable
  | range {bounds : List Int} {start stop step : Int} {fault : ArithmeticFault} :
      CallsHelper site expr "range" (bounds.map Value.int) →
      rangeBounds bounds = (start, stop, step) →
      roomBound ≤ rangeSize start stop step → fault = .uncountable ∨ fault = .noRoom →
      Exceeds site expr a (.arithmetic fault)

/-- The helper calls that fail with a kind of failure that the language does not define. -/
inductive Slips (site : Site (StateM Allocator)) (expr : Value) : Failure → Prop
  | inc : CallsHelper site expr "inc" [] → Slips site expr .missingArgument
  | dec : CallsHelper site expr "dec" [] → Slips site expr .missingArgument
  | range {start stop : Int} : CallsHelper site expr "range" [.int start, .int stop, .int 0] →
      Slips site expr (.arithmetic .zeroStep)

variable {site : Site (StateM Allocator)} {expr : Value} {f : Failure}
  {p q : RenameTable × Allocator}

theorem exceeds_of_gives_fresh {lead : String} {a b : Allocator}
    (h : Gives (m := StateM Allocator) (fresh lead) a (.error f) b) : Exceeds site expr b f := by
  obtain ⟨rfl, ha⟩ := Allocator.gives_fresh_error h
  obtain ⟨-, rfl⟩ := Allocator.gives_issue.mp h
  refine .number ?_
  rwa [Int.add_sub_cancel]

theorem failsAt_cases {t v : Value} {k : Int} (hmeets : Meets expr (.list [.sym .syntaxQuote, t]))
    (hvisits : Visits 1 t k v) (h : FailsAt site .macroTime q k v f) :
    f.IsOwn ∨ Exceeds site expr q.2 f := by
  cases h with
  | name hname =>
      obtain ⟨lead, hfresh⟩ := gives_qualify_error hname
      exact .inr (exceeds_of_gives_fresh hfresh)
  | @insertion s arg value _ p hs hl hvalue hinsertion =>
      obtain ⟨-, -, rfl | ⟨rfl, hwritable⟩⟩ := insertion_eq_error hs hinsertion
      · exact .inl (Failure.isOwn_expansion _ _ _)
      · have harg : Meets expr arg :=
          hmeets.trans (.escape (hvisits.mem_escapes hs) (Int.not_lt.mp hl) .here)
        exact .inr (.value (.inr ⟨arg, p, q, harg, hvalue⟩) hwritable)
  | tooNested => exact .inl (Failure.isOwn_expansion _ _ _)
  | malformed => exact .inl (Failure.isOwn_malformed _)

/-- The name of one of the helpers that fail in ways of their own. -/
def slippingName? : Helper → Option String
  | .inc => some "inc"
  | .dec => some "dec"
  | .range => some "range"
  | _ => none

theorem name_of_slippingName? {name name' : String} {h : Helper}
    (hh : Helper.builtin.find? name = some h) (hname : slippingName? h = some name') :
    name = name' := by
  have hentries : ∀ e ∈ Helper.builtin.entries, ∀ name' ∈ slippingName? e.2, e.1 = name' := by decide
  exact hentries (name, h) ((Table.find?_eq_some_iff _).mp hh) name' hname

theorem refuses_cases {name : String} {values : List Value} {h : Helper}
    (hcalls : CallsHelper site expr name values) (hh : Helper.builtin.find? name = some h)
    (hcomes : ∀ v ∈ values, v.isWritable = false → ∃ w, ComesTo site expr w ∧ w.isWritable = false)
    (hrefuses : Helper.Refuses h values f) (a : Allocator) :
    f.IsOwn ∨ Slips site expr f ∨ Exceeds site expr a f := by
  cases hrefuses with
  | typing fault => exact .inl (Failure.isOwn_typing fault)
  | unwritable hv hwritable =>
      obtain ⟨w, hw, hwritable⟩ := hcomes _ hv hwritable
      exact .inr (.inr (.value hw hwritable))
  | missing hreads =>
      rcases hreads with rfl | rfl
      · obtain rfl := name_of_slippingName? hh rfl
        exact .inr (.inl (.inc hcalls))
      · obtain rfl := name_of_slippingName? hh rfl
        exact .inr (.inl (.dec hcalls))
  | zeroStep start stop =>
      obtain rfl := name_of_slippingName? hh rfl
      exact .inr (.inl (.range hcalls))
  | large hbounds hroom hfault =>
      obtain rfl := name_of_slippingName? hh rfl
      exact .inr (.inr (.range hcalls hbounds hroom hfault))
  | host => exact nomatch Helper.isHost_of_builtin hh

theorem fails_cases {e : Value} (hh : site.helpers = Helper.builtin) (hmeets : Meets expr e)
    (h : Fails site q e f) : f.IsOwn ∨ Slips site expr f ∨ Exceeds site expr q.2 f := by
  cases h with
  | parameter => exact .inl (Failure.isOwn_naming _)
  | count => exact .inl (Failure.isOwn_malformed _)
  | stray => exact .inl (Failure.isOwn_malformed _)
  | helper => exact .inl (Failure.isOwn_naming _)
  | head => exact .inl (Failure.isOwn_naming _)
  | unwritable hhead =>
      obtain ⟨rfl, hwritable⟩ := Value.written_eq_error hhead
      refine .inr (.inr (.value (.inl hmeets) ?_))
      rw [Value.isWritable, Value.areWritable, hwritable, Bool.false_and]
  | @call s args values helper _ p u hq ht hqualified hhelper hvalues hcall =>
      rcases Helper.refuses_of_gives_call hcall with hrefuses | ⟨lead, a, hfresh⟩
      · have hcalls : CallsHelper site expr s.name values :=
          ⟨args, p, u, Symbol.eq_bare_of_isQualified hqualified ▸ hmeets, hvalues⟩
        refine refuses_cases hcalls (hh ▸ hhelper) (fun v hv hwritable => ?_) hrefuses q.2
        obtain ⟨arg, harg, value, p', q', hvalue, rfl⟩ := gives_resolveArguments hvalues hv
        rw [Value.isWritable_single] at hwritable
        exact ⟨value, .inr ⟨arg, p', q', hmeets.trans (.argument hq ht harg .here), hvalue⟩,
          hwritable⟩
      · exact .inr (.inr (exceeds_of_gives_fresh hfresh))
  | template hvisits hfails =>
      rcases failsAt_cases hmeets hvisits hfails with hown | hexceeds
      · exact .inl hown
      · exact .inr (.inr hexceeds)

theorem Slips.not_isOwn (h : Slips site expr f) : ¬f.IsOwn := by
  cases h <;> simp [Failure.IsOwn, Failure.kind, ArithmeticFault.kind, Failure.ownKinds]

theorem Exceeds.not_isOwn {a : Allocator} (h : Exceeds site expr a f) : ¬f.IsOwn := by
  cases h with
  | value => simp [Failure.IsOwn, Failure.unwritable, Failure.kind, Failure.ownKinds]
  | number => simp [Failure.IsOwn, Failure.unwritable, Failure.kind, Failure.ownKinds]
  | range _ _ _ hfault =>
      rcases hfault with rfl | rfl <;>
        simp [Failure.IsOwn, Failure.kind, ArithmeticFault.kind, Failure.ownKinds]

theorem locate_of_not_isOwn (h : ¬f.IsOwn) (name : String) (call : Value) :
    f.locate name call = f := by
  induction f using Failure.againInduction with
  | again id f ih => rw [Failure.locate, ih h]
  | other f hf =>
      cases f with
      | expansion macroName node fault =>
          exact absurd (Failure.isOwn_expansion macroName node fault) h
      | again id f => exact absurd rfl (hf id f)
      | _ => rfl

end Template

namespace Expander

variable {e : Expander} {caller : Option Namespace} {m : Macro} {form : Value}

theorem expandOnce_failure_cases {s t : ExpansionState} {f : Failure}
    (hm : e.macroFor caller form = some m) (hh : e.helpers = Helper.builtin)
    (h : Gives (m := StateM ExpansionState) (e.expandOnce caller form) s (.error f) t) :
    f.IsOwn ∨ ∃ bound, Binds m form bound ∧
      (Slips (e.site m bound) m.body f ∨ Exceeds (e.site m bound) m.body t.allocator f) := by
  rcases exists_cause_of_gives_expandOnce hm h with
    ⟨got, rfl⟩ | ⟨bound, hbinds, ⟨table, v, f', hmeets, hfails, rfl⟩ | ⟨rfl, -, v, a, hbody, hv⟩⟩
  · exact .inl (Failure.isOwn_expansion _ _ _)
  · rcases fails_cases hh hmeets hfails with hown | hslips | hexceeds
    · exact .inl (Failure.isOwn_locate hown)
    · rw [locate_of_not_isOwn hslips.not_isOwn]
      exact .inr ⟨bound, hbinds, .inl hslips⟩
    · rw [locate_of_not_isOwn hexceeds.not_isOwn]
      exact .inr ⟨bound, hbinds, .inr hexceeds⟩
  · obtain ⟨table, hresolve⟩ := Building.gives_runFrom.mp hbody
    rw [Value.isWritable_sequenced] at hv
    exact .inr ⟨bound, hbinds, .inr (.value (.inr ⟨m.body, _, _, .here, hresolve⟩) hv)⟩

/-- With the built-in helpers, a call of a macro expands in one way: it returns a node or fails. A
failure is of a kind that the language itself defines, unless the body comes to a call of `inc` or
`dec` without arguments or of `range` with a step of zero, or goes beyond the limits on integers and
ranges; and then it is of another kind. -/
theorem expandOnce_failure_isOwn_iff (hm : e.macroFor caller form = some m)
    (hh : e.helpers = Helper.builtin) (s : ExpansionState) :
    ∃ (r : Except Failure Value) (t : ExpansionState),
      (∀ r' t', Gives (m := StateM ExpansionState) (e.expandOnce caller form) s r' t' ↔
        r' = r ∧ t' = t) ∧
      ∀ f, r = .error f → (¬f.IsOwn ↔ ∃ bound, Binds m form bound ∧
        (Slips (e.site m bound) m.body f ∨ Exceeds (e.site m bound) m.body t.allocator f)) := by
  refine ⟨(e.expandOnce caller form s).1, (e.expandOnce caller form s).2, fun r' t' => ?_,
    fun f hf => ⟨fun hown => ?_, ?_⟩⟩
  · change e.expandOnce caller form s = (r', t') ↔ _
    rw [Prod.ext_iff, eq_comm (a := r'), eq_comm (a := t')]
  · exact (expandOnce_failure_cases hm hh (Prod.ext hf rfl)).resolve_left hown
  · rintro ⟨bound, -, hslips | hexceeds⟩
    · exact hslips.not_isOwn
    · exact hexceeds.not_isOwn

/-- A macro `m` without parameters. -/
def bodyMacro (body : Value) : Macro := ⟨"m", ⟨[], none, List.nodup_nil⟩, body, "u"⟩

theorem expandOnce_failure_isOwn_iff_count :
    ∃ f t, Gives (m := StateM ExpansionState)
        ((only (bodyMacro (.list [.bare "count"]))).expandOnce none (.list [.bare "m"]))
          ({} : ExpansionState) (.error f) t ∧ f.IsOwn := by
  have h : Gives (m := StateM ExpansionState)
      ((only (bodyMacro (.list [.bare "count"]))).expandOnce none (.list [.bare "m"]))
        ({} : ExpansionState) (.error (.typing (.argumentCount "count" 1)))
          ({} : ExpansionState) := rfl
  have hm : (only (bodyMacro (.list [.bare "count"]))).macroFor none (.list [.bare "m"]) =
      some (bodyMacro (.list [.bare "count"])) := rfl
  obtain ⟨r, t, hgives, hown⟩ := expandOnce_failure_isOwn_iff hm rfl {}
  obtain ⟨rfl, rfl⟩ := (hgives _ _).mp h
  refine ⟨_, _, h, by_contra fun hnot => ?_⟩
  obtain ⟨bound, -, hslips | hexceeds⟩ := (hown _ rfl).mp hnot
  · exact nomatch hslips
  · exact nomatch hexceeds

/-- With the body `(inc)` the call `(m)` fails because an argument is read that is not there. -/
theorem not_isOwn_incWithoutArgument :
    ¬∀ (e : Expander) (caller : Option Namespace) (m : Macro) (form : Value) (s t : ExpansionState)
      (f : Failure), e.macroFor caller form = some m → e.helpers = Helper.builtin →
      (∃ text, Reader.readOne text = .ok m.body) → (∃ text, Reader.readOne text = .ok form) →
      Gives (m := StateM ExpansionState) (e.expandOnce caller form) s (.error f) t → f.IsOwn := by
  intro h
  have hfailed : Gives (m := StateM ExpansionState)
      ((only (bodyMacro (.list [.bare "inc"]))).expandOnce none (.list [.bare "m"]))
        ({} : ExpansionState) (.error .missingArgument) ({} : ExpansionState) := rfl
  have hown := h _ none (bodyMacro (.list [.bare "inc"])) (.list [.bare "m"]) _ _ _ rfl rfl
    ⟨"(inc)".toList, rfl⟩ ⟨"(m)".toList, rfl⟩ hfailed
  simp [Failure.IsOwn, Failure.kind, Failure.ownKinds] at hown

end Expander

end Quasiquote
