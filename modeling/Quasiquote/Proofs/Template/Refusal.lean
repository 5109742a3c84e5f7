import Quasiquote.Proofs.Template.Resolve

namespace Quasiquote

open Stateful

theorem Value.written_eq_error {v : Value} {α : Type} {text : Value → α} {f : Failure}
    (h : v.written text = .error f) : f = .unwritable ∧ v.isWritable = false := by
  unfold written at h
  split at h
  · exact nomatch h
  · rename_i hv
    cases h
    exact ⟨rfl, Bool.eq_false_iff.mpr hv⟩

namespace Helper

/-- The ways in which a helper refuses its arguments. -/
inductive Refuses : Helper → List Value → Failure → Prop
  | typing {h : Helper} {args : List Value} (fault : TypeFault) : Refuses h args (.typing fault)
  | unwritable {h : Helper} {args : List Value} {v : Value} : v ∈ args → v.isWritable = false →
      Refuses h args .unwritable
  | missing {h : Helper} : h = inc ∨ h = dec → Refuses h [] .missingArgument
  | zeroStep (start stop : Int) :
      Refuses range [.int start, .int stop, .int 0] (.arithmetic .zeroStep)
  | large {bounds : List Int} {start stop step : Int} {fault : ArithmeticFault} :
      rangeBounds bounds = (start, stop, step) → roomBound ≤ rangeSize start stop step →
      fault = .uncountable ∨ fault = .noRoom →
      Refuses range (bounds.map Value.int) (.arithmetic fault)
  | host {call : List Value → HelperCall} {args : List Value} {f : Failure} :
      (call args).Ends (.error f) → Refuses (host call) args f

variable {h : Helper} {args : List Value} {v : Value} {f : Failure} {who : String}

theorem refuses_of_quoted {α : Type} (hv : v ∈ args) {fault : String → TypeFault}
    (h' : (v.written Value.quoted >>= fun text => throw (.typing (fault text)) :
      Except Failure α) = .error f) : Refuses h args f := by
  rcases bind_eq_error.mp h' with hw | ⟨text, -, hf⟩
  · obtain ⟨rfl, hv'⟩ := Value.written_eq_error hw
    exact .unwritable hv hv'
  · cases hf
    exact .typing _

theorem refuses_of_sequence (hv : v ∈ args) (h' : sequence who v = .error f) :
    Refuses h args f := by
  cases v with
  | nil => exact nomatch h'
  | list items => exact nomatch h'
  | tuple items => exact nomatch h'
  | _ => exact refuses_of_quoted hv h'

theorem refuses_of_integer (hv : v ∈ args) (h' : integer who v = .error f) : Refuses h args f := by
  unfold integer at h'
  split at h'
  · exact nomatch h'
  · exact refuses_of_quoted hv h'

theorem refuses_of_spelling (hv : v ∈ args) (h' : spelling v = .error f) : Refuses h args f := by
  obtain ⟨rfl, hv'⟩ := Value.written_eq_error h'
  exact .unwritable hv hv'

theorem refuses_of_only (h' : only who args = .error f) : Refuses h args f := by
  rcases args with _ | ⟨v, _ | ⟨w, args⟩⟩
  · cases h'
    exact .typing _
  · exact nomatch h'
  · cases h'
    exact .typing _

theorem mem_of_only (h' : only who args = .ok v) : v ∈ args := by
  rw [eq_of_only h']
  exact List.mem_cons_self

theorem refuses_of_leading (hh : h = inc ∨ h = dec) (h' : leading args = .error f) :
    Refuses h args f := by
  cases args with
  | nil =>
      cases h'
      exact .missing hh
  | cons v args => exact nomatch h'

theorem mem_of_leading (h' : leading args = .ok v) : v ∈ args := by
  cases args with
  | nil => exact nomatch h'
  | cons w args =>
      cases h'
      exact List.mem_cons_self

theorem refuses_of_headD (h' : sequence who (args.headD .nil) = .error f) : Refuses h args f := by
  cases args with
  | nil => exact nomatch h'
  | cons v args => exact refuses_of_sequence List.mem_cons_self h'

theorem eq_of_integer {n : Int} (h' : integer who v = .ok n) : v = .int n := by
  unfold integer at h'
  split at h'
  · cases h'
    rfl
  · obtain ⟨_, -, h'⟩ := bind_eq_ok.mp h'
    exact nomatch h'

theorem eq_map_of_integers {bounds : List Int} (h' : args.mapM (integer who) = .ok bounds) :
    args = bounds.map Value.int := by
  induction args generalizing bounds with
  | nil =>
      cases h'
      rfl
  | cons v args ih =>
      rw [List.mapM_cons] at h'
      obtain ⟨n, hn, h'⟩ := bind_eq_ok.mp h'
      obtain ⟨ns, hns, h'⟩ := bind_eq_ok.mp h'
      cases h'
      rw [eq_of_integer hn, ih hns]
      rfl

theorem exists_of_step_zero {bounds : List Int} (hlength : bounds.length ≤ 3)
    (h : (rangeBounds bounds).2.2 = 0) : ∃ start stop, bounds = [start, stop, 0] := by
  rcases bounds with _ | ⟨start, _ | ⟨stop, _ | ⟨step, _ | ⟨_, _⟩⟩⟩⟩
  · exact absurd h Int.one_ne_zero
  · exact absurd h Int.one_ne_zero
  · exact absurd h Int.one_ne_zero
  · cases h
    exact ⟨start, stop, rfl⟩
  · simp only [List.length_cons] at hlength
    omega

theorem refuses_of_rangeOf {bounds : List Int} (hlength : bounds.length ≤ 3)
    (h' : rangeOf bounds = .error f) : Refuses range (bounds.map Value.int) f := by
  unfold rangeOf at h'
  dsimp only at h'
  split at h'
  · rename_i hstep
    cases h'
    obtain ⟨start, stop, rfl⟩ := exists_of_step_zero hlength hstep
    exact .zeroStep start stop
  · split at h'
    · rename_i hcount
      cases h'
      have hroom : roomBound ≤ countBound := by decide
      exact .large rfl (Nat.le_trans hroom hcount) (.inl rfl)
    · split at h'
      · cases h'
        exact .large rfl ‹_› (.inr rfl)
      · exact nomatch h'

theorem refuses_of_makeRange (h' : makeRange args = .error f) : Refuses range args f := by
  unfold makeRange at h'
  split at h'
  · cases h'
    exact .typing _
  · rename_i hlength
    rcases bind_eq_error.mp h' with hints | ⟨bounds, hints, hrange⟩
    · obtain ⟨v, hv, hinteger⟩ := exists_mem_of_mapM_eq_error hints
      exact refuses_of_integer hv hinteger
    · obtain rfl := eq_map_of_integers hints
      refine refuses_of_rangeOf ?_ hrange
      by_contra hmany
      simp [Nat.not_le.mp hmany] at hlength

theorem refuses_of_makeSymbol (h' : makeSymbol args = .error f) : Refuses h args f := by
  rcases args with _ | ⟨v, _ | ⟨w, _ | ⟨u, args⟩⟩⟩
  · cases h'
    exact .typing _
  · exact refuses_of_spelling List.mem_cons_self (bind_pure_eq_error.mp h')
  · rcases bind_eq_error.mp h' with hw | ⟨_, -, h'⟩
    · exact refuses_of_spelling (List.mem_cons_of_mem _ List.mem_cons_self) hw
    · exact refuses_of_spelling List.mem_cons_self (bind_pure_eq_error.mp h')
  · cases h'
    exact .typing _

theorem refuses_of_makeKeyword (h' : makeKeyword args = .error f) : Refuses h args f := by
  rcases bind_eq_error.mp h' with honly | ⟨v, honly, h'⟩
  · exact refuses_of_only honly
  · exact refuses_of_spelling (mem_of_only honly) (bind_pure_eq_error.mp h')

theorem refuses_of_gensymLead (h' : gensymLead args = .error f) : Refuses h args f := by
  rcases args with _ | ⟨v, _ | ⟨w, args⟩⟩
  · exact nomatch h'
  · exact refuses_of_spelling List.mem_cons_self h'
  · cases h'
    exact .typing _

theorem refuses_of_only_sequence {α : Type} {k : List Value → α}
    (h' : (only who args >>= fun v => sequence who v >>= fun items => pure (k items) :
      Except Failure α) = .error f) : Refuses h args f := by
  rcases bind_eq_error.mp h' with honly | ⟨v, honly, h'⟩
  · exact refuses_of_only honly
  · exact refuses_of_sequence (mem_of_only honly) (bind_pure_eq_error.mp h')

theorem refuses_of_leading_integer {k : Int → Value} (hh : h = inc ∨ h = dec)
    (h' : (leading args >>= fun v => integer who v >>= fun n => pure (k n) :
      Except Failure Value) = .error f) : Refuses h args f := by
  rcases bind_eq_error.mp h' with hleading | ⟨v, hleading, h'⟩
  · exact refuses_of_leading hh hleading
  · exact refuses_of_integer (mem_of_leading hleading) (bind_pure_eq_error.mp h')

theorem refuses_of_makeCons (h' : makeCons args = .error f) : Refuses h args f := by
  rcases args with _ | ⟨v, _ | ⟨vs, _ | ⟨u, args⟩⟩⟩
  · cases h'
    exact .typing _
  · cases h'
    exact .typing _
  · exact refuses_of_sequence (List.mem_cons_of_mem _ List.mem_cons_self)
      (bind_pure_eq_error.mp h')
  · cases h'
    exact .typing _

theorem refuses_of_gensymCall (h' : (gensymCall args).Ends (.error f)) : Refuses h args f := by
  rcases ends_gensymCall h' with ⟨f', hlead, hf⟩ | ⟨name, hf⟩
  · cases hf
    exact refuses_of_gensymLead hlead
  · cases hf

/-- All that a helper fails with is a refusal. -/
theorem refuses_of_ends (h' : (h.course args).Ends (.error f)) : Refuses h args f := by
  cases h with
  | gensym => exact refuses_of_gensymCall h'
  | host call => exact .host h'
  | list => exact nomatch HelperCall.eq_of_ends_done h'
  | vec => exact refuses_of_only_sequence (HelperCall.eq_of_ends_done h')
  | concat =>
      obtain ⟨v, hv, hsequence⟩ := exists_mem_of_mapM_eq_error
        (bind_pure_eq_error.mp (HelperCall.eq_of_ends_done h'))
      exact refuses_of_sequence hv hsequence
  | cons => exact refuses_of_makeCons (HelperCall.eq_of_ends_done h')
  | first => exact refuses_of_headD (bind_pure_eq_error.mp (HelperCall.eq_of_ends_done h'))
  | rest => exact refuses_of_headD (bind_pure_eq_error.mp (HelperCall.eq_of_ends_done h'))
  | count => exact refuses_of_only_sequence (HelperCall.eq_of_ends_done h')
  | range => exact refuses_of_makeRange (HelperCall.eq_of_ends_done h')
  | inc => exact refuses_of_leading_integer (.inl rfl) (HelperCall.eq_of_ends_done h')
  | dec => exact refuses_of_leading_integer (.inr rfl) (HelperCall.eq_of_ends_done h')
  | str =>
      obtain ⟨v, hv, hspelling⟩ := exists_mem_of_mapM_eq_error
        (bind_pure_eq_error.mp (HelperCall.eq_of_ends_done h'))
      exact refuses_of_spelling hv hspelling
  | symbol => exact refuses_of_makeSymbol (HelperCall.eq_of_ends_done h')
  | keyword => exact refuses_of_makeKeyword (HelperCall.eq_of_ends_done h')

variable {m : Type → Type} [Monad m] [MonadFresh m] [Stateful m] {p q : RenameTable × State m}

theorem refuses_of_gives_call (h' : Gives (h.call args : Building m Value) p (.error f) q) :
    Refuses h args f ∨ ∃ lead s, Gives (fresh lead) s (.error f) q.2 :=
  (HelperCall.ends_of_gives_run_error h').imp_left refuses_of_ends

end Helper

end Quasiquote
