import Quasiquote.Proofs.Template.Splice

namespace Quasiquote

open Stateful

namespace Helper

theorem isSpliceFree_sequence {who : String} {v : Value} {items : List Value}
    (hv : v.isSpliceFree = true) (h : sequence who v = .ok items) :
    ∀ w ∈ items, w.isSpliceFree = true := by
  cases v with
  | nil =>
      cases h
      simp
  | list items' =>
      cases h
      exact Value.isSpliceFree_list_iff.mp hv
  | tuple items' =>
      cases h
      exact Value.areSpliceFree_iff.mp hv
  | _ =>
      obtain ⟨_, _, h⟩ := bind_eq_ok.mp h
      exact nomatch h

theorem eq_of_only {who : String} {args : List Value} {v : Value} (h : only who args = .ok v) :
    args = [v] := by
  rcases args with _ | ⟨w, _ | ⟨w', args⟩⟩
  · exact nomatch h
  · cases h
    rfl
  · exact nomatch h

theorem isSpliceFree_makeRange {args : List Value} {v : Value} (h : makeRange args = .ok v) :
    v.isSpliceFree = true := by
  unfold makeRange at h
  split at h
  · exact nomatch h
  obtain ⟨bounds, -, h⟩ := bind_eq_ok.mp h
  unfold rangeOf at h
  dsimp only at h
  split at h
  · exact nomatch h
  split at h
  · exact nomatch h
  split at h
  · exact nomatch h
  · cases h
    rw [Value.isSpliceFree_list_iff]
    simp [Value.int, Value.isSpliceFree]

theorem isSpliceFree_makeSymbol {args : List Value} {v : Value} (h : makeSymbol args = .ok v) :
    v.isSpliceFree = true := by
  rcases args with _ | ⟨v, _ | ⟨w, _ | ⟨u, args⟩⟩⟩
  · exact nomatch h
  · obtain ⟨_, -, h⟩ := bind_eq_ok.mp h
    cases h
    rfl
  · obtain ⟨_, -, h⟩ := bind_eq_ok.mp h
    obtain ⟨_, -, h⟩ := bind_eq_ok.mp h
    cases h
    rfl
  · exact nomatch h

theorem isSpliceFree_bind {α : Type} {x : Except Failure α} {k : α → Except Failure Value}
    {v : Value} (h : (x >>= k) = .ok v) (hk : ∀ a, k a = .ok v → v.isSpliceFree = true) :
    v.isSpliceFree = true := by
  obtain ⟨a, -, ha⟩ := bind_eq_ok.mp h
  exact hk a ha

theorem isSpliceFree_makeKeyword {args : List Value} {v : Value} (h : makeKeyword args = .ok v) :
    v.isSpliceFree = true :=
  isSpliceFree_bind h fun _ h => isSpliceFree_bind h fun _ h => by
    cases h
    rfl

section

variable {args items : List Value} {who : String} {v : Value}
variable (ha : ∀ w ∈ args, w.isSpliceFree = true)
include ha

theorem isSpliceFree_of_only (h : only who args = .ok v) : v.isSpliceFree = true :=
  ha v (by simp [eq_of_only h])

theorem isSpliceFree_headD (h : sequence who (args.headD .nil) = .ok items) :
    ∀ w ∈ items, w.isSpliceFree = true := by
  refine isSpliceFree_sequence ?_ h
  cases args with
  | nil => rfl
  | cons w args => exact ha w List.mem_cons_self

theorem isSpliceFree_flatten {rows : List (List Value)} (h : args.mapM (sequence who) = .ok rows) :
    ∀ w ∈ rows.flatten, w.isSpliceFree = true := by
  intro w hw
  obtain ⟨row, hrow, hw⟩ := List.mem_flatten.mp hw
  obtain ⟨arg, harg, hs⟩ := exists_mem_of_mapM_eq_ok h hrow
  exact isSpliceFree_sequence (ha arg harg) hs w hw

theorem isSpliceFree_makeCons (h : makeCons args = .ok v) : v.isSpliceFree = true := by
  rcases args with _ | ⟨w, _ | ⟨ws, _ | ⟨u, args⟩⟩⟩
  · exact nomatch h
  · exact nomatch h
  · obtain ⟨items, hi, h⟩ := bind_eq_ok.mp h
    cases h
    rw [Value.isSpliceFree_list_iff, List.forall_mem_cons]
    exact ⟨ha w (by simp), isSpliceFree_sequence (ha ws (by simp)) hi⟩
  · exact nomatch h

end

/-- Whether no splice comes out of a helper unless one is among its arguments. -/
def MakesNoSplice (h : Helper) : Prop :=
  ∀ args v, (∀ w ∈ args, w.isSpliceFree = true) → (h.course args).Ends (.ok v) →
    v.isSpliceFree = true

theorem makesNoSplice_gensym : gensym.MakesNoSplice := by
  intro args v _ h
  rcases ends_gensymCall h with ⟨f, -, hv⟩ | ⟨name, hv⟩
  · cases hv
  · cases hv
    rfl

def isHost : Helper → Bool
  | host _ => true
  | _ => false

/-- Only a helper of a host makes splices. -/
theorem makesNoSplice_of_isHost {h : Helper} (hh : h.isHost = false) : h.MakesNoSplice := by
  intro args v ha hends
  cases h with
  | gensym => exact makesNoSplice_gensym args v ha hends
  | host call => exact nomatch hh
  | list =>
      cases HelperCall.eq_of_ends_done hends
      exact Value.isSpliceFree_list_iff.mpr ha
  | vec =>
      obtain ⟨w, hw, hv⟩ := bind_eq_ok.mp (HelperCall.eq_of_ends_done hends)
      obtain ⟨items, hi, hv⟩ := bind_eq_ok.mp hv
      cases hv
      exact Value.isSpliceFree_list_iff.mpr (isSpliceFree_sequence (isSpliceFree_of_only ha hw) hi)
  | concat =>
      obtain ⟨rows, hrows, hv⟩ := bind_eq_ok.mp (HelperCall.eq_of_ends_done hends)
      cases hv
      exact Value.isSpliceFree_list_iff.mpr (isSpliceFree_flatten ha hrows)
  | cons => exact isSpliceFree_makeCons ha (HelperCall.eq_of_ends_done hends)
  | first =>
      obtain ⟨items, hi, hv⟩ := bind_eq_ok.mp (HelperCall.eq_of_ends_done hends)
      cases hv
      cases items with
      | nil => rfl
      | cons w items => exact isSpliceFree_headD ha hi w List.mem_cons_self
  | rest =>
      obtain ⟨items, hi, hv⟩ := bind_eq_ok.mp (HelperCall.eq_of_ends_done hends)
      cases hv
      exact Value.isSpliceFree_list_iff.mpr fun w hw =>
        isSpliceFree_headD ha hi w (List.mem_of_mem_tail hw)
  | range => exact isSpliceFree_makeRange (HelperCall.eq_of_ends_done hends)
  | symbol => exact isSpliceFree_makeSymbol (HelperCall.eq_of_ends_done hends)
  | keyword => exact isSpliceFree_makeKeyword (HelperCall.eq_of_ends_done hends)
  | str =>
      refine isSpliceFree_bind (HelperCall.eq_of_ends_done hends) fun _ hv => ?_
      cases hv
      rfl
  | _ =>
      refine isSpliceFree_bind (HelperCall.eq_of_ends_done hends) fun _ hv =>
        isSpliceFree_bind hv fun _ hv => ?_
      cases hv
      rfl

theorem isHost_of_builtin {name : String} {h : Helper} (hh : builtin.find? name = some h) :
    h.isHost = false := by
  have hentries : ∀ e ∈ builtin.entries, e.2.isHost = false := by decide
  exact hentries (name, h) ((Table.find?_eq_some_iff _).mp hh)

theorem makesNoSplice_of_builtin {name : String} {h : Helper}
    (hh : builtin.find? name = some h) : h.MakesNoSplice :=
  makesNoSplice_of_isHost (isHost_of_builtin hh)

end Helper

namespace Template

variable {m : Type → Type} [Monad m] [MonadFresh m] [Stateful m] {site : Site m}
variable {p q : RenameTable × State m} {v : Value}

theorem gives_resolve_atom {t : Value} (ht : t.IsAtom)
    (h : Gives (resolve site t) p (.ok v) q) : v = t := by
  cases t with
  | sym s => exact ht.elim
  | list items => exact ht.elim
  | _ =>
      simp only [resolve] at h
      exact Except.ok.inj (gives_pure.mp h).1

theorem gives_resolve_symbol {s : Symbol} (h : Gives (resolve site (.sym s)) p (.ok v) q) :
    site.bindings.find? s.name = some v := by
  rw [resolve.eq_def] at h
  dsimp only at h
  split at h
  · rename_i heq
    split at heq
    · cases heq
    · obtain rfl := Except.ok.inj (gives_pure.mp h).1
      exact heq
  · cases (gives_throw.mp h).1

theorem gives_resolve_list {items : List Value}
    (h : Gives (resolve site (.list items)) p (.ok v) q) :
    (items = [] ∧ v = .list []) ∨ items = [.sym .quote, v] ∨
      (∃ t, items = [.sym .syntaxQuote, t] ∧ Gives (build site .macroTime 1 t) p (.ok v) q) ∨
        ∃ s args helper values u, items = .sym s :: args ∧ s ≠ .quote ∧ s ≠ .syntaxQuote ∧
          site.helpers.find? s.name = some helper ∧
            Gives (resolveArguments site args) p (.ok values) u ∧
              Gives (helper.call values : Building m Value) u (.ok v) q := by
  rcases items with _ | ⟨head, args⟩
  · rw [resolve] at h
    exact .inl ⟨rfl, Except.ok.inj (gives_pure.mp h).1⟩
  cases head with
  | sym s =>
      rw [resolve.eq_def] at h
      dsimp only at h
      split at h
      · rename_i hs
        split at h
        · split at h
          · obtain rfl := Except.ok.inj (gives_pure.mp h).1
            simp [*]
          · obtain rfl := hs.resolve_left ‹_›
            exact .inr (.inr (.inl ⟨_, rfl, h⟩))
        · cases (gives_throw.mp h).1
      · rename_i hs
        rw [not_or] at hs
        split at h
        · cases (gives_throw.mp h).1
        · split at h
          · rename_i helper heq
            split at heq
            · cases heq
            · obtain ⟨values, u, hvalues, h⟩ := gives_bind_ok.mp h
              exact .inr (.inr (.inr ⟨s, args, helper, values, u, rfl, hs.1, hs.2, heq, hvalues,
                h⟩))
          · cases (gives_throw.mp h).1
  | _ =>
      simp only [resolve] at h
      obtain ⟨_, _, -, h⟩ := gives_bind_ok.mp h
      cases (gives_throw.mp h).1

theorem gives_resolveArguments {args values : List Value}
    (h : Gives (resolveArguments site args) p (.ok values) q) {w : Value} (hw : w ∈ values) :
    ∃ arg ∈ args, ∃ value p' q', Gives (resolve site arg) p' (.ok value) q' ∧
      w = value.single := by
  induction args generalizing p values with
  | nil =>
      rw [resolveArguments] at h
      cases (gives_pure.mp h).1
      cases hw
  | cons arg args ih =>
      rw [resolveArguments] at h
      obtain ⟨value, u, hvalue, h⟩ := gives_bind_ok.mp h
      obtain ⟨ws, hws, rfl⟩ := gives_bind_pure_ok.mp h
      rcases List.mem_cons.mp hw with rfl | hw
      · exact ⟨arg, by simp, value, p, u, hvalue, rfl⟩
      · obtain ⟨arg', harg, h⟩ := ih hws hw
        exact ⟨arg', by simp [harg], h⟩

/-- The templates that are built when an expression is resolved. With `throughCalls` the arguments
of calls count too; a helper need not use what it is given. -/
inductive Builds (throughCalls : Prop) : Value → Value → Prop
  | self {t : Value} : Builds throughCalls (.list [.sym .syntaxQuote, t]) t
  | inner {t u : Value} {e : Escape} : e ∈ escapes 1 t → e.level ≤ 1 →
      Builds throughCalls e.arg u → Builds throughCalls (.list [.sym .syntaxQuote, t]) u
  | argument {s : Symbol} {args : List Value} {arg u : Value} : throughCalls → s ≠ .quote →
      s ≠ .syntaxQuote → arg ∈ args → Builds throughCalls arg u →
      Builds throughCalls (.list (.sym s :: args)) u

theorem isClean_of_gives_resolve [LawfulMonad m]
    (hh : ∀ name h, site.helpers.find? name = some h → h.MakesNoSplice)
    (hb : ∀ name v, site.bindings.find? name = some v → v.isSpliceFree = true) {expr : Value}
    (he : expr.isSpliceFree = true) (hl : ∀ t, Builds True expr t → ¬Leaks 1 t)
    (h : Gives (resolve site expr) p (.ok v) q) : v.IsClean := by
  induction hn : sizeOf expr using Nat.strongRecOn generalizing expr p q v with
  | ind n ih =>
      subst hn
      cases expr with
      | sym s => exact Value.isClean_of_isSpliceFree (hb _ _ (gives_resolve_symbol h))
      | list items =>
          have hitems := Value.isSpliceFree_list_iff.mp he
          rcases gives_resolve_list h with ⟨-, rfl⟩ | rfl | ⟨t, rfl, h⟩ |
            ⟨s, args, helper, values, u, rfl, hq, ht, hhelper, hvalues, h⟩
          · simp [Value.isClean_list_iff]
          · exact Value.isClean_of_isSpliceFree (hitems v (by simp))
          · obtain ⟨answers, hbuilt, ha⟩ := built_of_gives Resolver.macroTime_movesAlong h
              (fun _ _ h => h)
            refine (hbuilt.isClean_iff (by omega) (hitems t (by simp))).mpr ⟨hl t .self, ?_⟩
            intro a hmem
            obtain ⟨e, hesc, hlevel, harg⟩ := exists_escape hbuilt hmem
            obtain ⟨p', q', hanswer⟩ := ha a hmem
            rw [← harg] at hanswer
            refine ih _ ?_ ?_ (fun u hu => hl u (.inner hesc hlevel hu)) hanswer rfl
            · exact Nat.lt_trans (sizeOf_arg_lt_of_mem_escapes hesc)
                (Value.sizeOf_lt_of_mem_list (by simp))
            · exact isSpliceFree_arg_of_mem_escapes (hitems t (by simp)) hesc
          · apply Value.isClean_of_isSpliceFree
            refine hh _ _ hhelper values v ?_ (HelperCall.ends_of_gives_run h)
            intro w hw
            obtain ⟨arg, harg, value, p', q', hvalue, rfl⟩ := gives_resolveArguments hvalues hw
            have harg' : arg ∈ Value.sym s :: args := by simp [harg]
            exact Value.isSpliceFree_single_iff.mpr (ih _ (Value.sizeOf_lt_of_mem_list harg')
              (hitems arg harg') (fun u hu => hl u (.argument trivial hq ht harg hu)) hvalue rfl)
      | _ =>
          obtain rfl := gives_resolve_atom (by trivial) h
          exact Value.isClean_of_isSpliceFree he

theorem not_isClean_of_gives_resolve [LawfulMonad m] {expr t : Value}
    (he : expr.isSpliceFree = true) (ht : Builds False expr t) (hl : Leaks 1 t)
    (h : Gives (resolve site expr) p (.ok v) q) : ¬v.IsClean := by
  induction ht generalizing p q v with
  | self =>
      rw [resolve_template] at h
      obtain ⟨answers, hbuilt, -⟩ := built_of_gives Resolver.macroTime_movesAlong h
        (fun _ _ h => h)
      rw [hbuilt.isClean_iff (by omega) (Value.isSpliceFree_list_iff.mp he _ (by simp))]
      exact fun h => h.1 hl
  | inner hesc hlevel _ ih =>
      rw [resolve_template] at h
      obtain ⟨answers, hbuilt, ha⟩ := built_of_gives Resolver.macroTime_movesAlong h
        (fun _ _ h => h)
      have ht := Value.isSpliceFree_list_iff.mp he _
        (List.mem_cons_of_mem _ (List.mem_singleton_self _))
      obtain ⟨value, hmem⟩ := exists_answer hbuilt hesc hlevel
      obtain ⟨p', q', hanswer⟩ := ha _ hmem
      rw [hbuilt.isClean_iff (by omega) ht]
      exact fun h => ih (isSpliceFree_arg_of_mem_escapes ht hesc) hl hanswer (h.2 _ hmem)
  | argument hfalse => exact hfalse.elim

end Template

end Quasiquote
