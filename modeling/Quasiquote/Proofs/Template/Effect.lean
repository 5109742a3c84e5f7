import Quasiquote.Proofs.Outcome
import Quasiquote.Proofs.Template.Shape

namespace Quasiquote

open Stateful

theorem Allocator.gives_issue {lead : String} {a b : Allocator} {r : Except Failure String} :
    Gives (m := StateM Allocator) (issue lead) a r b ↔
      r = (if a.isWritable then .ok (lead ++ toString a.next) else .error .unwritable) ∧
        b = ⟨a.next + 1⟩ := by
  rw [eq_comm, eq_comm (a := b), ← Prod.mk.injEq]
  exact Iff.rfl

theorem Allocator.gives_issue_ok {lead name : String} {a b : Allocator} :
    Gives (m := StateM Allocator) (issue lead) a (.ok name) b ↔
      a.isWritable = true ∧ name = lead ++ toString a.next ∧ b = ⟨a.next + 1⟩ := by
  rw [gives_issue]
  cases a.isWritable <;> simp

variable {m : Type → Type} [Monad m] [MonadFresh m] [Stateful m]

theorem gives_renamed {p q : RenameTable × State m} {s : Symbol} {r : Except Failure Symbol} :
    Gives (renamed s : Building m Symbol) p r q ↔
      (∃ known, p.1.find? s.name = some known ∧ r = .ok known ∧ q = p) ∨
        p.1.find? s.name = none ∧
          ((∃ f, Gives (fresh (s.unmarkedName ++ "__")) p.2 (.error f) q.2 ∧
              r = .error f ∧ q.1 = p.1) ∨
            ∃ name t, Gives (fresh (s.unmarkedName ++ "__")) p.2 (.ok name) t ∧
              r = .ok ⟨name ++ renameEnding, none⟩ ∧
                q = (p.1.insert s.name ⟨name ++ renameEnding, none⟩, t)) := by
  rw [renamed, Building.gives_get_bind]
  cases h : p.1.find? s.name with
  | some known => simp
  | none => simp [Building.gives_performFailing_bind, Building.gives_modify_bind]

theorem gives_renamed_ok {s : Symbol} {p : RenameTable × Allocator}
    (hnone : p.1.find? s.name = none) (h : p.2.isWritable = true) :
    Gives (m := StateT RenameTable (StateM Allocator)) (renamed s) p
      (.ok ⟨s.unmarkedName ++ "__" ++ toString p.2.next ++ renameEnding, none⟩)
      (p.1.insert s.name ⟨s.unmarkedName ++ "__" ++ toString p.2.next ++ renameEnding, none⟩,
        ⟨p.2.next + 1⟩) :=
  gives_renamed.mpr (.inr ⟨hnone, .inr ⟨_, _, Allocator.gives_issue_ok.mpr ⟨h, rfl, rfl⟩, rfl,
    rfl⟩⟩)

theorem gives_renamed_unwritable {s : Symbol} {p : RenameTable × Allocator}
    (hnone : p.1.find? s.name = none) (h : p.2.isWritable = false) :
    Gives (m := StateT RenameTable (StateM Allocator)) (renamed s) p (.error .unwritable)
      (p.1, ⟨p.2.next + 1⟩) := by
  refine gives_renamed.mpr (.inr ⟨hnone, .inl ⟨_, Allocator.gives_issue.mpr ⟨?_, rfl⟩, rfl, rfl⟩⟩)
  rw [h]
  rfl

theorem gives_qualify_bare {ns : m Namespace} {p : RenameTable × State m} {s : Symbol}
    (hm : ¬s.isMarked = true) (hbare : (!s.isQualified && bareNames.contains s.name) = true) :
    Gives (qualify ns s : Building m Symbol) p (.ok s) p := by
  rw [qualify, if_neg hm, if_pos hbare]
  exact gives_pure.mpr ⟨rfl, rfl⟩

theorem gives_qualify_resolve (ns : Namespace) {p : RenameTable × State m} {s : Symbol}
    (hm : ¬s.isMarked = true) (hbare : ¬(!s.isQualified && bareNames.contains s.name) = true) :
    Gives (qualify (pure ns : m Namespace) s : Building m Symbol) p (.ok (ns.resolve s)) p := by
  rw [qualify, if_neg hm, if_neg hbare]
  exact Building.gives_perform_bind.mpr ⟨ns, p.2, yields_pure.mpr ⟨rfl, rfl⟩,
    gives_pure.mpr ⟨rfl, rfl⟩⟩

/-- With some names, a helper call has a result. -/
inductive HelperCall.Ends : HelperCall → Except Failure Value → Prop
  | done {r : Except Failure Value} : Ends (.done r) r
  | naming {lead name : String} {next : String → HelperCall} {r : Except Failure Value} :
      Ends (next name) r → Ends (.naming lead next) r

theorem HelperCall.eq_of_ends_done {r r' : Except Failure Value} (h : (done r).Ends r') :
    r = r' := by
  cases h
  rfl

theorem HelperCall.ends_of_gives_run {c : HelperCall} {v : Value} {p q : RenameTable × State m}
    (h : Gives (c.run : Building m Value) p (.ok v) q) : c.Ends (.ok v) := by
  induction c generalizing p with
  | done r =>
      rw [(gives_ofExcept.mp h).1]
      exact .done
  | naming lead next ih =>
      obtain ⟨name, u, -, h⟩ := gives_bind_ok.mp h
      exact .naming (ih name h)

theorem HelperCall.ends_of_gives_run_error {c : HelperCall} {f : Failure}
    {p q : RenameTable × State m} (h : Gives (c.run : Building m Value) p (.error f) q) :
    c.Ends (.error f) ∨ ∃ lead s, Gives (fresh lead) s (.error f) q.2 := by
  induction c generalizing p with
  | done r =>
      rw [(gives_ofExcept.mp h).1]
      exact .inl .done
  | naming lead next ih =>
      rcases gives_bind.mp h with ⟨f', hname, hf⟩ | ⟨name, u, -, h⟩
      · cases hf
        exact .inr ⟨lead, p.2, (Building.gives_performFailing.mp hname).1⟩
      · exact (ih name h).imp_left .naming

namespace Helper

variable {args : List Value} {p q : RenameTable × State m} {r : Except Failure Value}

theorem ends_gensymCall {r : Except Failure Value} (h : (gensymCall args).Ends r) :
    (∃ f, gensymLead args = .error f ∧ r = .error f) ∨ ∃ name, r = .ok (.sym ⟨name, none⟩) := by
  unfold gensymCall at h
  cases hlead : gensymLead args with
  | error f =>
      rw [hlead] at h
      exact .inl ⟨f, rfl, (HelperCall.eq_of_ends_done h).symm⟩
  | ok lead =>
      rw [hlead] at h
      cases h with
      | naming hnext => exact .inr ⟨_, (HelperCall.eq_of_ends_done hnext).symm⟩

theorem gives_gensym_of_error {f : Failure} (h : gensymLead args = .error f) :
    Gives (gensym.call args : Building m Value) p r q ↔ r = .error f ∧ q = p := by
  rw [call, course, gensymCall, h]
  exact gives_ofExcept

theorem gives_gensym_of_ok {lead : String} (h : gensymLead args = .ok lead) :
    Gives (gensym.call args : Building m Value) p r q ↔
      ∃ r', (Gives (fresh lead) p.2 r' q.2 ∧ q.1 = p.1) ∧
        r = r'.map fun name => .sym ⟨name, none⟩ := by
  rw [call, course, gensymCall, h]
  exact gives_bind_pure.trans (by simp only [Building.gives_performFailing])

end Helper

/-- All that a site does by itself moves along a relation. -/
structure Site.MovesAlong (site : Site m)
    (R : RenameTable × State m → RenameTable × State m → Prop) : Prop where
  renamed {s : Symbol} (h : s.isMarked = true) : Moves R (renamed s : Building m Symbol)
  ns : Moves R (Building.perform site.ns)
  fresh (lead : String) : Moves R (Building.performFailing (fresh lead) : Building m String)

omit [MonadFresh m] in
theorem Moves.mono {α : Type} {R R' : State m → State m → Prop} {x : ExceptT Failure m α}
    (h : Moves R x) (hR : ∀ s t, R s t → R' s t) : Moves R' x :=
  fun s _ t hx => hR s t (h hx)

theorem Site.MovesAlong.mono {site : Site m}
    {R R' : RenameTable × State m → RenameTable × State m → Prop} (h : site.MovesAlong R)
    (hR : ∀ p q, R p q → R' p q) : site.MovesAlong R' :=
  ⟨fun hs => (h.renamed hs).mono hR, h.ns.mono hR, fun lead => (h.fresh lead).mono hR⟩

/-- All answers of a host move along a relation. -/
def Resolver.MovesAlong (resolver : Resolver m)
    (R : RenameTable × State m → RenameTable × State m → Prop) : Prop :=
  ∀ f, resolver = .host f → ∀ form, Moves R (f form)

omit [MonadFresh m] in
theorem Resolver.macroTime_movesAlong {R : RenameTable × State m → RenameTable × State m → Prop} :
    (Resolver.macroTime : Resolver m).MovesAlong R := by
  intro f h
  exact nomatch h

namespace Template

section

variable {site : Site m} {resolver : Resolver m} {level : Int} {p q u : RenameTable × State m}

theorem gives_build_symbol {s s' : Symbol} (h : Gives (qualify site.ns s) p (.ok s') q) :
    Gives (build site resolver level (.sym s)) p (.ok (.sym s')) q := by
  rw [build_symbol]
  exact gives_bind_pure_ok.mpr ⟨s', h, rfl⟩

theorem gives_buildItems_nil : Gives (buildItems site resolver level []) p (.ok []) p := by
  rw [buildItems]
  exact gives_pure.mpr ⟨rfl, rfl⟩

theorem gives_buildItems_cons {v w : Value} {vs ws : List Value}
    (hv : Gives (build site resolver level v) p (.ok w) q)
    (hvs : Gives (buildItems site resolver level vs) q (.ok ws) u) :
    Gives (buildItems site resolver level (v :: vs)) p (.ok (w.spread ++ ws)) u := by
  rw [buildItems]
  exact gives_bind_ok.mpr ⟨w, q, hv, gives_bind_pure_ok.mpr ⟨ws, hvs, rfl⟩⟩

theorem gives_build_plain [LawfulMonad m] {items ws : List Value} (hi : ¬IsHeaded items)
    (h : Gives (buildItems site resolver level items) p (.ok ws) q) :
    Gives (build site resolver level (.list items)) p (.ok (.list ws)) q := by
  rw [build_plain _ _ _ hi]
  exact gives_bind_pure_ok.mpr ⟨ws, h, rfl⟩

end

variable {site : Site m} {R : RenameTable × State m → RenameTable × State m → Prop}
variable [IsPreorder (RenameTable × State m) R]

theorem moves_qualify (hs : site.MovesAlong R) (s : Symbol) :
    Moves R (qualify site.ns s : Building m Symbol) := by
  unfold qualify
  split
  · exact hs.renamed ‹_›
  · split
    · exact moves_pure s
    · exact moves_bind hs.ns fun _ => moves_pure _

theorem moves_run (hs : site.MovesAlong R) (c : HelperCall) : Moves R (c.run : Building m Value) := by
  induction c with
  | done r => exact moves_ofExcept r
  | naming lead next ih => exact moves_bind (hs.fresh lead) ih

theorem moves_resolveArguments {args : List Value}
    (h : ∀ v ∈ args, Moves R (resolve site v)) : Moves R (resolveArguments site args) := by
  induction args with
  | nil => exact moves_pure []
  | cons v vs ih =>
      rw [resolveArguments]
      exact moves_bind (h v (by simp)) fun _ =>
        moves_bind (ih fun w hw => h w (by simp [hw])) fun _ => moves_pure _

theorem moves_buildItems {resolver : Resolver m} {level : Int} {items : List Value}
    (h : ∀ v ∈ items, Moves R (build site resolver level v)) :
    Moves R (buildItems site resolver level items) := by
  induction items with
  | nil => exact moves_pure []
  | cons v vs ih =>
      rw [buildItems]
      exact moves_bind (h v (by simp)) fun _ =>
        moves_bind (ih fun w hw => h w (by simp [hw])) fun _ => moves_pure _

theorem moves_resolve_list {items : List Value} (hs : site.MovesAlong R)
    (hi : ∀ v ∈ items.tail, Moves R (resolve site v))
    (ht : ∀ arg ∈ items.tail, Moves R (build site .macroTime 1 arg)) :
    Moves R (resolve site (.list items)) := by
  rcases items with _ | ⟨head, args⟩
  · rw [resolve]
    exact moves_pure _
  cases head with
  | sym s =>
      rw [resolve.eq_def]
      dsimp only
      split
      · split
        · split
          · exact moves_pure _
          · exact ht _ (by simp)
        · exact moves_throw _
      · split
        · exact moves_throw _
        · split
          · exact moves_bind (moves_resolveArguments hi) fun _ => moves_run hs _
          · exact moves_throw _
  | _ =>
      simp only [resolve]
      exact moves_bind (moves_ofExcept _) fun _ => moves_throw _

theorem moves_resolve_atom {v : Value} (h : v.IsAtom) : Moves R (resolve site v) := by
  cases v with
  | sym s => exact h.elim
  | list items => exact h.elim
  | _ =>
      simp only [resolve]
      exact moves_pure _

theorem moves_resolve_symbol (s : Symbol) : Moves R (resolve site (.sym s)) := by
  rw [resolve.eq_def]
  dsimp only
  split
  · exact moves_pure _
  · exact moves_throw _

theorem moves_build_and_resolve [LawfulMonad m] (hs : site.MovesAlong R) (v : Value) :
    (∀ resolver : Resolver m, resolver.MovesAlong R → ∀ level,
      Moves R (build site resolver level v)) ∧ Moves R (resolve site v) := by
  have resolveList {items : List Value} (h : ∀ v ∈ items.tail,
      (∀ resolver : Resolver m, resolver.MovesAlong R → ∀ level,
        Moves R (build site resolver level v)) ∧ Moves R (resolve site v)) :
      Moves R (resolve site (.list items)) :=
    moves_resolve_list hs (fun v hv => (h v hv).2) fun v hv =>
      (h v hv).1 .macroTime Resolver.macroTime_movesAlong 1
  induction v using Template.induction with
  | atom v h =>
      refine ⟨fun resolver _ level => ?_, moves_resolve_atom h⟩
      rw [build_atom site resolver level h]
      exact moves_pure v
  | symbol s =>
      refine ⟨fun resolver _ level => ?_, moves_resolve_symbol s⟩
      rw [build_symbol]
      exact moves_bind (moves_qualify hs s) fun _ => moves_pure _
  | escape s arg h ih =>
      refine ⟨fun resolver hr level => ?_, resolveList (by simpa using ih)⟩
      by_cases hl : 1 < level
      · rw [build_kept site resolver level arg h hl]
        exact moves_bind (ih.1 resolver hr _) fun _ => moves_pure _
      · rw [build_answered site resolver level arg h hl]
        refine moves_bind ?_ fun _ => moves_ofExcept _
        cases resolver with
        | macroTime => exact ih.2
        | host f => exact hr f rfl arg
  | template arg ih =>
      refine ⟨fun resolver hr level => ?_, resolveList (by simpa using ih)⟩
      by_cases hl : site.maxNesting < level + 1
      · rw [build_tooNested site resolver level arg hl]
        exact moves_throw _
      · rw [build_template site resolver level arg (by omega)]
        exact moves_bind (ih.1 resolver hr _) fun _ => moves_pure _
  | malformed s args h hn ih =>
      refine ⟨fun resolver _ level => ?_, resolveList ih⟩
      rw [build_malformed site resolver level h hn]
      exact moves_throw _
  | plain items h ih =>
      refine ⟨fun resolver hr level => ?_,
        resolveList fun v hv => ih v (List.mem_of_mem_tail hv)⟩
      rw [build_plain site resolver level h]
      exact moves_bind (moves_buildItems fun v hv => (ih v hv).1 resolver hr level) fun _ =>
        moves_pure _

end Template

/-- Nothing that a table of renamings holds is lost or changed in another. -/
def Grows (table table' : RenameTable) : Prop :=
  ∀ name s, table.find? name = some s → table'.find? name = some s

instance : IsPreorder (RenameTable × State m) fun p q => Grows p.1 q.1 where
  refl _ _ _ h := h
  trans _ _ _ h h' name s hs := h' name s (h name s hs)

theorem grows_insert {table : RenameTable} {name : String} (h : table.find? name = none)
    (r : Symbol) : Grows table (table.insert name r) := by
  intro name' s hs
  rw [Table.find?_insert, if_neg]
  · exact hs
  · rintro rfl
    rw [hs] at h
    exact nomatch h

theorem Site.movesAlong_grows (site : Site m) : site.MovesAlong fun p q => Grows p.1 q.1 where
  renamed {s} _ p r q h := by
    rcases gives_renamed.mp h with ⟨_, -, -, rfl⟩ | ⟨hnone, ⟨_, -, -, hq⟩ | ⟨name, t, -, -, rfl⟩⟩
    · exact fun _ _ h => h
    · rw [Grows, hq]
      exact fun _ _ h => h
    · exact grows_insert hnone _
  ns p r q h := by
    obtain ⟨a, -, -, hq⟩ := Building.gives_perform.mp h
    rw [Grows, hq]
    exact fun _ _ h => h
  fresh lead p r q h := by
    obtain ⟨-, hq⟩ := Building.gives_performFailing.mp h
    rw [Grows, hq]
    exact fun _ _ h => h

end Quasiquote
