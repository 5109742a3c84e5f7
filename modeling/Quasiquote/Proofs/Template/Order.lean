import Quasiquote.Proofs.Template.Built
import Quasiquote.Proofs.Template.Visit

namespace Quasiquote

open Stateful

/-- The nodes that an answer stands for where nodes are wanted: the items of a sequence, and none
for nil. -/
def Value.sequence? : Value → Option (List Value)
  | .nil => some []
  | .list items => some items
  | .tuple items => some items
  | .splice items => some items
  | _ => none

namespace Template

variable {m : Type → Type}

section

variable {site : Site m} {replaces : Symbol → Symbol → Prop} {level k : Int} {t v value w : Value}
variable {form : Value} {answers : List (Value × Value)}

theorem insertion_unquote (form value : Value) :
    insertion site .unquote form value = .ok value.single := by
  unfold insertion
  exact if_pos rfl

theorem insertion_unquoteSplicing (form value : Value) :
    insertion site .unquoteSplicing form value =
      match value.sequence? with
      | some items => .ok (.splice items)
      | none =>
          if value.isWritable then
            .error (.expansion site.macroName (some form) (.malformedSplice value))
          else .error .unwritable := by
  cases value <;> rfl

theorem spread_of_insertion (h : insertion site .unquoteSplicing form value = .ok w) :
    value.sequence? = some w.spread := by
  rw [insertion_unquoteSplicing] at h
  split at h
  · rename_i items hitems
    cases h
    exact hitems
  · split at h
    · exact nomatch h
    · exact nomatch h

theorem builtItems_of_mem {items vs : List Value} {item : Value}
    (h : BuiltItems site replaces level items answers vs) (hitem : item ∈ items) :
    ∃ more w, Built site replaces level item more w := by
  induction items generalizing answers vs with
  | nil => exact nomatch hitem
  | cons _ items ih =>
      obtain ⟨w, first, ws, more, hw, hws, -, -⟩ := builtItems_cons_iff.mp h
      rcases List.mem_cons.mp hitem with rfl | hitem
      · exact ⟨first, w, hw⟩
      · exact ih hws hitem

theorem Built.of_visits (h : Built site replaces level t answers v) (hvisits : Visits level t k w) :
    ∃ more u, Built site replaces k w more u := by
  induction hvisits generalizing answers v with
  | here => exact ⟨answers, v, h⟩
  | item hi hmem _ ih =>
      obtain ⟨vs, hvs, -⟩ := (built_plain_iff hi).mp h
      obtain ⟨more, u, hu⟩ := builtItems_of_mem hvs hmem
      exact ih hu
  | template _ ih =>
      obtain ⟨-, u, hu, -⟩ := built_template_iff.mp h
      exact ih hu
  | kept hs hl _ ih =>
      rcases (built_escape_iff hs).mp h with ⟨-, u, hu, -⟩ | ⟨hnot, -⟩
      · exact ih hu
      · exact absurd hl hnot

theorem Built.le_maxNesting {arg : Value} (h : Built site replaces level t answers v)
    (hvisits : Visits level t k (.list [.sym .syntaxQuote, arg])) : k + 1 ≤ site.maxNesting := by
  obtain ⟨more, u, hu⟩ := h.of_visits hvisits
  exact (built_template_iff.mp hu).1

end

variable [Monad m] [MonadFresh m] [Stateful m]

/-- One thing that building does: a symbol is replaced, or an expression is answered. -/
inductive Act where
  | name (s r : Symbol)
  | answer (form value : Value)

namespace Act

/-- An expression with its answer. -/
def answer? : Act → Option (Value × Value)
  | name _ _ => none
  | answer form value => some (form, value)

/-- How a site and a resolver go from one state to another by one act. -/
def Does (site : Site m) (resolver : Resolver m) :
    Act → RenameTable × State m → RenameTable × State m → Prop
  | name s r, p, q => Gives (qualify site.ns s) p (.ok r) q
  | answer form value, p, q => Gives (resolver.answer site form) p (.ok value) q

end Act

/-- Acts done one after the other, and nothing in between. -/
inductive Performs (site : Site m) (resolver : Resolver m) :
    List Act → RenameTable × State m → RenameTable × State m → Prop
  | nil {p : RenameTable × State m} : Performs site resolver [] p p
  | cons {act : Act} {acts : List Act} {p u q : RenameTable × State m} :
      act.Does site resolver p u → Performs site resolver acts u q →
      Performs site resolver (act :: acts) p q

variable {site : Site m} {resolver : Resolver m} {p u q : RenameTable × State m}
variable {acts acts' : List Act}

theorem Performs.single {act : Act} (h : act.Does site resolver p q) :
    Performs site resolver [act] p q :=
  .cons h .nil

theorem Performs.append (h : Performs site resolver acts p u)
    (h' : Performs site resolver acts' u q) : Performs site resolver (acts ++ acts') p q := by
  induction h with
  | nil => exact h'
  | cons hact _ ih => exact .cons hact (ih h')

/-- A history that grows by each answer, and only by answers, grows by what is answered in a run. -/
theorem Performs.history_eq {history : RenameTable × State m → List Value}
    (h : Performs site resolver acts p q)
    (hname : ∀ s r p q, Gives (qualify site.ns s) p (.ok r) q → history q = history p)
    (hanswer : ∀ form value p q, Gives (resolver.answer site form) p (.ok value) q →
      history q = history p ++ [form]) :
    history q = history p ++ (acts.filterMap Act.answer?).map Prod.fst := by
  induction h with
  | nil => simp
  | @cons act acts p u q hact _ ih =>
      cases act with
      | name s r =>
          rw [ih, hname s r p u hact]
          rfl
      | answer form value =>
          rw [ih, hanswer form value p u hact, List.append_assoc]
          rfl

/-- The symbols that acts replace, with what they are replaced by. -/
def Names (acts : List Act) (s r : Symbol) : Prop := .name s r ∈ acts

theorem exists_performs_of_items [LawfulMonad m] {level : Int} {items : List Value}
    (ih : ∀ t ∈ items, ∀ {p q : RenameTable × State m} {v},
      Gives (build site resolver level t) p (.ok v) q →
        ∃ acts, Performs site resolver acts p q ∧
          ∀ replaces, (∀ s r, Names acts s r → replaces s r) →
            Built site replaces level t (acts.filterMap Act.answer?) v)
    {vs : List Value} (h : Gives (buildItems site resolver level items) p (.ok vs) q) :
    ∃ acts, Performs site resolver acts p q ∧
      ∀ replaces, (∀ s r, Names acts s r → replaces s r) →
        BuiltItems site replaces level items (acts.filterMap Act.answer?) vs := by
  induction items generalizing p vs with
  | nil =>
      rw [buildItems] at h
      obtain ⟨hvs, rfl⟩ := gives_pure.mp h
      cases hvs
      exact ⟨[], .nil, fun _ _ => .nil⟩
  | cons item items ihItems =>
      rw [buildItems] at h
      obtain ⟨v, u, hv, h⟩ := gives_bind_ok.mp h
      obtain ⟨ws, hws, rfl⟩ := gives_bind_pure_ok.mp h
      obtain ⟨acts, hacts, hb⟩ := ih item (by simp) hv
      obtain ⟨acts', hacts', hbs⟩ := ihItems (fun t ht => ih t (by simp [ht])) hws
      refine ⟨acts ++ acts', hacts.append hacts', fun replaces hnames => ?_⟩
      rw [List.filterMap_append]
      exact .cons (hb replaces fun s r h => hnames s r (List.mem_append_left _ h))
        (hbs replaces fun s r h => hnames s r (List.mem_append_right _ h))

/-- What is built from a template comes of acts, and the tree is the template with the replaced
symbols and the answers put in. -/
theorem exists_performs_of_gives [LawfulMonad m] {level : Int} {t v : Value}
    (h : Gives (build site resolver level t) p (.ok v) q) :
    ∃ acts, Performs site resolver acts p q ∧
      ∀ replaces, (∀ s r, Names acts s r → replaces s r) →
        Built site replaces level t (acts.filterMap Act.answer?) v := by
  induction t using Template.induction generalizing level p v q with
  | atom t ht =>
      rw [build_atom site resolver level ht] at h
      obtain ⟨hv, rfl⟩ := gives_pure.mp h
      cases hv
      exact ⟨[], .nil, fun _ _ => .atom ht⟩
  | symbol s =>
      rw [build_symbol] at h
      obtain ⟨r, hr, rfl⟩ := gives_bind_pure_ok.mp h
      exact ⟨[.name s r], .single hr, fun _ hnames => .symbol (hnames s r List.mem_cons_self)⟩
  | escape s arg hs ih =>
      by_cases hl : 1 < level
      · rw [build_kept site resolver level arg hs hl] at h
        obtain ⟨w, hw, rfl⟩ := gives_bind_pure_ok.mp h
        obtain ⟨acts, hacts, hb⟩ := ih hw
        exact ⟨acts, hacts, fun replaces hnames => .kept hs hl (hb replaces hnames)⟩
      · rw [build_answered site resolver level arg hs hl] at h
        obtain ⟨value, u, hvalue, h⟩ := gives_bind_ok.mp h
        obtain ⟨hv, rfl⟩ := gives_ofExcept.mp h
        exact ⟨[.answer arg value], .single hvalue, fun _ _ => .answered hs hl hv.symm⟩
  | template arg ih =>
      by_cases hl : site.maxNesting < level + 1
      · rw [build_tooNested site resolver level arg hl] at h
        cases (gives_throw.mp h).1
      · rw [build_template site resolver level arg (by omega)] at h
        obtain ⟨w, hw, rfl⟩ := gives_bind_pure_ok.mp h
        obtain ⟨acts, hacts, hb⟩ := ih hw
        exact ⟨acts, hacts, fun replaces hnames => .template (by omega) (hb replaces hnames)⟩
  | malformed s args hs hn _ =>
      rw [build_malformed site resolver level hs hn] at h
      cases (gives_throw.mp h).1
  | plain items hi ih =>
      rw [build_plain site resolver level hi] at h
      obtain ⟨ws, hws, rfl⟩ := gives_bind_pure_ok.mp h
      obtain ⟨acts, hacts, hb⟩ := exists_performs_of_items (fun t ht => ih t ht) hws
      exact ⟨acts, hacts, fun replaces hnames => .plain hi (hb replaces hnames)⟩

theorem Act.Does.grows [LawfulMonad m] (hr : resolver.MovesAlong fun p q => Grows p.1 q.1)
    {act : Act} (h : act.Does site resolver p q) : Grows p.1 q.1 := by
  cases act with
  | name s r =>
      exact moves_qualify (R := fun p q : RenameTable × State m => Grows p.1 q.1)
        site.movesAlong_grows s h
  | answer form value =>
      cases resolver with
      | macroTime =>
          exact (moves_build_and_resolve (R := fun p q : RenameTable × State m => Grows p.1 q.1)
            site.movesAlong_grows form).2 h
      | host f => exact hr f rfl form h

theorem Performs.grows [LawfulMonad m] (hr : resolver.MovesAlong fun p q => Grows p.1 q.1)
    (h : Performs site resolver acts p q) : Grows p.1 q.1 := by
  induction h with
  | nil => exact fun _ _ h => h
  | cons hact _ ih => exact fun name s hs => ih name s (hact.grows hr name s hs)

theorem Performs.replaces [LawfulMonad m] (hr : resolver.MovesAlong fun p q => Grows p.1 q.1)
    (h : Performs site resolver acts p q) {s r : Symbol} (hnames : Names acts s r) :
    site.Replaces q.1 s r := by
  induction h with
  | nil => exact nomatch hnames
  | cons hact hacts ih =>
      rcases List.mem_cons.mp hnames with rfl | hnames
      · exact (replaces_of_gives_qualify hact).mono (hacts.grows hr)
      · exact ih hnames

/-- The escapes of a template are the visited forms that are escapes, from left to right. If
building with a resolver returns, then what happens from the first state to the last is that symbols
are replaced and that the expressions of the escapes of level one are answered, once each and in
this order; so a history of what the resolver is asked grows by these. The tree is built with the
answers: one that is put in for an escape is one node, or for a splicing escape the items of a
sequence. All nested templates that are visited are within the limit; if one is not, building does
not return. -/
theorem build_answers_in_order [LawfulMonad m] (site : Site m) (resolver : Resolver m)
    (t : Value) :
    (∀ e, e ∈ escapes 1 t ↔
      e.head.IsEscape ∧ Visits 1 t e.level (.list [.sym e.head, e.arg])) ∧
    (∀ p v q, Gives (build site resolver 1 t) p (.ok v) q →
      (∃ acts, Performs site resolver acts p q ∧
        (acts.filterMap Act.answer?).map Prod.fst =
          ((escapes 1 t).filter (·.level = 1)).map (·.arg) ∧
        Built site (Names acts) 1 t (acts.filterMap Act.answer?) v ∧
        (resolver.MovesAlong (fun p q => Grows p.1 q.1) →
          ∀ s r, Names acts s r → site.Replaces q.1 s r)) ∧
      (∀ history : RenameTable × State m → List Value,
        (∀ s r p q, Gives (qualify site.ns s) p (.ok r) q → history q = history p) →
        (∀ form value p q, Gives (resolver.answer site form) p (.ok value) q →
          history q = history p ++ [form]) →
        history q = history p ++ ((escapes 1 t).filter (·.level = 1)).map (·.arg)) ∧
      ∀ k arg, Visits 1 t k (.list [.sym .syntaxQuote, arg]) → k + 1 ≤ site.maxNesting) ∧
    (∀ form value, insertion site .unquote form value = .ok value.single ∧
      value.single.spread = [value.single]) ∧
    (∀ form value v, insertion site .unquoteSplicing form value = .ok v →
      value.sequence? = some v.spread) ∧
    ∀ k arg, Visits 1 t k (.list [.sym .syntaxQuote, arg]) → site.maxNesting < k + 1 →
      ∀ p v q, ¬Gives (build site resolver 1 t) p (.ok v) q := by
  have returned {p v q} (h : Gives (build site resolver 1 t) p (.ok v) q) :
      ∃ acts, Performs site resolver acts p q ∧
        (acts.filterMap Act.answer?).map Prod.fst =
          ((escapes 1 t).filter (·.level = 1)).map (·.arg) ∧
        Built site (Names acts) 1 t (acts.filterMap Act.answer?) v := by
    obtain ⟨acts, hacts, hb⟩ := exists_performs_of_gives h
    have hbuilt := hb (Names acts) fun _ _ hnames => hnames
    refine ⟨acts, hacts, ?_, hbuilt⟩
    rw [map_fst_answers hbuilt, filter_escapes_eq]
  refine ⟨fun e => mem_escapes_iff, fun p v q h => ⟨?_, fun history hname hanswer => ?_,
    fun k arg hvisits => ?_⟩, fun form value => ⟨insertion_unquote form value, value.spread_single⟩,
    fun form value v h => spread_of_insertion h, fun k arg hvisits hlimit p v q h => ?_⟩
  · obtain ⟨acts, hacts, hforms, hbuilt⟩ := returned h
    exact ⟨acts, hacts, hforms, hbuilt, fun hr s r hnames => hacts.replaces hr hnames⟩
  · obtain ⟨acts, hacts, hforms, -⟩ := returned h
    rw [hacts.history_eq hname hanswer, hforms]
  · obtain ⟨acts, -, -, hbuilt⟩ := returned h
    exact hbuilt.le_maxNesting hvisits
  · obtain ⟨acts, -, -, hbuilt⟩ := returned h
    have := hbuilt.le_maxNesting hvisits
    omega

/-- An allocator beside a list of what a resolver has been asked. -/
abbrev Recording := StateM (Allocator × List Value)

instance : MonadFresh Recording where
  fresh lead := ExceptT.mk fun s =>
    ((Allocator.issue lead s.1).1, (Allocator.issue lead s.1).2, s.2)

/-- A resolver that writes down what it is asked, and answers with a list of it. -/
def recording (form : Value) : Building Recording Value :=
  Building.perform (modify fun s => (s.1, s.2 ++ [form])) >>= fun _ => pure (.list [form, form])

def recordingSite : Site Recording where
  ns := pure { name := "app" }
  maxNesting := 2

theorem recordingSite_movesAlong :
    recordingSite.MovesAlong fun p q : RenameTable × State Recording => q.2.2 = p.2.2 := by
  have fresh {lead : String} {s t : State Recording} {r : Except Failure String}
      (h : Gives (m := Recording) (fresh lead) s r t) : t.2 = s.2 := by
    cases h
    rfl
  constructor
  · intro s _ p r q h
    rcases gives_renamed.mp h with ⟨_, -, -, rfl⟩ | ⟨-, ⟨_, hf, -⟩ | ⟨_, _, hname, -, rfl⟩⟩
    · rfl
    · exact fresh hf
    · exact fresh hname
  · intro p r q h
    obtain ⟨ns, hns, -⟩ := Building.gives_perform.mp h
    exact congrArg Prod.snd (Prod.mk.inj hns).2.symm
  · intro lead p r q h
    exact fresh (Building.gives_performFailing.mp h).1

/-- The template of `` `(b ~x `(c ~~y)) ``. -/
def nestedTemplate : Value :=
  .list [.bare "b", .list [.sym .unquote, .bare "x"], .list [.sym .syntaxQuote,
    .list [.bare "c", .list [.sym .unquote, .list [.sym .unquote, .bare "y"]]]]]

/-- The tree with its two answers. -/
def nestedTree : Value :=
  .list [.sym ⟨"b", some "app"⟩, .list [.bare "x", .bare "x"], .list [.sym .syntaxQuote,
    .list [.sym ⟨"c", some "app"⟩, .list [.sym .unquote, .list [.bare "y", .bare "y"]]]]]

theorem build_answers_in_order_recording :
    ∃ q, Gives (m := StateT RenameTable Recording)
        (build recordingSite (.host recording) 1 nestedTemplate) (Table.empty, {}, [])
          (.ok nestedTree) q ∧
      q.2.2 = [.bare "x", .bare "y"] := by
  have h : Gives (m := StateT RenameTable Recording)
      (build recordingSite (.host recording) 1 nestedTemplate) (Table.empty, {}, [])
        (.ok nestedTree) (Table.empty, {}, [.bare "x", .bare "y"]) := rfl
  have : IsPreorder (RenameTable × State Recording) fun p q => q.2.2 = p.2.2 :=
    { refl := fun _ => rfl, trans := fun _ _ _ h h' => h'.trans h }
  obtain ⟨-, hreturned, -⟩ := build_answers_in_order recordingSite (.host recording) nestedTemplate
  obtain ⟨-, hhistory, -⟩ := hreturned _ _ _ h
  refine ⟨_, h, hhistory (fun p => p.2.2) (fun s r p q h => ?_) fun form value p q h => ?_⟩
  · exact moves_qualify recordingSite_movesAlong s h
  · obtain ⟨_, s, hs, hvalue⟩ := Building.gives_perform_bind.mp h
    obtain ⟨-, rfl⟩ := gives_pure.mp hvalue
    cases hs
    rfl

end Template

end Quasiquote
