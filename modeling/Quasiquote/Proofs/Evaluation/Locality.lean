import Quasiquote.Proofs.Evaluation.TemplateCongruence
import Quasiquote.Proofs.Expansion.Once

namespace Quasiquote.Evaluation

open Stateful

variable {ι α β : Type} {Good : Session → Prop}

/-- From a good session all computations of a family end in the same way, and leave a good session. -/
def Concurs (Good : Session → Prop) (x : ι → Evaluating α) : Prop :=
  ∀ s, Good s → ∃ r t, Good t ∧ ∀ i, Gives (m := StateT Session Option) (x i) s r t

/-- A change of the session that keeps it good. -/
def Keeps (Good : Session → Prop) (f : Session → Session) : Prop := ∀ s, Good s → Good (f s)

/-- Whether a session is good depends on nothing that expansions and calls change. -/
def Lasting (Good : Session → Prop) : Prop :=
  ∀ s t, t.expander = s.expander → t.current = s.current → t.globals = s.globals → Good s → Good t

theorem Lasting.expansion (hgood : Lasting Good) {s : Session} (hs : Good s) (u : ExpansionState) :
    Good { s with expansion := u } :=
  hgood s _ rfl rfl rfl hs

theorem concurs_bind {x : ι → Evaluating α} {f : ι → α → Evaluating β} (hx : Concurs Good x)
    (hf : ∀ a, Concurs Good fun i => f i a) : Concurs Good fun i => x i >>= f i := by
  intro s hs
  obtain ⟨r, t, ht, h⟩ := hx s hs
  cases r with
  | error e => exact ⟨.error e, t, ht, fun i => gives_bind.mpr (.inl ⟨e, h i, rfl⟩)⟩
  | ok a =>
      obtain ⟨r', u, hu, h'⟩ := hf a t ht
      exact ⟨r', u, hu, fun i => gives_bind.mpr (.inr ⟨a, t, h i, h' i⟩)⟩

theorem Concurs.reindex {κ : Type} {x : ι → Evaluating α} (hx : Concurs Good x) (f : κ → ι) :
    Concurs Good fun k => x (f k) := by
  intro s hs
  obtain ⟨r, t, ht, h⟩ := hx s hs
  exact ⟨r, t, ht, fun k => h (f k)⟩

theorem perform_unchanged (s : Session) (effect : Effect) :
    (s.perform effect).expander = s.expander ∧ (s.perform effect).current = s.current ∧
      (s.perform effect).globals = s.globals := by
  cases effect <;> exact ⟨rfl, rfl, rfl⟩

theorem closed_concurs (hgood : Lasting Good) :
    Closed (Keeps Good) fun (α : Type) (x : ι → Evaluating α) => Concurs Good x where
  pure a s hs := ⟨.ok a, s, hs, fun _ => gives_pure.mpr ⟨rfl, rfl⟩⟩
  throw f s hs := ⟨.error f, s, hs, fun _ => gives_throw.mpr ⟨rfl, rfl⟩⟩
  bind := concurs_bind
  get s hs := ⟨.ok s, s, hs, fun _ => Evaluating.gives_get.mpr ⟨rfl, rfl⟩⟩
  modify f hf s hs := ⟨.ok ⟨⟩, f s, hf s hs, fun _ => Evaluating.gives_modify.mpr ⟨rfl, rfl⟩⟩
  identified s := hgood s _ rfl rfl rfl
  performed effect s := by
    obtain ⟨hexpander, hcurrent, hglobals⟩ := perform_unchanged s effect
    exact hgood s _ hexpander hcurrent hglobals
  outcome hx s hs := by
    obtain ⟨r, t, ht, h⟩ := hx s hs
    exact ⟨.ok r, t, ht, fun i => Evaluating.gives_outcome.mpr ⟨r, h i, rfl⟩⟩
  expandOnce tree s hs :=
    ⟨_, _, hgood.expansion hs _, fun _ => Evaluating.gives_expanding.mpr ⟨_, rfl, rfl⟩⟩
  expandAll tree s hs :=
    ⟨_, _, hgood.expansion hs _, fun _ => Evaluating.gives_expanding.mpr ⟨_, rfl, rfl⟩⟩

theorem concurs_fresh (hgood : Lasting Good) (lead : String) :
    Concurs Good fun _ : ι => (fresh lead : Evaluating String) :=
  fun _ hs => ⟨_, _, hgood.expansion hs _, fun _ => rfl⟩

theorem concurs_guarded {again : ι → Evaluator} {locals : ι → List Frame} {tree : Value}
    (h : ∀ s, Good s → s.expander.macroFor (some s.currentNamespace) tree = none) :
    Concurs Good fun i => guarded (again i) (locals i) tree := by
  refine fun s hs => ⟨.ok .nil, s, hs, fun i => ?_⟩
  unfold guarded
  rw [Evaluating.gives_get_bind, h s hs]
  exact gives_pure.mpr ⟨rfl, rfl⟩

/-- Families of frames and a tree whose evaluation cannot tell them apart: no code in the tree calls
a macro or spoils a good session, and its symbols stand for the same values in all the frames. -/
structure Steady (Good : Session → Prop) (base : ι → List Frame) (tree : Value) : Prop where
  calls {w : Value} : tree.HasCode w → ∀ s, Good s →
    s.expander.macroFor (some s.currentNamespace) w = none
  changes {w : Value} {form : SpecialForm} : tree.HasCode w → SpecialForm.heading? w = some form →
    form.ChangesBy (Keeps Good)
  lookups {x : Symbol} : tree.HasCode (.sym x) → ∀ inner,
    Concurs Good fun i => Evaluating.lookup (inner ++ base i) x

variable {base : ι → List Frame} {tree : Value}

theorem Steady.of_encloses (h : Steady Good base tree) {w : Value} (hw : tree.Encloses w) :
    Steady Good base w where
  calls hu := h.calls (hw.hasCode.trans hu)
  changes hu := h.changes (hw.hasCode.trans hu)
  lookups hx := h.lookups (hw.hasCode.trans hx)

theorem Steady.concurs_evalTree (h : Steady Good base tree) (hgood : Lasting Good) {m : Nat}
    (hm : sizeOf tree ≤ m) (inner : List Frame) :
    Concurs Good fun i : ι × Nat => evalTree (m + i.2) (inner ++ base i.1) tree := by
  induction m generalizing tree inner with
  | zero =>
      have := tree.sizeOf_pos
      omega
  | succ m ih =>
      have hlevel := evalLevel_of_fresh (closed_concurs hgood) (concurs_fresh hgood)
        (fun i : ι × Nat => evalTree (m + i.2)) (fun i => guarded (evaluate (m + i.2)))
        (fun i => inner ++ base i.1) tree (fun form => h.changes (.self tree))
        (fun x hx => (h.lookups (hx ▸ .self tree) inner).reindex Prod.fst)
        (fun inner' _ w hw => ?_) (concurs_guarded (h.calls (.self tree)))
      · simp only [evalLevel_guarded, ← evalTree_succ] at hlevel
        simpa only [Nat.add_right_comm m 1] using hlevel
      · have hsize := hw.sizeOf_lt
        simpa only [List.append_assoc] using ih (h.of_encloses hw) (by omega) (inner' ++ inner)

theorem find?_locals (locals : List Frame) (root : Frame) (x : Symbol) :
    (Environment.mk locals root).find? x =
      (locals.findSome? fun frame => frame.find? x).or (root.find? x) := by
  simp [Environment.find?, Environment.frames, List.findSome?_append]

theorem lookup_congr {locals locals' : List Frame} {root : Frame} {ns : Option Namespace} {x : Symbol}
    (h : x.isQualified = false →
      (Environment.mk locals root).find? x = (Environment.mk locals' root).find? x)
    (inner : List Frame) :
    (Environment.mk (inner ++ locals) root).lookup ns x =
      (Environment.mk (inner ++ locals') root).lookup ns x := by
  unfold Environment.lookup
  cases hx : x.isQualified with
  | true => rfl
  | false =>
      have hbase := h hx
      simp only [find?_locals] at hbase
      simp only [find?_locals, List.findSome?_append, Option.or_assoc, hbase]

/-- The bare symbols of a tree stand for the same values in two lists of frames, outside which a root
frame stands. -/
def AgreeOn (tree : Value) (root : Frame) (locals locals' : List Frame) : Prop :=
  ∀ x ∈ tree.symbols, x.isQualified = false →
    (Environment.mk locals root).find? x = (Environment.mk locals' root).find? x

theorem agreeOn_append {root : Frame} {inner frames outer : List Frame}
    (h : ∀ frame ∈ frames, ∀ x ∈ tree.symbols, x.isQualified = false → frame.find? x = none) :
    AgreeOn tree root (inner ++ (frames ++ outer)) (inner ++ outer) := by
  intro x hx hbare
  have hframes : (frames.findSome? fun frame => frame.find? x) = none :=
    List.findSome?_eq_none_iff.mpr fun frame hframe => h frame hframe x hx hbare
  simp only [find?_locals, List.findSome?_append, hframes, Option.none_or]

/-- Bare names in a root frame stand for what they stand for in the given one. -/
def SameBare (root root' : Frame) : Prop :=
  ∀ x : Symbol, x.isQualified = false → root'.find? x = root.find? x

theorem AgreeOn.congr_root {root root' : Frame} {locals locals' : List Frame}
    (h : AgreeOn tree root locals locals') (hroot : SameBare root root') :
    AgreeOn tree root' locals locals' := by
  intro x hx hbare
  have hagree := h x hx hbare
  simp only [find?_locals, hroot x hbare] at hagree ⊢
  exact hagree

theorem concurs_lookup {x : Symbol} {locals : List Frame}
    (h : ∀ s, Good s → ∀ i, AgreeOn tree s.globals (base i) locals) (hx : tree.HasCode (.sym x))
    (inner : List Frame) : Concurs Good fun i => Evaluating.lookup (inner ++ base i) x := by
  intro s hs
  refine ⟨(Environment.mk (inner ++ locals) s.globals).lookup (some s.currentNamespace) x, s, hs,
    fun i => ?_⟩
  have hmem : x ∈ tree.symbols := hx.symbols_subset (List.mem_singleton_self x)
  unfold Evaluating.lookup
  rw [Evaluating.gives_get_bind, lookup_congr (h s hs i x hmem)]
  exact gives_ofExcept.mpr ⟨rfl, rfl⟩

/-- A tree is evaluated in one way inside all frames that agree on its bare symbols, if its evaluation
cannot tell these frames apart. -/
theorem Steady.exists_gives {root : Frame} {locals : List Frame} (hgood : Lasting Good)
    (h : Steady Good (fun i : Subtype fun locals' => AgreeOn tree root locals' locals => i.1) tree)
    {s : Session} (hs : Good s) :
    ∃ r t, Good t ∧ ∀ locals', AgreeOn tree root locals' locals → ∀ n, sizeOf tree ≤ n →
      Gives (m := StateT Session Option) (evalTree n locals' tree) s r t := by
  obtain ⟨r, t, ht, hgives⟩ := h.concurs_evalTree hgood (Nat.le_refl _) [] s hs
  refine ⟨r, t, ht, fun locals' hagree n hn => ?_⟩
  obtain ⟨k, rfl⟩ := Nat.exists_eq_add_of_le hn
  exact hgives (⟨locals', hagree⟩, k)

/-- A session without macros, whose root frame binds the bare names as the given one does. -/
def Macroless (root : Frame) (s : Session) : Prop :=
  s.expander.registry = Registry.empty ∧ SameBare root s.globals

theorem lasting_macroless (root : Frame) : Lasting (Macroless root) := by
  rintro s t hexpander - hglobals ⟨hregistry, hbare⟩
  exact ⟨by rw [hexpander, hregistry], by rwa [hglobals]⟩

theorem changesBy_keeps_macroless (root : Frame) {form : SpecialForm} (h : form ≠ .defineMacro) :
    form.ChangesBy (Keeps (Macroless root)) := by
  cases form with
  | defineMacro => exact absurd rfl h
  | define =>
      refine ⟨fun name s hs => hs, fun name ns v s hs => ⟨hs.1, fun x hx => ?_⟩⟩
      have hne : x ≠ ⟨name, some ns⟩ := by
        rintro rfl
        exact nomatch hx
      exact (Table.find?_insert _ _ _ _).trans ((if_neg hne).trans (hs.2 x hx))
  | enterNamespace =>
      intro name s hs
      unfold Session.enter
      dsimp only
      split <;> exact hs
  | aliasNamespace => exact fun short full s hs => hs
  | _ => trivial

theorem macroFor_of_macroless {root : Frame} {s : Session} (h : Macroless root s)
    (caller : Option Namespace) (tree : Value) : s.expander.macroFor caller tree = none := by
  unfold Expander.macroFor
  split
  · rw [h.1]
    exact Registry.lookup_eq_none fun m hm => absurd hm List.not_mem_nil
  · rfl

theorem steady_macroless {root : Frame} {locals : List Frame}
    (htree : ∀ w, tree.HasCode w → SpecialForm.heading? w ≠ some .defineMacro)
    (hbase : ∀ i, AgreeOn tree root (base i) locals) : Steady (Macroless root) base tree where
  calls _ s hs := macroFor_of_macroless hs _ _
  changes {w form} hw hform := by
    refine changesBy_keeps_macroless root ?_
    rintro rfl
    exact htree w hw hform
  lookups hx := concurs_lookup (fun s hs i => (hbase i).congr_root hs.2) hx

/-- In a session without macros, a tree that defines none is evaluated in one way inside all frames
that agree on its bare symbols. In particular a frame that binds none of them changes nothing. -/
theorem gives_evalTree_of_agreeOn {s : Session} (hs : s.expander.registry = Registry.empty)
    {tree : Value} (htree : ∀ w, tree.HasCode w → SpecialForm.heading? w ≠ some .defineMacro)
    (locals : List Frame) :
    ∃ r t,
      (∀ locals', AgreeOn tree s.globals locals' locals → ∀ n, sizeOf tree ≤ n →
        Gives (m := StateT Session Option) (evalTree n locals' tree) s r t) ∧
      ∀ (inner outer : List Frame) (frame : Frame), inner ++ outer = locals →
        (∀ x ∈ tree.symbols, x.isQualified = false → frame.find? x = none) →
          ∀ n, sizeOf tree ≤ n →
            Gives (m := StateT Session Option) (evalTree n (inner ++ frame :: outer) tree) s r t := by
  obtain ⟨r, t, -, hgives⟩ := (steady_macroless htree fun i => i.2).exists_gives
    (lasting_macroless s.globals) ⟨hs, fun _ _ => rfl⟩
  refine ⟨r, t, hgives, fun inner outer frame hlocals hframe => hgives _ ?_⟩
  subst hlocals
  exact agreeOn_append (List.forall_mem_singleton.mpr hframe)

/-- The form ``(let [b a] (list b `(~a x#)))``. -/
def sharingForm : Value :=
  .list [.bare "let", .list [.bare "b", .bare "a"],
    .list [.bare "list", .bare "b",
      .list [.sym .syntaxQuote, .list [.list [.sym .unquote, .bare "a"], .bare "x#"]]]]

/-- A frame that binds `a` to one. -/
def sharedFrame : Frame := Table.empty.insert ⟨"a", none⟩ (.int 1)

theorem gives_evalTree_of_agreeOn_sharing :
    ∃ t, ∀ n, sizeOf sharingForm ≤ n → Gives (m := StateT Session Option)
      (evalTree n [Table.empty.insert ⟨"x__1__auto__", none⟩ (.int 2), sharedFrame] sharingForm)
      (Session.start "user" 100 4 {})
      (.ok (.list [.int 1, .list [.int 1, .bare "x__1__auto__"]])) t := by
  have hregistry : (Session.start "user" 100 4 {}).expander.registry = Registry.empty := rfl
  have hform (w : Value) (hw : sharingForm.HasCode w) :
      SpecialForm.heading? w ≠ some .defineMacro := hw.heading?_ne (by decide)
  obtain ⟨r, t, hagree, hframe⟩ := gives_evalTree_of_agreeOn hregistry hform [sharedFrame]
  have hgives := hagree [sharedFrame] (fun _ _ _ => rfl) (sizeOf sharingForm + 6)
    (Nat.le_add_right _ _)
  have hvalue (n : Nat) : ∃ u, Gives (m := StateT Session Option)
      (evalTree (n + 6) [sharedFrame] sharingForm) (Session.start "user" 100 4 {})
      (.ok (.list [.int 1, .list [.int 1, .bare "x__1__auto__"]])) u := ⟨_, rfl⟩
  obtain ⟨u, hu⟩ := hvalue (sizeOf sharingForm)
  obtain ⟨rfl, -⟩ := Evaluating.gives_unique hu hgives
  exact ⟨t, hframe [] [sharedFrame] _ rfl (by decide)⟩

end Quasiquote.Evaluation
