import Quasiquote.Proofs.Freshness.Name
import Quasiquote.Proofs.Macro.Parameters
import Quasiquote.Proofs.Template.Effect

/-!
Templates whose escapes of level one are parameters. Such a template has an outline, a tree with a
hole for each of these escapes. Main statement: what is built is the outline with the arguments put
into the holes as they are, or else a failure that is the same for all arguments, and the symbols of
the outline itself are qualified, bare names, or fresh.
-/

namespace Quasiquote

open Stateful

/-- A tree with holes for the arguments of a macro call. -/
inductive Outline where
  | leaf (v : Value)
  | list (items : List Outline)
  /-- An escape or a template that stays. -/
  | kept (head : Symbol) (item : Outline)
  /-- One argument. -/
  | argument (i : Nat)
  /-- The list of the arguments from a number on. -/
  | rest (i : Nat)
  /-- The arguments from a number on, one after the other. -/
  | further (i : Nat)

namespace Outline

mutual

/-- Put arguments into the holes. An argument that is a splice, which only a host can make, counts
as the list of its items where one node is wanted. -/
def fill (args : List Value) : Outline → Value
  | leaf v => v
  | list items => .list (fillItems args items)
  | kept s o => .list [.sym s, o.fill args]
  | argument i => (args.getD i .nil).single
  | rest i => .list (args.drop i)
  | further i => .splice (args.drop i)
termination_by structural o => o

def fillItems (args : List Value) : List Outline → List Value
  | [] => []
  | o :: os => (o.fill args).spread ++ fillItems args os
termination_by structural os => os

end

/-- A splice at the top of an outline becomes a form that evaluates its items in order. -/
def sequenced : Outline → Outline
  | leaf (.splice items) => list [leaf (.sym .sequence), leaf (.splice items)]
  | further i => list [leaf (.sym .sequence), further i]
  | o => o

theorem fill_sequenced (o : Outline) (args : List Value) :
    o.sequenced.fill args = (o.fill args).sequenced := by
  cases o with
  | leaf v => cases v <;> simp [sequenced, fill, fillItems, Value.sequenced, Value.spread]
  | list items => rfl
  | kept s o => rfl
  | argument i =>
      change (args.getD i .nil).single = (args.getD i .nil).single.sequenced
      cases args.getD i .nil <;> rfl
  | rest i => rfl
  | further i => simp [sequenced, fill, fillItems, Value.sequenced, Value.spread]

end Outline

namespace Value

/-- Whether a node has no parts and is no symbol. -/
def isLiteral : Value → Bool
  | nil => true
  | bool _ => true
  | num _ => true
  | str _ => true
  | kw _ => true
  | _ => false

mutual

/-- Whether a value is a tree that can be read from source text. -/
def isNode : Value → Bool
  | sym _ => true
  | list items => areNodes items
  | v => v.isLiteral
termination_by structural v => v

def areNodes : List Value → Bool
  | [] => true
  | v :: vs => v.isNode && areNodes vs
termination_by structural vs => vs

end

theorem isNode_list_iff {items : List Value} :
    (list items).isNode = true ↔ ∀ v ∈ items, v.isNode = true := by
  rw [isNode]
  induction items with
  | nil => simp [areNodes]
  | cons v vs ih => simp [areNodes, ih]

end Value

/-- All symbols of an outline itself satisfy a condition. What is put into the holes does not
count. -/
inductive Outline.Hygienic (ok : Symbol → Prop) : Outline → Prop
  | literal {v : Value} : v.isLiteral = true → Hygienic ok (leaf v)
  | symbol {s : Symbol} : ok s → Hygienic ok (leaf (.sym s))
  | list {items : List Outline} : (∀ o ∈ items, Hygienic ok o) → Hygienic ok (list items)
  | kept {s : Symbol} {o : Outline} : ok s → Hygienic ok o → Hygienic ok (kept s o)
  | argument {i : Nat} : Hygienic ok (argument i)
  | rest {i : Nat} : Hygienic ok (rest i)
  | further {i : Nat} : Hygienic ok (further i)

theorem Outline.Hygienic.mono {ok ok' : Symbol → Prop} (h : ∀ s, ok s → ok' s) {o : Outline}
    (ho : o.Hygienic ok) : o.Hygienic ok' := by
  induction ho with
  | literal hv => exact .literal hv
  | symbol hs => exact .symbol (h _ hs)
  | list _ ih => exact .list ih
  | kept hs _ ih => exact .kept (h _ hs) ih
  | argument => exact .argument
  | rest => exact .rest
  | further => exact .further

theorem Outline.Hygienic.sequenced {ok : Symbol → Prop} (h : ok .sequence) {o : Outline}
    (ho : o.Hygienic ok) : o.sequenced.Hygienic ok := by
  cases ho with
  | literal hv =>
      rename_i v
      cases v with
      | splice items => exact nomatch hv
      | _ => exact .literal hv
  | symbol hs => exact .symbol hs
  | list hi => exact .list hi
  | kept hs ho => exact .kept hs ho
  | argument => exact .argument
  | rest => exact .rest
  | further =>
      refine .list fun o ho => ?_
      simp only [List.mem_cons, List.not_mem_nil, or_false] at ho
      rcases ho with rfl | rfl
      · exact .symbol h
      · exact .further

/-- Whether a symbol is a renaming whose number an allocator handed out from `first` on and before
`next`. -/
def Symbol.IsRenaming (first next : Int) (s : Symbol) : Prop :=
  ∃ lead k, first ≤ k ∧ k < next ∧ s = .numbered lead k

/-- Whether a symbol cannot be taken for one of the caller: it is qualified, a bare name, or a
renaming. -/
def Symbol.IsSafe (first next : Int) (s : Symbol) : Prop :=
  s.isQualified = true ∨ s.isQualified = false ∧ s.name ∈ bareNames ∨ s.IsRenaming first next

theorem Symbol.IsRenaming.mono {first next next' : Int} (h : next ≤ next') {s : Symbol}
    (hs : s.IsRenaming first next) : s.IsRenaming first next' := by
  obtain ⟨lead, k, hfirst, hnext, rfl⟩ := hs
  exact ⟨lead, k, hfirst, by omega, rfl⟩

theorem Symbol.IsSafe.mono {first next next' : Int} (h : next ≤ next') (s : Symbol)
    (hs : s.IsSafe first next) : s.IsSafe first next' :=
  hs.imp_right (Or.imp_right (Symbol.IsRenaming.mono h))

theorem Symbol.IsEscape.isSafe {first next : Int} {s : Symbol} (hs : s.IsEscape) :
    s.IsSafe first next := by
  rcases hs with rfl | rfl
  · exact .inr (.inl (by decide))
  · exact .inr (.inl (by decide))

/-- The hole that an escape leaves whose expression is a parameter. -/
def Parameters.hole (p : Parameters) (escape : Symbol) : Value → Outline
  | .sym s =>
      if s.name ∈ p.fixed then .argument (p.fixed.idxOf s.name)
      else if escape = .unquote then .rest p.fixed.length
      else .further p.fixed.length
  | v => .leaf v

theorem Parameters.hole_fixed {p : Parameters} {name : String} (h : name ∈ p.fixed) (s : Symbol) :
    p.hole s (.bare name) = .argument (p.fixed.idxOf name) :=
  if_pos h

theorem Parameters.hole_variadic {p : Parameters} {name : String} (h : p.variadic = some name)
    (s : Symbol) : p.hole s (.bare name) =
      if s = .unquote then .rest p.fixed.length else .further p.fixed.length := by
  refine if_neg fun hmem => ?_
  have hnodup := (List.nodup_append.mp p.nodup).2.2 name hmem name
  rw [h] at hnodup
  exact hnodup (List.mem_singleton_self name) rfl

/-- What a symbol of a template becomes, with the given renamings. -/
def Namespace.symbolIn (ns : Namespace) (names : RenameTable) (s : Symbol) : Symbol :=
  if s.isMarked then (names.find? s.name).getD s
  else if !s.isQualified && bareNames.contains s.name then s
  else ns.resolve s

namespace Template

mutual

/-- The tree with holes that is built of a template, if `name` says what symbols become. -/
def outline (p : Parameters) (name : Symbol → Symbol) (level : Int) : Value → Outline
  | .sym s => .leaf (.sym (name s))
  | .list (.sym s :: args) =>
      if s = .unquote ∨ s = .unquoteSplicing then
        match args with
        | [arg] => if 1 < level then .kept s (outline p name (level - 1) arg) else p.hole s arg
        | _ => .list []
      else if s = .syntaxQuote then
        match args with
        | [arg] => .kept s (outline p name (level + 1) arg)
        | _ => .list []
      else .list (.leaf (.sym (name s)) :: outlineItems p name level args)
  | .list items => .list (outlineItems p name level items)
  | v => .leaf v
termination_by structural v => v

def outlineItems (p : Parameters) (name : Symbol → Symbol) (level : Int) :
    List Value → List Outline
  | [] => []
  | v :: vs => outline p name level v :: outlineItems p name level vs
termination_by structural vs => vs

end

section

variable (p : Parameters) (name : Symbol → Symbol) (level : Int)

theorem outline_atom {v : Value} (h : v.IsAtom) : outline p name level v = .leaf v := by
  cases v with
  | sym s => exact h.elim
  | list items => exact h.elim
  | _ => rw [outline] <;> simp

theorem outline_symbol (s : Symbol) : outline p name level (.sym s) = .leaf (.sym (name s)) := by
  rw [outline]

theorem outline_escape {s : Symbol} (arg : Value) (h : s.IsEscape) :
    outline p name level (.list [.sym s, arg]) =
      if 1 < level then .kept s (outline p name (level - 1) arg) else p.hole s arg := by
  rw [outline, if_pos h]

theorem outline_template (arg : Value) :
    outline p name level (.list [.sym .syntaxQuote, arg]) =
      .kept .syntaxQuote (outline p name (level + 1) arg) := by
  rw [outline, if_neg (by decide), if_pos rfl]

theorem outline_plain {items : List Value} (h : ¬IsHeaded items) :
    outline p name level (.list items) = .list (outlineItems p name level items) := by
  rcases items with _ | ⟨v, args⟩
  · rw [outline]
    simp
  cases v with
  | sym s =>
      have hs := not_or.mp h
      rw [outline.eq_def]
      simp only [if_neg hs.1, if_neg hs.2, outlineItems, outline_symbol]
  | _ =>
      rw [outline]
      simp

end

/-- Whether an escape is a parameter: any of them for one node, the last one for its items. -/
def Escape.IsParameter (p : Parameters) (e : Escape) : Prop :=
  (e.head = .unquote ∧ ∃ name ∈ p.names, e.arg = .bare name) ∨
    e.head = .unquoteSplicing ∧ ∃ name, p.variadic = some name ∧ e.arg = .bare name

/-- All recorded renamings have numbers from `first` on. -/
def Recorded (first : Int) (q : RenameTable × Allocator) : Prop :=
  ∀ name s, q.1.find? name = some s → s.IsRenaming first q.2.next

/-- What all calls of a macro have in common when they are expanded. -/
structure Origin where
  /-- The namespace in which the macro was defined. -/
  ns : Namespace
  macroName : Option String
  maxNesting : Int
  parameters : Parameters

/-- The site of the body of a macro in one call. -/
def Origin.site (c : Origin) (helpers : Table String Helper) (args : List Value) :
    Site (StateM Allocator) where
  ns := pure c.ns
  macroName := c.macroName
  maxNesting := c.maxNesting
  bindings := c.parameters.bind args
  helpers := helpers

theorem Recorded.insert {first : Int} {q : RenameTable × Allocator} (h : Recorded first q)
    (name : String) {r : Symbol} (hr : r.IsRenaming first (q.2.next + 1)) :
    Recorded first (q.1.insert name r, ⟨q.2.next + 1⟩) := by
  intro name' s hs
  rw [Table.find?_insert] at hs
  split at hs
  · cases hs
    exact hr
  · exact (h _ _ hs).mono (by simp only; omega)

theorem Recorded.mono {first : Int} {q q' : RenameTable × Allocator} (h : Recorded first q)
    (htable : q'.1 = q.1) (hle : q.2.next ≤ q'.2.next) : Recorded first q' :=
  fun name s hs => (h name s (htable ▸ hs)).mono hle

/-- What a symbol comes to in one state: the symbol that the renamings in a later state give for it,
which is safe, or a failure. -/
theorem exists_gives_renamed {first : Int} (ns : Namespace) {q : RenameTable × Allocator}
    (hfirst : first ≤ q.2.next) (hq : Recorded first q) {s : Symbol} (hs : s.isMarked = true) :
    ∃ (r : Except Failure Unit) (q' : RenameTable × Allocator), q.2.next ≤ q'.2.next ∧
      Recorded first q' ∧ Grows q.1 q'.1 ∧ ∀ names, Grows q'.1 names →
        (r = .ok () → (ns.symbolIn names s).IsSafe first q'.2.next) ∧
          Gives (renamed s : Building (StateM Allocator) Symbol) q
            (r.map fun _ => ns.symbolIn names s) q' := by
  have hname {names : RenameTable} {known : Symbol} (h : names.find? s.name = some known) :
      ns.symbolIn names s = known := by
    rw [Namespace.symbolIn, if_pos hs, h, Option.getD_some]
  cases hfind : q.1.find? s.name with
  | some known =>
      refine ⟨.ok (), q, Int.le_refl _, hq, fun _ _ h => h, fun names hnames => ?_⟩
      rw [hname (hnames _ _ hfind)]
      exact ⟨fun _ => .inr (.inr (hq _ _ hfind)),
        gives_renamed.mpr (.inl ⟨known, hfind, rfl, rfl⟩)⟩
  | none =>
      have hle : q.2.next ≤ q.2.next + 1 := by omega
      by_cases hwritable : q.2.isWritable = true
      · have hfresh : (Symbol.numbered (s.unmarkedName ++ "__") q.2.next).IsRenaming first
            (q.2.next + 1) := ⟨_, q.2.next, hfirst, by omega, rfl⟩
        refine ⟨.ok (), _, hle, hq.insert s.name hfresh, grows_insert hfind _, fun names hnames => ?_⟩
        rw [hname (hnames _ _ (Table.find?_insert_self _ _ _))]
        exact ⟨fun _ => .inr (.inr hfresh), gives_renamed_ok hfind hwritable⟩
      · exact ⟨.error .unwritable, (q.1, ⟨q.2.next + 1⟩), hle, hq.mono rfl hle, fun _ _ h => h,
          fun _ _ => ⟨nofun, gives_renamed_unwritable hfind (Bool.eq_false_iff.mpr hwritable)⟩⟩

theorem exists_gives_qualify {first : Int} (ns : Namespace) {q : RenameTable × Allocator}
    (hfirst : first ≤ q.2.next) (hq : Recorded first q) (s : Symbol) :
    ∃ (r : Except Failure Unit) (q' : RenameTable × Allocator), q.2.next ≤ q'.2.next ∧
      Recorded first q' ∧ Grows q.1 q'.1 ∧ ∀ names, Grows q'.1 names →
        (r = .ok () → (ns.symbolIn names s).IsSafe first q'.2.next) ∧
          Gives (qualify (pure ns : StateM Allocator Namespace) s) q
            (r.map fun _ => ns.symbolIn names s) q' := by
  by_cases hm : s.isMarked = true
  · rw [qualify, if_pos hm]
    exact exists_gives_renamed ns hfirst hq hm
  refine ⟨.ok (), q, Int.le_refl _, hq, fun _ _ h => h, fun names _ => ?_⟩
  rw [Namespace.symbolIn, if_neg hm]
  by_cases hbare : (!s.isQualified && bareNames.contains s.name) = true
  · rw [if_pos hbare]
    exact ⟨fun _ => .inr (.inl (by simpa using hbare)), gives_qualify_bare hm hbare⟩
  · rw [if_neg hbare]
    exact ⟨fun _ => .inl (ns.isQualified_resolve s), gives_qualify_resolve ns hm hbare⟩

/-- A computation at the site of a macro body ends in one way, whatever the arguments are, and moves
the allocator and the renamings in one way. What it gives is the tree with holes that `o` says for all
later renamings, filled with the arguments. This satisfies a condition that depends on the next
number. -/
def Origin.Uniform (c : Origin) (n : Nat) (first : Int) {α β : Type} (fill : List Value → α → β)
    (safe : Int → α → Prop) (x : Site (StateM Allocator) → Building (StateM Allocator) β)
    (o : RenameTable → α) : Prop :=
  ∀ q : RenameTable × Allocator, first ≤ q.2.next → Recorded first q →
    ∃ (r : Except Failure Unit) (q' : RenameTable × Allocator),
      q.2.next ≤ q'.2.next ∧ Recorded first q' ∧ Grows q.1 q'.1 ∧ ∀ names, Grows q'.1 names →
        (r = .ok () → safe q'.2.next (o names)) ∧
          ∀ helpers args, args.length = n →
            Gives (x (c.site helpers args)) q (r.map fun _ => fill args (o names)) q'

section

variable {c : Origin} {n : Nat} {first : Int}

theorem Origin.uniform_pure {α β : Type} {fill : List Value → α → β} {safe : Int → α → Prop}
    {x : Site (StateM Allocator) → Building (StateM Allocator) β} {o : RenameTable → α}
    (h : ∀ names helpers args, args.length = n →
      x (c.site helpers args) = pure (fill args (o names)))
    (hsafe : ∀ next names, safe next (o names)) : c.Uniform n first fill safe x o := by
  intro q _ hq
  refine ⟨.ok (), q, Int.le_refl _, hq, fun _ _ h => h, fun names _ =>
    ⟨fun _ => hsafe _ _, fun helpers args hargs => ?_⟩⟩
  rw [h names helpers args hargs]
  exact gives_pure.mpr ⟨rfl, rfl⟩

theorem Origin.uniform_qualify (s : Symbol) :
    c.Uniform n first (fun _ => id) (fun next s => s.IsSafe first next)
      (fun site => qualify site.ns s) fun names => c.ns.symbolIn names s := by
  intro q hfirst hq
  obtain ⟨r, q', hle, hq', hgrows, h⟩ := exists_gives_qualify c.ns hfirst hq s
  exact ⟨r, q', hle, hq', hgrows, fun names hnames =>
    ⟨(h names hnames).1, fun _ _ _ => (h names hnames).2⟩⟩

/-- What is built of a template is its outline, filled with the arguments. -/
def HasOutline (c : Origin) (n : Nat) (first level : Int) (t : Value) : Prop :=
  c.Uniform n first Outline.fill
    (fun next o => t.isNode = true → o.Hygienic (Symbol.IsSafe first next))
    (fun site => build site .macroTime level t)
    fun names => outline c.parameters (c.ns.symbolIn names) level t

variable {level : Int} {t : Value}

theorem hasOutline_of_throw (f : Failure)
    (h : ∀ helpers args, build (c.site helpers args) .macroTime level t = throw f) :
    HasOutline c n first level t := by
  intro q _ hq
  refine ⟨.error f, q, Int.le_refl _, hq, fun _ _ h => h, fun names _ =>
    ⟨nofun, fun helpers args _ => ?_⟩⟩
  dsimp only
  rw [h]
  exact gives_throw.mpr ⟨rfl, rfl⟩

theorem hasOutline_of_uniform {α β : Type} {fill : List Value → α → β} {safe : Int → α → Prop}
    {x : Site (StateM Allocator) → Building (StateM Allocator) β} {o : RenameTable → α}
    (hx : c.Uniform n first fill safe x o) (f : β → Value) (g : α → Outline)
    (hfill : ∀ args a, f (fill args a) = (g a).fill args)
    (houtline : ∀ names, outline c.parameters (c.ns.symbolIn names) level t = g (o names))
    (hsafe : ∀ next a, safe next a → t.isNode = true → (g a).Hygienic (Symbol.IsSafe first next))
    (h : ∀ helpers args, build (c.site helpers args) .macroTime level t = (do
      pure (f (← x (c.site helpers args))))) :
    HasOutline c n first level t := by
  intro q hfirst hq
  obtain ⟨r, q', hle, hq', hgrows, hgives⟩ := hx q hfirst hq
  refine ⟨r, q', hle, hq', hgrows, fun names hnames => ?_⟩
  obtain ⟨hr, hgives⟩ := hgives names hnames
  dsimp only
  rw [houtline]
  refine ⟨fun hok => hsafe _ _ (hr hok), fun helpers args hargs => ?_⟩
  rw [h]
  refine gives_bind_pure.mpr ⟨_, hgives helpers args hargs, ?_⟩
  rw [← hfill]
  cases r <;> rfl

theorem resolve_parameter {m : Type → Type} [Monad m] [MonadFresh m] (site : Site m)
    {name : String} {v : Value} (h : site.bindings.find? name = some v) :
    resolve site (.bare name) = pure v := by
  rw [resolve.eq_def]
  simp only [Value.bare, Symbol.isQualified, Option.isSome_none, Bool.false_eq_true, if_false, h]

theorem build_parameter {m : Type → Type} [Monad m] [LawfulMonad m] [MonadFresh m] {site : Site m}
    {s : Symbol} {name : String} {v w : Value} (hs : s.IsEscape) (hl : ¬1 < level)
    (hv : site.bindings.find? name = some v)
    (hw : insertion site s (.list [.sym s, .bare name]) v = .ok w) :
    build site .macroTime level (.list [.sym s, .bare name]) = pure w := by
  rw [build_answered _ _ _ _ hs hl]
  change resolve _ _ >>= _ = _
  rw [resolve_parameter site hv, pure_bind, hw]
  rfl

theorem insertion_parameter {s : Symbol} {arg : Value} (p : Parameters) (args : List Value)
    (hargs : p.accepts args.length = true) (he : (⟨level, s, arg⟩ : Escape).IsParameter p) :
    ∃ name v, arg = .bare name ∧ (p.bind args).find? name = some v ∧
      ∀ {m : Type → Type} (site : Site m),
        insertion site s (.list [.sym s, arg]) v = .ok ((p.hole s arg).fill args) := by
  rcases he with ⟨hs, name, hname, rfl⟩ | ⟨hs, name, hname, rfl⟩
  · obtain rfl : s = .unquote := hs
    rcases List.mem_append.mp hname with hname | hname
    · have hi := List.idxOf_lt_length_of_mem hname
      have hlen : p.fixed.idxOf name < args.length :=
        Nat.lt_of_lt_of_le hi (Parameters.length_fixed_le hargs)
      refine ⟨name, args.getD (p.fixed.idxOf name) .nil, rfl, (Parameters.find?_bind_iff hargs).mpr
        (.inl ⟨p.fixed.idxOf name, ?_, ?_⟩), fun site => ?_⟩
      · rw [List.getElem?_eq_getElem hi, List.getElem_idxOf hi]
      · rw [List.getD_eq_getElem?_getD, List.getElem?_eq_getElem hlen, Option.getD_some]
      · rw [Parameters.hole_fixed hname]
        rfl
    · have hvariadic := Option.mem_toList.mp hname
      refine ⟨name, _, rfl, (Parameters.find?_bind_iff hargs).mpr (.inr ⟨hvariadic, rfl⟩),
        fun site => ?_⟩
      rw [Parameters.hole_variadic hvariadic]
      rfl
  · obtain rfl : s = .unquoteSplicing := hs
    refine ⟨name, _, rfl, (Parameters.find?_bind_iff hargs).mpr (.inr ⟨hname, rfl⟩), fun site => ?_⟩
    rw [Parameters.hole_variadic hname]
    rfl

theorem hygienic_hole {ok : Symbol → Prop} {s : Symbol} {arg : Value} {p : Parameters}
    (he : (⟨level, s, arg⟩ : Escape).IsParameter p) : (p.hole s arg).Hygienic ok := by
  obtain ⟨name, rfl⟩ : ∃ name, arg = .bare name := by
    rcases he with ⟨-, name, -, h⟩ | ⟨-, name, -, h⟩
    · exact ⟨name, h⟩
    · exact ⟨name, h⟩
  unfold Parameters.hole Value.bare
  dsimp only
  split
  · exact .argument
  · split
    · exact .rest
    · exact .further

theorem hasOutline_parameter {s : Symbol} {arg : Value} (hs : s.IsEscape)
    (hn : c.parameters.accepts n = true) (hl : ¬1 < level)
    (he : (⟨level, s, arg⟩ : Escape).IsParameter c.parameters) :
    HasOutline c n first level (.list [.sym s, arg]) := by
  refine Origin.uniform_pure (fun names helpers args hargs => ?_) fun next names _ => ?_
  · obtain ⟨name, v, rfl, hv, hinsertion⟩ :=
      insertion_parameter c.parameters args (hargs ▸ hn) he
    rw [outline_escape _ _ _ _ hs, if_neg hl]
    exact build_parameter hs hl hv (hinsertion _)
  · rw [outline_escape _ _ _ _ hs, if_neg hl]
    exact hygienic_hole he

theorem uniform_buildItems {items : List Value}
    (h : ∀ t ∈ items, HasOutline c n first level t) :
    c.Uniform n first Outline.fillItems
      (fun next os => (∀ t ∈ items, t.isNode = true) →
        ∀ o ∈ os, o.Hygienic (Symbol.IsSafe first next))
      (fun site => buildItems site .macroTime level items)
      fun names => outlineItems c.parameters (c.ns.symbolIn names) level items := by
  induction items with
  | nil =>
      refine Origin.uniform_pure (fun _ _ _ _ => ?_) fun _ _ _ o ho => nomatch ho
      rw [buildItems]
      rfl
  | cons t ts ih =>
      intro q hfirst hq
      obtain ⟨r, u, hle, hu, hgrows, hgives⟩ := h t (by simp) q hfirst hq
      cases r with
      | error f =>
          refine ⟨.error f, u, hle, hu, hgrows, fun names hnames =>
            ⟨nofun, fun helpers args hargs => ?_⟩⟩
          simp only [buildItems]
          exact gives_bind.mpr (.inl ⟨f, (hgives names hnames).2 helpers args hargs, rfl⟩)
      | ok =>
          obtain ⟨r', q', hle', hq', hgrows', hgives'⟩ :=
            ih (fun t ht => h t (by simp [ht])) u (by omega) hu
          refine ⟨r', q', by omega, hq', fun name s hs => hgrows' name s (hgrows name s hs),
            fun names hnames => ?_⟩
          obtain ⟨hsafe, hbuilt⟩ := hgives names fun name s hs => hnames name s (hgrows' name s hs)
          obtain ⟨hsafe', hbuilt'⟩ := hgives' names hnames
          refine ⟨fun hok hnodes o ho => ?_, fun helpers args hargs => ?_⟩
          · rcases List.mem_cons.mp ho with rfl | ho
            · exact (hsafe rfl (hnodes t (by simp))).mono (Symbol.IsSafe.mono hle')
            · exact hsafe' hok (fun t ht => hnodes t (by simp [ht])) o ho
          · simp only [buildItems]
            refine gives_bind.mpr (.inr ⟨_, u, hbuilt helpers args hargs,
              gives_bind_pure.mpr ⟨_, hbuilt' helpers args hargs, ?_⟩⟩)
            cases r' <;> rfl

theorem hasOutline_kept {level' : Int} {s : Symbol} {arg : Value}
    (hs : ∀ next, s.IsSafe first next) (harg : HasOutline c n first level' arg)
    (houtline : ∀ name, outline c.parameters name level (.list [.sym s, arg]) =
      .kept s (outline c.parameters name level' arg))
    (h : ∀ helpers args, build (c.site helpers args) .macroTime level (.list [.sym s, arg]) = (do
      pure (.list [.sym s, ← build (c.site helpers args) .macroTime level' arg]))) :
    HasOutline c n first level (.list [.sym s, arg]) :=
  hasOutline_of_uniform harg (fun v => .list [.sym s, v]) (.kept s) (fun _ _ => rfl)
    (fun names => houtline _)
    (fun next _ ho hnode => .kept (hs next) (ho (Value.isNode_list_iff.mp hnode arg (by simp)))) h

theorem hasOutline_atom (ht : t.IsAtom) : HasOutline c n first level t := by
  refine Origin.uniform_pure (fun names helpers args _ => ?_) fun next names hnode => ?_
  · rw [outline_atom _ _ _ ht]
    exact build_atom _ _ _ ht
  · rw [outline_atom _ _ _ ht]
    cases t with
    | sym s => exact ht.elim
    | list items => exact ht.elim
    | _ => exact .literal hnode

/-- A template whose escapes of level one are parameters has its outline, whatever the arguments
are. -/
theorem hasOutline_of_isParameter (hn : c.parameters.accepts n = true)
    (he : ∀ e ∈ escapes level t, e.level ≤ 1 → e.IsParameter c.parameters) :
    HasOutline c n first level t := by
  induction t using Template.induction generalizing level with
  | atom t ht => exact hasOutline_atom ht
  | symbol s =>
      exact hasOutline_of_uniform (Origin.uniform_qualify s) .sym (fun s => .leaf (.sym s))
        (fun _ _ => rfl) (fun _ => outline_symbol _ _ _ _) (fun _ _ hs _ => .symbol hs)
        fun _ _ => build_symbol _ _ _ _
  | escape s arg hs ih =>
      rw [escapes_escape level arg hs] at he
      by_cases hl : 1 < level
      · rw [if_pos hl] at he
        exact hasOutline_kept (fun _ => hs.isSafe)
          (ih fun e hmem => he e (List.mem_cons_of_mem _ hmem))
          (fun name => (outline_escape _ _ _ _ hs).trans (if_pos hl))
          fun helpers args => build_kept _ _ _ _ hs hl
      · exact hasOutline_parameter hs hn hl (he _ List.mem_cons_self (Int.not_lt.mp hl))
  | template arg ih =>
      rw [escapes_template] at he
      by_cases hl : c.maxNesting < level + 1
      · exact hasOutline_of_throw
          (.expansion c.macroName (some (.list [.sym .syntaxQuote, arg])) (.tooNested (level + 1)))
          fun helpers args => build_tooNested (c.site helpers args) _ _ _ hl
      · exact hasOutline_kept (fun _ => .inr (.inl (by decide))) (ih he)
          (fun name => outline_template _ _ _ _)
          fun helpers args => build_template (c.site helpers args) _ _ _ (Int.not_lt.mp hl)
  | malformed s args hs hargs _ =>
      exact hasOutline_of_throw _ fun _ _ => build_malformed _ _ _ hs hargs
  | plain items hi ih =>
      rw [escapes_plain level hi] at he
      have hitems := uniform_buildItems (c := c) (n := n) fun t ht => ih t ht fun e hmem =>
        he e (List.mem_flatMap.mpr ⟨t, ht, hmem⟩)
      exact hasOutline_of_uniform hitems .list .list (fun _ _ => rfl)
        (fun _ => outline_plain _ _ _ hi)
        (fun _ _ hos hnode => .list (hos (Value.isNode_list_iff.mp hnode)))
        fun _ _ => build_plain _ _ _ hi

end

end Template

end Quasiquote
