import Quasiquote.Evaluation.Tree
import Quasiquote.Proofs.Template.Effect

namespace Quasiquote

namespace Namespace

/-- A namespace redirects another one if that name is an alias for something else in it. -/
def Redirects (ns : Namespace) (short : String) : Prop :=
  ∃ full, ns.aliases.find? short = some full ∧ full ≠ short

variable {ns : Namespace} {name short : String}

theorem resolve_qualified :
    ns.resolve ⟨name, some short⟩ = ⟨name, some ((ns.aliases.find? short).getD short)⟩ := by
  simp only [resolve]
  cases ns.aliases.find? short <;> rfl

theorem resolve_eq_self_iff :
    ns.resolve ⟨name, some short⟩ = ⟨name, some short⟩ ↔ ¬ns.Redirects short := by
  rw [resolve_qualified, Redirects]
  cases ns.aliases.find? short <;> simp

end Namespace

namespace Environment

/-- What a lookup answers when it has found a binding or none. -/
def answer (name : Symbol) : Option Value → Except Failure Value
  | some v => pure v
  | none => throw (.naming (.unbound name))

theorem answer_injective {name : Symbol} {found found' : Option Value}
    (h : answer name found = answer name found') : found = found' := by
  cases found <;> cases found' <;> cases h <;> rfl

/-- The root binding of a name. -/
def global (env : Environment) (name : Symbol) : Except Failure Value :=
  answer name (env.root.find? name)

variable {env : Environment} {ns : Namespace} {name : Symbol}

theorem lookup_qualified (hq : name.isQualified = true) :
    env.lookup (some ns) name = answer name (env.root.find? (ns.resolve name)) := by
  unfold lookup
  rw [if_pos hq]
  rfl

theorem lookup_eq_global_iff (hq : name.isQualified = true) :
    env.lookup (some ns) name = env.global name ↔
      env.root.find? (ns.resolve name) = env.root.find? name := by
  rw [lookup_qualified hq, global]
  exact ⟨answer_injective, congrArg _⟩

/-- A qualified name stands for its own global in all environments only if it is resolved to itself:
else it is unbound in one where only what it is resolved to is bound. -/
theorem forall_lookup_eq_global_iff (hq : name.isQualified = true) :
    (∀ env : Environment, env.lookup (some ns) name = env.global name) ↔ ns.resolve name = name := by
  constructor
  · intro h
    have hfound := (lookup_eq_global_iff hq).mp
      (h { root := Table.empty.insert (ns.resolve name) .nil })
    rw [Table.find?_insert_self, Table.find?_insert] at hfound
    split at hfound
    · exact Eq.symm ‹_›
    · exact nomatch hfound
  · intro h env
    rw [lookup_eq_global_iff hq, h]

end Environment

section

variable {m : Type → Type} [Monad m] [MonadFresh m] [Stateful m]

/-- A symbol of a template that is not renamed and not left bare is qualified by the namespace of the
template, whatever the state. Where the expansion is evaluated, inside any frames, the qualified symbol
is looked up in the root frame under what the current namespace resolves it to. So it stands for its own
root binding, or for nothing if it has none, exactly if that is bound alike; and in all environments
exactly if the current namespace does not redirect the symbol's namespace. -/
theorem qualified_stands_for_global_iff (site : Namespace) {s : Symbol} (hm : ¬s.isMarked = true)
    (hbare : ¬(!s.isQualified && bareNames.contains s.name) = true) :
    ∃ ns, site.resolve s = ⟨s.name, some ns⟩ ∧
      (∀ p, Gives (qualify (pure site : m Namespace) s : Building m Symbol) p
        (.ok ⟨s.name, some ns⟩) p) ∧
      (∀ (caller : Namespace) (env : Environment),
        env.lookup (some caller) ⟨s.name, some ns⟩ = env.global ⟨s.name, some ns⟩ ↔
          env.root.find? ⟨s.name, some ((caller.aliases.find? ns).getD ns)⟩ =
            env.root.find? ⟨s.name, some ns⟩) ∧
      (∀ caller : Namespace,
        (∀ env : Environment,
          env.lookup (some caller) ⟨s.name, some ns⟩ = env.global ⟨s.name, some ns⟩) ↔
            ¬caller.Redirects ns) ∧
      ∀ (t : Session) (locals : List Frame) (n : Nat), ¬t.currentNamespace.Redirects ns →
        Gives (m := StateT Session Option)
          (Evaluation.evalTree (n + 1) locals (.sym ⟨s.name, some ns⟩)) t
          (Environment.global ⟨locals, t.globals⟩ ⟨s.name, some ns⟩) t := by
  obtain ⟨ns, hns⟩ := Option.isSome_iff_exists.mp (site.isQualified_resolve s)
  have hresolve : site.resolve s = ⟨s.name, some ns⟩ := by rw [← site.name_resolve s, ← hns]
  refine ⟨ns, hresolve, fun p => hresolve ▸ gives_qualify_resolve site hm hbare,
    fun caller env => ?_, fun caller => ?_, fun t locals n hdirect => ?_⟩
  · rw [Environment.lookup_eq_global_iff rfl, Namespace.resolve_qualified]
  · rw [Environment.forall_lookup_eq_global_iff rfl, Namespace.resolve_eq_self_iff]
  · change Gives (m := StateT Session Option) (Evaluating.lookup locals _) t _ t
    unfold Evaluating.lookup
    rw [Evaluating.gives_get_bind, gives_ofExcept]
    exact ⟨((Environment.forall_lookup_eq_global_iff rfl).mpr
      (Namespace.resolve_eq_self_iff.mpr hdirect) _).symm, rfl⟩

end

theorem qualified_stands_for_global_unaliased :
    ¬(⟨"x", none⟩ : Symbol).isMarked = true ∧
      ¬(!(⟨"x", none⟩ : Symbol).isQualified && bareNames.contains "x") = true ∧
      (Environment.defineGlobal {} ⟨"x", some "lib"⟩ (.int 1)).lookup
        (some { name := "app" }) ⟨"x", some "lib"⟩ = .ok (.int 1) := by
  have hm : ¬(⟨"x", none⟩ : Symbol).isMarked = true := by decide
  have hbare : ¬(!(⟨"x", none⟩ : Symbol).isQualified && bareNames.contains "x") = true := by decide
  obtain ⟨ns, hresolve, -, -, hall, -⟩ :=
    qualified_stands_for_global_iff (m := StateM Allocator) { name := "lib" } hm hbare
  cases hresolve
  have hdirect : ¬Namespace.Redirects { name := "app" } "lib" := fun ⟨_, h, _⟩ => nomatch h
  exact ⟨hm, hbare, (hall { name := "app" }).mpr hdirect _⟩

/-- A namespace that has the name of the template's namespace as an alias for a third one makes a
symbol of the template stand for a global of the third one. -/
theorem not_qualified_stands_for_global :
    ¬∀ (site caller : Namespace) (env : Environment) (s q : Symbol)
      (before after : RenameTable × Allocator), ¬s.isMarked = true →
      ¬(!s.isQualified && bareNames.contains s.name) = true →
      Gives (m := StateT RenameTable (StateM Allocator)) (qualify (pure site) s) before (.ok q) after →
      env.lookup (some caller) q = env.global q := by
  intro h
  let caller : Namespace := Namespace.addAlias { name := "app" } "lib" "other"
  let env : Environment := Environment.defineGlobal
    (Environment.defineGlobal {} ⟨"x", some "lib"⟩ (.int 1)) ⟨"x", some "other"⟩ (.int 2)
  have hstands := h { name := "lib" } caller env ⟨"x", none⟩ ⟨"x", some "lib"⟩
    (Table.empty, {}) (Table.empty, {}) (by decide) (by decide)
    (gives_qualify_resolve _ (by decide) (by decide))
  have hcaller : env.lookup (some caller) ⟨"x", some "lib"⟩ = .ok (.int 2) := by rfl
  have hglobal : env.global ⟨"x", some "lib"⟩ = .ok (.int 1) := by rfl
  rw [hcaller, hglobal] at hstands
  exact absurd hstands (by simp [Value.int])

end Quasiquote
