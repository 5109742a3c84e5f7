import Quasiquote.Proofs.Expansion.Once
import Quasiquote.Proofs.Macro.Registry
import Quasiquote.Proofs.Template.Qualification

namespace Quasiquote

/-- The qualified symbol under which the macro of a head is found. -/
def Namespace.resolveHead (ns : Namespace) (s : Symbol) : Symbol :=
  if s.isQualified then s else ns.resolve s

theorem Namespace.resolveHead_eq_resolve_iff {ns : Namespace} {s : Symbol} :
    ns.resolveHead s = ns.resolve s ↔ ∀ short, s.ns = some short → ¬ns.Redirects short := by
  rcases s with ⟨name, _ | short⟩
  · exact iff_of_true rfl nofun
  · change ⟨name, some short⟩ = ns.resolve ⟨name, some short⟩ ↔ _
    rw [eq_comm, resolve_eq_self_iff]
    simp

namespace Registry

/-- The macro that is registered under the namespace and name of a symbol. -/
def named? (r : Registry) (s : Symbol) : Option Macro :=
  s.ns.bind fun ns => r.find? (ns, s.name)

variable {r : Registry} {s s' : Symbol}

theorem lookup_eq_named? (r : Registry) (ns : Namespace) (s : Symbol) :
    r.lookup (some ns) s = r.named? (ns.resolveHead s) := by
  rcases s with ⟨name, _ | short⟩ <;> rfl

theorem eq_of_named? {m : Macro} (h : r.named? s = some m) : s = ⟨m.name, some m.ns⟩ := by
  obtain ⟨ns, hns, hm⟩ := Option.bind_eq_some_iff.mp h
  obtain ⟨-, hkey⟩ := find?_eq_some_iff.mp hm
  obtain ⟨rfl, hname⟩ := Prod.mk.inj hkey
  rcases s with ⟨name, ns⟩
  cases hns
  exact congrArg (Symbol.mk · _) hname.symm

theorem named?_eq_named?_iff :
    r.named? s = r.named? s' ↔ s = s' ∨ r.named? s = none ∧ r.named? s' = none := by
  constructor
  · intro h
    cases hm : r.named? s with
    | none => exact .inr ⟨rfl, h ▸ hm⟩
    | some m => exact .inl ((eq_of_named? hm).trans (eq_of_named? (h ▸ hm)).symm)
  · rintro (rfl | ⟨h, h'⟩)
    · rfl
    · rw [h, h']

end Registry

namespace Expander

variable {e : Expander} {ns : Namespace} {s : Symbol} {args : List Value}

theorem macroFor_eq_named? :
    e.macroFor (some ns) (.list (.sym s :: args)) = e.registry.named? (ns.resolveHead s) :=
  e.registry.lookup_eq_named? ns s

theorem expandOnce_eq_named? :
    e.expandOnce (some ns) (.list (.sym s :: args)) =
      match e.registry.named? (ns.resolveHead s) with
      | some m => e.expandCall m (.list (.sym s :: args)) args
      | none => throw (notMacro (.list (.sym s :: args))) := by
  unfold expandOnce
  rw [macroFor_eq_named?]
  cases e.registry.named? (ns.resolveHead s) <;> rfl

end Expander

theorem Environment.lookup_eq_answer {env : Environment} {s : Symbol}
    (h : s.isQualified = true ∨ env.find? s = none) (ns : Namespace) :
    env.lookup (some ns) s = answer s (env.root.find? (ns.resolve s)) := by
  by_cases hq : s.isQualified = true
  · exact lookup_qualified hq
  · unfold lookup
    rw [if_neg hq, h.resolve_left hq]
    rfl

/-- A head is looked up as a macro, and a name that no frame binds is looked up as a global, each under
a qualified symbol. For a bare name and for a qualified one that the caller does not redirect it is the
same symbol. For a redirected one the head is left as it is, and so finds another macro than the one
that the resolved symbol names, unless there is neither of them. -/
theorem lookup_eq_named_resolve_iff (ns : Namespace) (s : Symbol) :
    (∀ (e : Expander) (args : List Value),
      e.macroFor (some ns) (.list (.sym s :: args)) = e.registry.named? (ns.resolveHead s) ∧
      e.expandOnce (some ns) (.list (.sym s :: args)) =
        match e.registry.named? (ns.resolveHead s) with
        | some m => e.expandCall m (.list (.sym s :: args)) args
        | none => throw (Expander.notMacro (.list (.sym s :: args)))) ∧
    (∀ env : Environment, (s.isQualified = true ∨ env.find? s = none) →
      env.lookup (some ns) s = Environment.answer s (env.root.find? (ns.resolve s))) ∧
    (ns.resolveHead s = ns.resolve s ↔ ∀ short, s.ns = some short → ¬ns.Redirects short) ∧
    ∀ r : Registry, r.lookup (some ns) s = r.named? (ns.resolve s) ↔
      (∀ short, s.ns = some short → ¬ns.Redirects short) ∨
        r.named? s = none ∧ r.named? (ns.resolve s) = none := by
  refine ⟨fun e args => ⟨Expander.macroFor_eq_named?, Expander.expandOnce_eq_named?⟩,
    fun env h => Environment.lookup_eq_answer h ns, Namespace.resolveHead_eq_resolve_iff,
    fun r => ?_⟩
  rw [Registry.lookup_eq_named?, Registry.named?_eq_named?_iff,
    Namespace.resolveHead_eq_resolve_iff]
  by_cases hq : s.isQualified = true
  · rw [Namespace.resolveHead, if_pos hq]
  · have hbare : ∀ short, s.ns = some short → ¬ns.Redirects short := fun short hs =>
      absurd (by rw [Symbol.isQualified, hs]; rfl) hq
    exact iff_of_true (.inl hbare) (.inl hbare)

/-- An alias is resolved in front of a variable, but not at the head of a call. -/
theorem not_lookup_eq_named_resolve :
    ¬∀ (r : Registry) (ns : Namespace) (s : Symbol),
      r.lookup (some ns) s = r.named? (ns.resolve s) := by
  intro h
  let caller : Namespace := Namespace.addAlias { name := "app" } "l" "lib"
  let m : Macro := { name := "m", parameters := ⟨[], none, by simp⟩, body := .nil, ns := "lib" }
  exact nomatch h (Registry.empty.define m) caller ⟨"m", some "l"⟩

end Quasiquote
