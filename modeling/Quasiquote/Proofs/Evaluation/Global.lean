import Quasiquote.Proofs.Session.Reachable

namespace Quasiquote

open Stateful

namespace Table

theorem ext {κ α : Type} {t u : Table κ α} (h : t.entries = u.entries) : t = u := by
  cases t
  cases u
  cases h
  rfl

variable {κ α : Type} [DecidableEq κ] {t : Table κ α} {k : κ} {v : α}

theorem bind_eq_self {es : List (κ × α)} (h : (es.find? fun e => e.1 = k).map Prod.snd = some v) :
    bind k v es = es := by
  induction es with
  | nil => exact nomatch h
  | cons e rest ih =>
      by_cases he : e.1 = k
      · rw [List.find?_cons_of_pos (by simpa using he)] at h
        cases h
        rw [bind, if_pos he, ← he]
      · rw [List.find?_cons_of_neg (by simpa using he)] at h
        rw [bind, if_neg he, ih h]

theorem insert_eq_self (h : t.find? k = some v) : t.insert k v = t :=
  ext (bind_eq_self h)

theorem erase_eq_self (h : t.find? k = none) : t.erase k = t := by
  refine ext (List.filter_eq_self.mpr fun e he => ?_)
  rw [find?, Option.map_eq_none_iff, List.find?_eq_none] at h
  simpa using h e he

end Table

namespace Session

variable {s t : Session} {ns name : String}

/-- Make a known namespace stop referring a name. -/
def unreferIn (s : Session) (ns name : String) : Session :=
  match s.expander.namespaces.find? ns with
  | some found => s.putNamespace (found.unrefer name)
  | none => s

namespace Consistent

variable (hs : s.Consistent)
include hs

theorem unrefer_eq (name : String) : s.unrefer name = s.unreferIn s.current name := by
  obtain ⟨found, hfound⟩ := Option.ne_none_iff_exists'.mp hs.current
  rw [unrefer, currentNamespace, Expander.namespaceNamed, unreferIn, hfound]
  rfl

theorem unreferIn_eq_self (h : s.Unrefers ns name) : s.unreferIn ns name = s := by
  unfold unreferIn
  split
  · rename_i found hfound
    rw [Unrefers, namespaceOf, hfound] at h
    have hname : found.name = ns := hs.named ns found hfound
    have hrefers : found.refers.find? name = none := h
    have hsame : found.unrefer name = found := by
      rw [Namespace.unrefer, Table.erase_eq_self hrefers]
    rw [hsame, putNamespace, hname, Table.insert_eq_self hfound]
  · rfl

theorem unrefer_eq_self_iff : s.unrefer name = s ↔ s.Unrefers s.current name := by
  constructor
  · intro h
    rw [← h]
    exact unrefers_unrefer hs name
  · intro h
    rw [hs.unrefer_eq, hs.unreferIn_eq_self h]

end Consistent

end Session

namespace Evaluation

open Session

variable {ev : Evaluator} {locals : List Frame} {s t : Session} {x : Symbol} {e : Value}
variable {r : Except Failure Value} {n : Nat}

/-- A definition comes to what its value comes to, and after that it only commits: the name becomes
a global of the namespace, which stops referring it. -/
def CommitsAfter (value definition : Evaluating Value) (s : Session) (name : String) : Prop :=
  ∀ r u, Gives (m := StateT Session Option) definition s r u ↔
    (∃ f, Gives (m := StateT Session Option) value s (.error f) u ∧ r = .error f) ∨
      ∃ v t, Gives (m := StateT Session Option) value s (.ok v) t ∧
        r = .ok (.sym ⟨name, some s.current⟩) ∧
          u = (t.unreferIn s.current name).setGlobal ⟨name, some s.current⟩ v

/-- A computation does the same whether or not a namespace refers a name. -/
def Overlooks (value : Evaluating Value) (s : Session) (ns name : String) : Prop :=
  ∀ r u, Gives (m := StateT Session Option) value (s.unreferIn ns name) r u ↔
    ∃ t, Gives (m := StateT Session Option) value s r t ∧ u = t.unreferIn ns name

theorem gives_evalDefine (hx : x.ns = none ∨ x.ns = some s.current) :
    Gives (m := StateT Session Option) (evalDefine ev locals [.sym x, e]) s r t ↔
      (∃ f, Gives (m := StateT Session Option) (ev locals e) (s.unrefer x.name) (.error f) t ∧
        r = .error f) ∨
      ∃ v u, Gives (m := StateT Session Option) (ev locals e) (s.unrefer x.name) (.ok v) u ∧
        r = .ok (.sym ⟨x.name, some s.current⟩) ∧
          t = u.setGlobal ⟨x.name, some s.current⟩ v := by
  have hhere : ¬(x.isQualified && x.ns != some s.current) = true := by
    rcases hx with hx | hx <;> simp [Symbol.isQualified, hx]
  change Gives (m := StateT Session Option) (defineSymbol ev locals x (some e)) s r t ↔ _
  unfold defineSymbol
  rw [Evaluating.gives_get_bind]
  dsimp only
  rw [if_neg hhere, Evaluating.gives_modify_bind, gives_bind]
  simp only [Evaluating.gives_modify_bind, gives_pure]

/-- A definition of a name with a value. -/
def definition (head : SpecialForm.define.Head) (x : Symbol) (e : Value) : Value :=
  .list [.sym head, .sym x, e]

variable {head : SpecialForm.define.Head}

theorem evalTree_definition :
    evalTree (n + 1) locals (definition head x e) = evalDefine (evalTree n) locals [.sym x, e] :=
  evalTree_head head n locals _

theorem commitsAfter_unrefer (hs : s.Consistent) (hx : x.ns = none ∨ x.ns = some s.current) :
    CommitsAfter (modify (fun s => s.unrefer x.name) >>= fun _ => evalTree n locals e)
      (evalTree (n + 1) locals (definition head x e)) s x.name := by
  intro r t
  rw [evalTree_definition, gives_evalDefine hx]
  simp only [Evaluating.gives_modify_bind]
  refine or_congr_right (exists_congr fun v => exists_congr fun u => and_congr_right fun hv => ?_)
  obtain ⟨hconsistent, hunrefers⟩ :=
    preserving_evalTree n locals e hv (preserves_unrefer s x.name hs).1
  have hself : Session.unreferIn u s.current x.name = u :=
    hconsistent.unreferIn_eq_self (hunrefers _ _ (unrefers_unrefer hs x.name))
  rw [hself]

theorem unrefers_of_gives_definition (hs : s.Consistent)
    (hx : x.ns = none ∨ x.ns = some s.current)
    (h : Gives (m := StateT Session Option) (evalTree (n + 1) locals (definition head x e)) s r t) :
    t.Unrefers s.current x.name := by
  have value {r u} (h : Gives (m := StateT Session Option) (evalTree n locals e)
      (s.unrefer x.name) r u) : u.Unrefers s.current x.name :=
    (preserving_evalTree n locals e h (preserves_unrefer s x.name hs).1).2 _ _
      (unrefers_unrefer hs x.name)
  rw [evalTree_definition, gives_evalDefine hx] at h
  rcases h with ⟨f, h, -⟩ | ⟨v, u, h, -, rfl⟩
  · exact value h
  · have hvalue : u.Unrefers s.current x.name := value h
    exact hvalue

theorem commitsAfter_of_unrefers (hs : s.Consistent) (hx : x.ns = none ∨ x.ns = some s.current)
    (h : s.Unrefers s.current x.name) :
    CommitsAfter (evalTree n locals e) (evalTree (n + 1) locals (definition head x e)) s
      x.name := by
  have hcommits : CommitsAfter (modify (fun s => s.unrefer x.name) >>= fun _ => evalTree n locals e)
      (evalTree (n + 1) locals (definition head x e)) s x.name := commitsAfter_unrefer hs hx
  simp only [CommitsAfter, Evaluating.gives_modify_bind] at hcommits
  rwa [hs.unrefer_eq_self_iff.mpr h] at hcommits

theorem CommitsAfter.eq_of_error {value definition : Evaluating Value} {name : String}
    {f f' : Failure} (h : CommitsAfter value definition s name)
    (hvalue : Gives (m := StateT Session Option) value s (.error f) t)
    (hdefinition : Gives (m := StateT Session Option) definition s (.error f') u) : u = t := by
  rcases (h _ _).mp hdefinition with ⟨f'', hvalue', -⟩ | ⟨v, w, -, hr, -⟩
  · exact (Evaluating.gives_unique hvalue hvalue').2
  · exact nomatch hr

theorem gives_evalTree_call_nil (n : Nat) (locals : List Frame) (s : Session) :
    ∃ f, Gives (m := StateT Session Option)
      (evalTree (n + 2) locals (.list [.nil])) s (.error f) s :=
  ⟨_, rfl⟩

theorem gives_definition_call_nil (n : Nat) (locals : List Frame) (head : SpecialForm.define.Head)
    (hx : x.ns = none ∨ x.ns = some s.current) :
    ∃ f, Gives (m := StateT Session Option)
      (evalTree (n + 3) locals (definition head x (.list [.nil]))) s (.error f)
        (s.unrefer x.name) := by
  obtain ⟨f, hf⟩ := gives_evalTree_call_nil n locals (s.unrefer x.name)
  refine ⟨f, ?_⟩
  rw [evalTree_definition, gives_evalDefine hx]
  exact .inl ⟨f, hf, rfl⟩

theorem unrefers_of_commitsAfter (hs : s.Consistent) (hx : x.ns = none ∨ x.ns = some s.current)
    (h : CommitsAfter (evalTree 2 locals (.list [.nil]))
      (evalTree 3 locals (definition head x (.list [.nil]))) s x.name) :
    s.Unrefers s.current x.name := by
  obtain ⟨f, hvalue⟩ := gives_evalTree_call_nil 0 locals s
  obtain ⟨f', hdefinition⟩ := gives_definition_call_nil 0 locals head hx
  exact hs.unrefer_eq_self_iff.mp (h.eq_of_error hvalue hdefinition)

theorem commitsAfter_iff_of_overlooks (hs : s.Consistent)
    (hx : x.ns = none ∨ x.ns = some s.current)
    (h : Overlooks (evalTree n locals e) s s.current x.name) :
    CommitsAfter (evalTree n locals e) (evalTree (n + 1) locals (definition head x e)) s x.name ↔
      ∀ f t, Gives (m := StateT Session Option) (evalTree n locals e) s (.error f) t →
        t.Unrefers s.current x.name := by
  rw [Overlooks, ← hs.unrefer_eq] at h
  constructor
  · intro hcommits f t ht
    have hdefinition : Gives (m := StateT Session Option)
        (evalTree (n + 1) locals (definition head x e)) s (.error f)
          (Session.unreferIn t s.current x.name) := by
      rw [evalTree_definition, gives_evalDefine hx]
      exact .inl ⟨f, (h _ _).mpr ⟨t, ht, rfl⟩, rfl⟩
    have hself := hcommits.eq_of_error ht hdefinition
    rw [← hself]
    exact unrefers_of_gives_definition hs hx hdefinition
  · intro hfailures r t
    rw [evalTree_definition, gives_evalDefine hx]
    refine or_congr (exists_congr fun f => and_congr_left fun _ => ?_)
      (exists_congr fun v => ?_)
    · rw [h]
      constructor
      · rintro ⟨u, hu, rfl⟩
        have hconsistent : u.Consistent := (preserving_evalTree n locals e hu hs).1
        rwa [hconsistent.unreferIn_eq_self (hfailures f u hu)]
      · intro ht
        have hconsistent : Session.Consistent t := (preserving_evalTree n locals e ht hs).1
        exact ⟨t, ht, (hconsistent.unreferIn_eq_self (hfailures f t ht)).symm⟩
    · constructor
      · rintro ⟨u, hu, hr, rfl⟩
        obtain ⟨w, hw, rfl⟩ := (h _ _).mp hu
        exact ⟨w, hw, hr, rfl⟩
      · rintro ⟨w, hw, hr, rfl⟩
        exact ⟨_, (h _ _).mpr ⟨w, hw, rfl⟩, hr, rfl⟩

theorem expandWithin_definition {expander : Expander} {caller : Option Namespace}
    (hhead : expander.registry.lookup caller head = none) (x : Symbol) (e : Value) :
    expander.expandWithin caller n (definition head x e) =
      expander.expandWithin caller n e >>= fun w => pure (definition head x w) := by
  have hnone : expander.macroFor caller (definition head x e) = none := hhead
  have hplain : ∀ form, SpecialForm.ofSymbol? head = some form → form.IsPlain := by
    intro form hform
    cases head.2.symm.trans hform
    trivial
  have hname : expander.expandWithin caller n (.sym x) = pure (.sym x) :=
    Expander.expandWithin_of_none rfl
  rw [Expander.expandWithin_of_none hnone, Value.parts, definition,
    Value.positions_of_isPlain hplain]
  simp only [List.mapM_cons, List.mapM_nil, hname, pure_bind, bind_assoc]
  rfl

theorem gives_expanded_iff (he : (SpecialForm.heading? e).any SpecialForm.keepsArguments →
      s.expander.IsExpanded (some s.currentNamespace) e) :
    Gives (m := StateT Session Option) (expanded e) s r t ↔
      ∃ u, Gives (m := StateM ExpansionState)
          (s.expander.expandAll (some s.currentNamespace) e) s.expansion r u ∧
        t = { s with expansion := u } := by
  unfold expanded
  split
  · rename_i hkeeps
    have hself := (he hkeeps).gives_expandWithin s.expander.maxDepth.toNat s.expansion
    constructor
    · intro h
      obtain ⟨rfl, rfl⟩ := gives_pure.mp h
      exact ⟨_, hself, rfl⟩
    · rintro ⟨u, hu, rfl⟩
      obtain ⟨rfl, rfl⟩ := Prod.mk.inj (hself.symm.trans hu)
      exact gives_pure.mpr ⟨rfl, rfl⟩
  · exact Evaluating.gives_expanding

theorem gives_expanded_definition
    (hhead : s.expander.registry.lookup (some s.currentNamespace) head = none)
    (he : (SpecialForm.heading? e).any SpecialForm.keepsArguments →
      s.expander.IsExpanded (some s.currentNamespace) e) :
    Gives (m := StateT Session Option) (expanded (definition head x e)) s r t ↔
      ∃ r', Gives (m := StateT Session Option) (expanded e) s r' t ∧
        r = r'.map (definition head x) := by
  have hplain : ¬(SpecialForm.heading? (definition head x e)).any SpecialForm.keepsArguments := by
    rw [definition, SpecialForm.heading?_head]
    exact Bool.false_ne_true
  simp only [gives_expanded_iff he]
  rw [gives_expanded_iff fun hkeeps => absurd hkeeps hplain, Expander.expandAll,
    expandWithin_definition hhead]
  simp only [gives_bind_pure, Expander.expandAll]
  constructor
  · rintro ⟨u, ⟨r', hr', rfl⟩, rfl⟩
    exact ⟨r', ⟨u, hr', rfl⟩, rfl⟩
  · rintro ⟨r', ⟨u, hr', rfl⟩, rfl⟩
    exact ⟨u, ⟨r', hr', rfl⟩, rfl⟩

/-- If evaluation of what stands in a definition after expansion commits as it should, so does the
whole definition. -/
theorem commitsAfter_evaluate
    (hhead : s.expander.registry.lookup (some s.currentNamespace) head = none)
    (he : (SpecialForm.heading? e).any SpecialForm.keepsArguments →
      s.expander.IsExpanded (some s.currentNamespace) e)
    (h : ∀ w t, Gives (m := StateT Session Option) (expanded e) s (.ok w) t →
      t.current = s.current ∧
        CommitsAfter (evalTree n locals w) (evalTree (n + 1) locals (definition head x w)) t
          x.name) :
    CommitsAfter (evaluate n locals e) (evaluate (n + 1) locals (definition head x e)) s
      x.name := by
  intro r u
  unfold evaluate
  simp only [gives_bind, gives_expanded_definition hhead he]
  constructor
  · rintro (⟨f, ⟨r', hr', hf⟩, rfl⟩ | ⟨tree, t, ⟨r', hr', htree⟩, hu⟩)
    · cases r' with
      | error f' =>
          cases hf
          exact .inl ⟨f, .inl ⟨f, hr', rfl⟩, rfl⟩
      | ok w => cases hf
    · cases r' with
      | error f' => cases htree
      | ok w =>
          cases htree
          obtain ⟨hcurrent, hcommits⟩ := h w t hr'
          rcases (hcommits r u).mp hu with ⟨f, hf, rfl⟩ | ⟨v, t', hv, rfl, rfl⟩
          · exact .inl ⟨f, .inr ⟨w, t, hr', hf⟩, rfl⟩
          · rw [hcurrent]
            exact .inr ⟨v, t', .inr ⟨w, t, hr', hv⟩, rfl, rfl⟩
  · rintro (⟨f, ⟨f', hf, hr⟩ | ⟨w, t, hw, hf⟩, rfl⟩ |
      ⟨v, t', ⟨f', -, hv⟩ | ⟨w, t, hw, hv⟩, rfl, rfl⟩)
    · cases hr
      exact .inl ⟨f, ⟨_, hf, rfl⟩, rfl⟩
    · obtain ⟨-, hcommits⟩ := h w t hw
      exact .inr ⟨_, t, ⟨_, hw, rfl⟩, (hcommits _ u).mpr (.inl ⟨f, hf, rfl⟩)⟩
    · cases hv
    · obtain ⟨hcurrent, hcommits⟩ := h w t hw
      refine .inr ⟨_, t, ⟨_, hw, rfl⟩, (hcommits _ _).mpr (.inr ⟨v, t', hv, ?_, ?_⟩)⟩
      · rw [hcurrent]
      · rw [hcurrent]

theorem isExpanded_call_nil {expander : Expander} {caller : Option Namespace} :
    expander.IsExpanded caller (.list [.nil]) := by
  refine .intro rfl fun w hw => ?_
  cases List.mem_singleton.mp hw
  exact isExpanded_of_ne_list nofun

theorem unrefers_of_commitsAfter_evaluate (hs : s.Consistent)
    (hx : x.ns = none ∨ x.ns = some s.current)
    (hhead : s.expander.registry.lookup (some s.currentNamespace) head = none)
    (h : CommitsAfter (evaluate 2 locals (.list [.nil]))
      (evaluate 3 locals (definition head x (.list [.nil]))) s x.name) :
    s.Unrefers s.current x.name := by
  obtain ⟨f, hf⟩ := gives_evalTree_call_nil 0 locals s
  obtain ⟨f', hf'⟩ := gives_definition_call_nil 0 locals head hx
  have hexpanded : Gives (m := StateT Session Option) (expanded (.list [.nil])) s
      (.ok (.list [.nil])) s :=
    (gives_expanded_iff fun _ => isExpanded_call_nil).mpr
      ⟨s.expansion, isExpanded_call_nil.gives_expandWithin _ _, rfl⟩
  have hvalue : Gives (m := StateT Session Option)
      (evaluate 2 locals (.list [.nil])) s (.error f) s :=
    gives_bind.mpr (.inr ⟨_, s, hexpanded, hf⟩)
  have hdefinition : Gives (m := StateT Session Option)
      (evaluate 3 locals (definition head x (.list [.nil]))) s (.error f') (s.unrefer x.name) :=
    gives_bind.mpr (.inr ⟨_, s, (gives_expanded_definition hhead fun _ => isExpanded_call_nil).mpr
      ⟨_, hexpanded, rfl⟩, hf'⟩)
  exact hs.unrefer_eq_self_iff.mp (h.eq_of_error hvalue hdefinition)

/-- For all values, evaluated as they are or with their expansion, a definition evaluates the value
as it would be evaluated on its own and commits after it, exactly if the current namespace does not
refer the name from elsewhere. In any case it does so with the value evaluated after the namespace
has stopped referring the name, and does not refer it in the end, also if the value has failed. So a
value that does the same whether or not the name is referred is defined as it should be, unless it
fails while the name is referred. -/
theorem commitsAfter_iff_unrefers (hs : s.Reachable) (hx : x.ns = none ∨ x.ns = some s.current)
    (head : SpecialForm.define.Head) (locals : List Frame) :
    (s.Unrefers s.current x.name ↔ ∀ n e,
      CommitsAfter (evalTree n locals e) (evalTree (n + 1) locals (definition head x e)) s x.name) ∧
    (s.expander.registry.lookup (some s.currentNamespace) head = none →
      (s.Unrefers s.current x.name ↔ ∀ n e,
        ((SpecialForm.heading? e).any SpecialForm.keepsArguments →
          s.expander.IsExpanded (some s.currentNamespace) e) →
        CommitsAfter (evaluate n locals e) (evaluate (n + 1) locals (definition head x e)) s
          x.name)) ∧
    ∀ n e,
      CommitsAfter (modify (fun s => s.unrefer x.name) >>= fun _ => evalTree n locals e)
        (evalTree (n + 1) locals (definition head x e)) s x.name ∧
      (∀ r t,
        Gives (m := StateT Session Option) (evalTree (n + 1) locals (definition head x e)) s r t →
          Unrefers t s.current x.name) ∧
      (Overlooks (evalTree n locals e) s s.current x.name →
        (CommitsAfter (evalTree n locals e) (evalTree (n + 1) locals (definition head x e)) s
            x.name ↔
          ∀ f t, Gives (m := StateT Session Option) (evalTree n locals e) s (.error f) t →
            Unrefers t s.current x.name)) := by
  have hconsistent := hs.consistent
  refine ⟨⟨fun h n e => commitsAfter_of_unrefers hconsistent hx h,
    fun h => unrefers_of_commitsAfter hconsistent hx (h 2 _)⟩, fun hhead => ⟨fun h n e he => ?_,
    fun h => unrefers_of_commitsAfter_evaluate hconsistent hx hhead
      (h 2 _ fun _ => isExpanded_call_nil)⟩, fun n e => ⟨commitsAfter_unrefer hconsistent hx,
    fun r t ht => unrefers_of_gives_definition hconsistent hx ht,
    commitsAfter_iff_of_overlooks hconsistent hx⟩⟩
  refine commitsAfter_evaluate hhead he fun w t hw => ?_
  obtain ⟨u, -, rfl⟩ := (gives_expanded_iff he).mp hw
  obtain ⟨htconsistent, hunrefers⟩ := closed_preserving.expanded e hw hconsistent
  exact ⟨rfl, commitsAfter_of_unrefers htconsistent hx (hunrefers _ _ h)⟩

def bareDefine : SpecialForm.define.Head := ⟨⟨"def", none⟩, rfl⟩

theorem commitsAfter_iff_unrefers_answer :
    (start "user" 100 4 {}).Reachable ∧ (start "user" 100 4 {}).Unrefers "user" "answer" ∧
      CommitsAfter (evaluate 2 [] (.list [.bare "inc", .int 41]))
        (evaluate 3 [] (definition bareDefine ⟨"answer", none⟩ (.list [.bare "inc", .int 41])))
        (start "user" 100 4 {}) "answer" := by
  have hunrefers : (start "user" 100 4 {}).Unrefers "user" "answer" := by
    rw [Unrefers, namespaceOf_start]
    rfl
  obtain ⟨-, hevaluate, -⟩ := commitsAfter_iff_unrefers (x := ⟨"answer", none⟩)
    (.start "user" 100 4 {}) (.inl rfl) bareDefine []
  exact ⟨.start "user" 100 4 {}, hunrefers,
    (hevaluate rfl).mp hunrefers 2 _ fun hkeeps => absurd hkeeps Bool.false_ne_true⟩

/-- A new session refers `inc`, which `(def inc (inc 1))` does not find any more. -/
theorem not_commitsAfter_referred :
    ¬∀ s : Session, s.Reachable → ∀ x : Symbol, x.ns = none ∨ x.ns = some s.current → ∀ n e,
      CommitsAfter (evaluate n [] e) (evaluate (n + 1) [] (definition bareDefine x e)) s
        x.name := by
  intro h
  have hcommits := h _ (.start "user" 100 4 {}) ⟨"inc", none⟩ (.inl rfl) 2
    (.list [.bare "inc", .int 1])
  have hvalue : ∃ t, Gives (m := StateT Session Option)
      (evaluate 2 [] (.list [.bare "inc", .int 1])) (start "user" 100 4 {}) (.ok (.int 2)) t :=
    ⟨_, rfl⟩
  have hdefinition : ∃ f t, Gives (m := StateT Session Option)
      (evaluate 3 [] (definition bareDefine ⟨"inc", none⟩ (.list [.bare "inc", .int 1])))
      (start "user" 100 4 {}) (.error f) t := ⟨_, _, rfl⟩
  obtain ⟨_, hvalue⟩ := hvalue
  obtain ⟨f, t, ht⟩ := hdefinition
  rcases (hcommits _ _).mp ht with ⟨f', hf', -⟩ | ⟨v, u, -, hr, -⟩
  · exact nomatch (Evaluating.gives_unique hvalue hf').1
  · exact nomatch hr

end Evaluation

end Quasiquote
