import Shader.Bind.State
import Shader.Proofs.Prelude

/-! Runs of the binder that report nothing. Problems are never taken back, so a run that ends
without any had none at any point; what holds unless a problem is reported holds along all of it. -/

namespace Shader

def Scope.All (B : Binding → Prop) (s : Scope) : Prop :=
  ∀ e ∈ s.entries, B e.2

namespace Scope.All

variable {B : Binding → Prop} {s : Scope} {name : String}

theorem empty : Scope.empty.All B := by
  simp [Scope.All, Scope.empty]

theorem lookup (hs : s.All B) {b : Binding} (h : s.lookup? name = some b) : B b := by
  obtain ⟨before, after, heq, -⟩ := List.lookup_eq_some_iff.mp h
  exact hs (name, b) (by simp [heq])

theorem insert (hs : s.All B) {b : Binding} (hb : B b) : (s.insert name b).All B :=
  List.forall_mem_cons.mpr ⟨hb, hs⟩

theorem replace (hs : s.All B) {b : Binding} (hb : B b) : (s.replace name b).All B := by
  intro e he
  obtain ⟨⟨n, old⟩, hold, rfl⟩ := List.mem_map.mp he
  dsimp only
  split
  · exact hb
  · exact hs _ hold

theorem addOverload (hs : s.All B) {o : Overload} {builtin : Bool}
    (hnew : B (.function ⟨name, builtin, [o]⟩))
    (hold : ∀ f g, B (.function f) → f.addOverload o = .ok g → B (.function g)) {s' : Scope}
    (h : s.addOverload name builtin o = .ok s') : s'.All B := by
  unfold Scope.addOverload at h
  split at h
  · obtain rfl := Except.ok.inj h
    exact hs.insert hnew
  · rename_i f hf
    cases hadd : f.addOverload o with
    | error e =>
      rw [hadd] at h
      cases h
    | ok g =>
      rw [hadd] at h
      obtain rfl := Except.ok.inj h
      exact hs.replace (hold f g (hs.lookup hf) hadd)
  · cases h

end Scope.All

structure ScopeStack.All (B : Binding → Prop) (s : ScopeStack) : Prop where
  builtins : ∀ b, s.builtins = some b → b.All B
  inner : s.inner.All B
  outer : ∀ o ∈ s.outer, o.All B

namespace ScopeStack.All

variable {B : Binding → Prop} {s s' : ScopeStack} {name : String}

theorem lookup (hs : s.All B) {b : Binding} (h : s.lookup? name = some b) : B b := by
  unfold ScopeStack.lookup? at h
  cases hfind : (s.inner :: s.outer).findSome? fun scope => scope.lookup? name with
  | none =>
    rw [hfind] at h
    obtain ⟨scope, hscope, hb⟩ := Option.bind_eq_some_iff.mp h
    exact (hs.builtins scope hscope).lookup hb
  | some c =>
    rw [hfind] at h
    obtain rfl := Option.some.inj h
    obtain ⟨scope, hscope, hb⟩ := List.exists_of_findSome?_eq_some hfind
    rcases List.mem_cons.mp hscope with rfl | hscope
    · exact hs.inner.lookup hb
    · exact (hs.outer scope hscope).lookup hb

theorem push (hs : s.All B) : s.push.All B :=
  ⟨hs.builtins, Scope.All.empty, List.forall_mem_cons.mpr ⟨hs.inner, hs.outer⟩⟩

theorem pop (hs : s.All B) : s.pop.All B := by
  unfold ScopeStack.pop
  split
  · exact hs
  · rename_i scope rest heq
    obtain ⟨hscope, hrest⟩ := List.forall_mem_cons.mp (heq ▸ hs.outer)
    exact ⟨hs.builtins, hscope, hrest⟩

theorem define (hs : s.All B) {b : Binding} (hb : B b) (h : s.define name b = .ok s') :
    s'.All B := by
  unfold ScopeStack.define at h
  split at h
  · cases h
  · obtain rfl := Except.ok.inj h
    exact ⟨hs.builtins, hs.inner.insert hb, hs.outer⟩

theorem addOverload (hs : s.All B) {o : Overload} (hnew : B (.function ⟨name, false, [o]⟩))
    (hold : ∀ f g, B (.function f) → f.addOverload o = .ok g → B (.function g))
    (h : s.addOverload name o = .ok s') : s'.All B := by
  unfold ScopeStack.addOverload at h
  split at h
  · cases h
  · cases hadd : s.inner.addOverload name false o with
    | error e =>
      rw [hadd] at h
      cases h
    | ok inner =>
      rw [hadd] at h
      obtain rfl := Except.ok.inj h
      exact ⟨hs.builtins, hs.inner.addOverload hnew hold hadd, hs.outer⟩

end ScopeStack.All

namespace Bind

/-- The action takes no problem back. Where `p` holds and it ends without a problem, started among
bindings with the property `B`, it leaves such bindings, and what it returns has the property `Q`.
The condition `p` is no premise of the whole, since problems stay also where it fails. -/
def Tells {α : Type} (B : Binding → Prop) (p : Prop) (x : Bind α) (Q : α → Prop) : Prop :=
  ∀ s : BindState, s.problems <:+ (x s).2.problems ∧
    (p → s.scopes.All B → (x s).2.problems = [] → (x s).2.scopes.All B ∧ Q (x s).1)

section Tells

variable {α β : Type} {B : Binding → Prop} {p : Prop} {x : Bind α} {P Q : α → Prop} {R : β → Prop}

theorem Tells.of {q : Prop} (h : Tells B p x Q) (hq : q → p) : Tells B q x Q :=
  fun s => ⟨(h s).1, fun hp => (h s).2 (hq hp)⟩

theorem Tells.mono (h : Tells B p x P) (hpq : ∀ a, P a → Q a) : Tells B p x Q := by
  intro s
  obtain ⟨hsuffix, hstep⟩ := h s
  refine ⟨hsuffix, fun hp hs hnil => ?_⟩
  obtain ⟨hscopes, ha⟩ := hstep hp hs hnil
  exact ⟨hscopes, hpq _ ha⟩

theorem Tells.pure {a : α} (h : p → Q a) : Tells B p (pure a) Q :=
  fun _ => ⟨List.suffix_rfl, fun hp hs _ => ⟨hs, h hp⟩⟩

theorem Tells.bind {f : α → Bind β} (hx : Tells B p x P)
    (hf : ∀ a, Tells B (p ∧ P a) (f a) R) : Tells B p (x >>= f) R := by
  intro s
  obtain ⟨hsuffix, hstep⟩ := hx s
  obtain ⟨hsuffix', hstep'⟩ := hf (x s).1 (x s).2
  refine ⟨hsuffix.trans hsuffix', fun hp hs hnil => ?_⟩
  -- Nothing is reported at the end, so nothing was between the two.
  have hmid : (x s).2.problems = [] := List.suffix_nil.mp (hnil ▸ hsuffix')
  obtain ⟨hscopes, ha⟩ := hstep hp hs hmid
  exact hstep' ⟨hp, ha⟩ hscopes hnil

theorem Tells.ite {c : Prop} [Decidable c] {y : Bind α} (hx : Tells B p x Q)
    (hy : Tells B p y Q) : Tells B p (if c then x else y) Q := by
  split
  · exact hx
  · exact hy

theorem Tells.mapM {f : α → Bind β} {as : List α} (h : ∀ a ∈ as, Tells B p (f a) R) :
    Tells B p (as.mapM f) fun bs => ∀ b ∈ bs, R b := by
  induction as generalizing p with
  | nil => exact .pure (by simp)
  | cons a as ih =>
    rw [List.mapM_cons]
    refine (h a (by simp)).bind fun b => ?_
    refine (ih fun c hc => (h c (by simp [hc])).of And.left).bind fun bs => .pure fun hp => ?_
    exact List.forall_mem_cons.mpr ⟨hp.1.2, hp.2⟩

theorem Tells.mapM_option {f : α → Bind β} {a : Option α}
    (h : ∀ x, a = some x → Tells B p (f x) R) :
    Tells B p (a.mapM f) fun b => ∀ y, b = some y → R y := by
  cases a with
  | none => exact .pure (by simp)
  | some x => exact (h x rfl).bind fun b => .pure fun hp y hy => Option.some.inj hy ▸ hp.2

theorem Tells.forIn {f : α → Bind Unit} {as : List α}
    (h : ∀ a ∈ as, Tells B p (f a) fun _ => True) :
    Tells B p (forIn as PUnit.unit fun a _ => do f a; return .yield PUnit.unit)
      fun _ => True := by
  induction as generalizing p with
  | nil => exact .pure fun _ => trivial
  | cons a as ih =>
    rw [List.forIn_cons]
    have hstep : Tells B p (do f a; return ForInStep.yield PUnit.unit) fun _ => True :=
      (h a (by simp)).bind fun _ => .pure fun _ => trivial
    refine hstep.bind fun r => ?_
    cases r with
    | done u => exact .pure fun _ => trivial
    | yield u => exact ih fun b hb => (h b (by simp [hb])).of And.left

end Tells

section Primitives

variable {α : Type} {B : Binding → Prop} {p : Prop}

theorem tells_get : Tells B p get fun s => s.scopes.All B :=
  fun _ => ⟨List.suffix_rfl, fun _ hs _ => ⟨hs, hs⟩⟩

theorem tells_modify {f : BindState → BindState} (hf : ∀ s, (f s).problems = s.problems)
    (h : p → ∀ s : BindState, s.scopes.All B → (f s).scopes.All B) :
    Tells B p (modify f) fun _ => True :=
  fun s => ⟨(hf s).symm ▸ List.suffix_rfl, fun hp hs _ => ⟨h hp s hs, trivial⟩⟩

/-- After a report there is a problem, so nothing is left to show. -/
theorem tells_report (problem : BindProblem) (span : Span) :
    Tells B p (report problem span) fun _ => False :=
  fun s => ⟨List.suffix_cons _ s.problems, fun _ _ hnil => (List.cons_ne_nil _ _ hnil).elim⟩

theorem tells_reported {Q : α → Prop} (problem : BindProblem) (span : Span) (a : α) :
    Tells B p (do report problem span; return a) Q :=
  (tells_report problem span).bind fun _ => .pure fun hp => hp.2.elim

theorem tells_lookup (name : String) :
    Tells B p (lookup? name) fun r => ∀ b, r = some b → B b :=
  tells_get.bind fun _ => .pure fun hp _ hb => hp.2.lookup hb

theorem tells_define {name : String} {b : Binding} (hb : p → B b) (span : Span) :
    Tells B p (define name b span) fun _ => True := by
  refine tells_get.bind fun s => ?_
  split
  · rename_i scopes hdefine
    exact tells_modify (fun _ => rfl) fun hp _ _ => hp.2.define (hb hp.1) hdefine
  · exact (tells_report _ _).mono fun _ h => h.elim

theorem tells_addOverload {name : String} {o : Overload}
    (hnew : p → B (.function ⟨name, false, [o]⟩))
    (hold : p → ∀ f g, B (.function f) → f.addOverload o = .ok g → B (.function g)) :
    Tells B p (addOverload name o) fun _ => True := by
  refine tells_get.bind fun s => ?_
  split
  · rename_i scopes hadd
    exact tells_modify (fun _ => rfl) fun hp _ _ => hp.2.addOverload (hnew hp.1) (hold hp.1) hadd
  · exact (tells_report _ _).mono fun _ h => h.elim

theorem tells_nested {x : Bind α} {Q : α → Prop} (hx : Tells B p x Q) :
    Tells B p (nested x) Q := by
  refine Tells.bind (tells_modify (fun _ => rfl) fun _ s hs => hs.push) fun _ => ?_
  refine (hx.of And.left).bind fun a => ?_
  refine Tells.bind (tells_modify (fun _ => rfl) fun _ s hs => hs.pop) fun _ => .pure fun hp => ?_
  exact hp.1.2

theorem tells_freshStruct : Tells B p freshStruct fun _ => True :=
  fun _ => ⟨List.suffix_rfl, fun _ hs _ => ⟨hs, trivial⟩⟩

theorem tells_declarationKind : Tells B p declarationKind fun _ => True :=
  tells_get.bind fun _ => .pure fun _ => trivial

end Primitives

end Bind

end Shader
