import Shader.Bind.Expr
import Shader.Proofs.Parse
import Shader.Proofs.Prelude

/-! Binding expressions. While all visible bindings are sound, what binding records in a tree is
sound too. -/

namespace Shader

namespace ScopeStack

structure Sound (s : ScopeStack) : Prop where
  builtins : ∀ b, s.builtins = some b → b.Sound true
  inner : s.inner.Sound false
  outer : ∀ o ∈ s.outer, o.Sound false

variable {s : ScopeStack}

theorem Sound.lookup (hs : s.Sound) {name : String} {b : Binding} (h : s.lookup? name = some b) :
    ∃ builtin, b.Sound name builtin := by
  have hsome : (s.inner :: s.outer).findSome? (fun scope => scope.lookup? name) = some b ∨
      s.lookupBuiltin? name = some b := by
    cases hfind : (s.inner :: s.outer).findSome? fun scope => scope.lookup? name with
    | none => exact .inr (by simpa [lookup?, hfind] using h)
    | some c => exact .inl (by simpa [lookup?, hfind] using h)
  rcases hsome with h | h
  · obtain ⟨scope, hscope, hb⟩ := List.exists_of_findSome?_eq_some h
    rcases List.mem_cons.mp hscope with rfl | hscope
    · exact ⟨false, hs.inner.lookup hb⟩
    · exact ⟨false, (hs.outer scope hscope).lookup hb⟩
  · obtain ⟨scope, hscope, hb⟩ := Option.bind_eq_some_iff.mp h
    exact ⟨true, (hs.builtins scope hscope).lookup hb⟩

theorem Sound.push (hs : s.Sound) : s.push.Sound where
  builtins := hs.builtins
  inner := Scope.sound_empty
  outer := by simpa [ScopeStack.push] using ⟨hs.inner, hs.outer⟩

theorem Sound.pop (hs : s.Sound) : s.pop.Sound := by
  unfold ScopeStack.pop
  split
  · exact hs
  · rename_i scope rest heq
    have houter := hs.outer
    rw [heq] at houter
    exact ⟨hs.builtins, houter scope (by simp), fun o ho => houter o (by simp [ho])⟩

theorem Sound.define (hs : s.Sound) {name : String} {b : Binding} (hb : b.Sound name false)
    {s' : ScopeStack} (h : s.define name b = .ok s') : s'.Sound := by
  unfold ScopeStack.define at h
  split at h
  · cases h
  · obtain rfl := Except.ok.inj h
    exact ⟨hs.builtins, hs.inner.insert hb, hs.outer⟩

theorem Sound.addOverload (hs : s.Sound) {name : String} {o : Overload} {s' : ScopeStack}
    (h : s.addOverload name o = .ok s') : s'.Sound := by
  unfold ScopeStack.addOverload at h
  split at h
  · cases h
  · cases hadd : s.inner.addOverload name false o with
    | error e =>
      rw [hadd] at h
      cases h
    | ok inner =>
      rw [hadd] at h
      obtain rfl := Except.ok.inj h
      exact ⟨hs.builtins, hs.inner.addOverload (by simp) hadd, hs.outer⟩

theorem Sound.global (hs : s.Sound) : s.global.Sound false := by
  unfold ScopeStack.global
  cases h : s.outer.getLast? with
  | none => exact hs.inner
  | some o => exact hs.outer o (List.mem_of_getLast? h)

end ScopeStack

/-- What is recorded at the node is sound, and the type is not yet known. -/
def Part.Bound : Part → Prop
  | .node e => e.Sound ∧ e.ty = none
  | .binding v => v.Sound
  | .tag x => IsTag x

theorem Part.Bare.bound {p : Part} (h : p.Bare) : p.Bound := by
  cases p with
  | node e =>
    obtain ⟨hty, he⟩ := h
    refine ⟨?_, hty⟩
    cases e with
    | var x binding n =>
      obtain rfl : binding = none := he
      exact fun v hv => nomatch hv
    | call callee suffix args target n =>
      obtain rfl : target = .unresolved := he
      trivial
    | _ => trivial
  | binding v => exact h.elim
  | tag x => exact h

theorem Part.Bound.sound {p : Part} (h : p.Bound) : p.Sound := by
  cases p with
  | node e => exact h.1
  | binding v => exact h
  | tag x => exact h

namespace Bind

/-- Run where all visible bindings are sound, the action leaves them so, and what it returns has
the property. -/
def Keeps {α : Type} (x : Bind α) (Q : α → Prop) : Prop :=
  ∀ s : BindState, s.scopes.Sound → (x s).2.scopes.Sound ∧ Q (x s).1

section Keeps

variable {α β : Type} {x : Bind α} {P Q : α → Prop}

theorem Keeps.pure {a : α} (h : Q a) : Keeps (pure a) Q :=
  fun _ hs => ⟨hs, h⟩

theorem Keeps.bind {f : α → Bind β} {R : β → Prop} (hx : Keeps x P)
    (hf : ∀ a, P a → Keeps (f a) R) : Keeps (x >>= f) R :=
  fun s hs => hf _ (hx s hs).2 _ (hx s hs).1

theorem Keeps.ite {b : Prop} [Decidable b] {y : Bind α} (hx : Keeps x Q) (hy : Keeps y Q) :
    Keeps (if b then x else y) Q := by
  split
  · exact hx
  · exact hy

theorem Keeps.mapM {f : α → Bind β} {R : β → Prop} {as : List α} (h : ∀ a ∈ as, Keeps (f a) R) :
    Keeps (as.mapM f) fun bs => ∀ b ∈ bs, R b := by
  induction as with
  | nil => exact .pure (by simp)
  | cons a as ih =>
    rw [List.mapM_cons]
    refine (h a (by simp)).bind fun b hb => ?_
    refine (ih fun c hc => h c (by simp [hc])).bind fun bs hbs => .pure ?_
    simpa using ⟨hb, hbs⟩

theorem Keeps.forIn {f : α → Bind Unit} {as : List α} (h : ∀ a ∈ as, Keeps (f a) fun _ => True) :
    Keeps (forIn as PUnit.unit fun a _ => do f a; return .yield PUnit.unit) fun _ => True := by
  induction as with
  | nil => exact .pure trivial
  | cons a as ih =>
    rw [List.forIn_cons]
    have hstep : Keeps (do f a; return ForInStep.yield PUnit.unit) (· = .yield PUnit.unit) :=
      (h a (by simp)).bind fun _ _ => .pure rfl
    refine hstep.bind fun r hr => ?_
    subst hr
    exact ih fun b hb => h b (by simp [hb])

theorem Keeps.mapM_option {f : α → Bind β} {R : β → Prop} {a : Option α}
    (h : ∀ x, a = some x → Keeps (f x) R) : Keeps (a.mapM f) fun b => ∀ y, b = some y → R y := by
  cases a with
  | none => exact .pure (by simp)
  | some x => exact (h x rfl).bind fun b hb => .pure (by simpa using hb)

end Keeps

theorem keeps_get : Keeps get fun s => s.scopes.Sound :=
  fun _ hs => ⟨hs, hs⟩

theorem keeps_modify {f : BindState → BindState}
    (h : ∀ s : BindState, s.scopes.Sound → (f s).scopes.Sound) :
    Keeps (modify f) fun _ => True :=
  fun s hs => ⟨h s hs, trivial⟩

theorem keeps_report (p : BindProblem) (span : Span) : Keeps (report p span) fun _ => True :=
  keeps_modify fun _ hs => hs

theorem keeps_lookup (name : String) :
    Keeps (lookup? name) fun r => ∀ b, r = some b → ∃ builtin, b.Sound name builtin :=
  keeps_get.bind fun _ hs => .pure fun _ hb => hs.lookup hb

theorem keeps_define {name : String} {b : Binding} (hb : b.Sound name false) (span : Span) :
    Keeps (define name b span) fun _ => True := by
  refine keeps_get.bind fun s hs => ?_
  split
  · rename_i scopes hdefine
    exact keeps_modify fun _ _ => hs.define hb hdefine
  · exact keeps_report _ _

theorem keeps_addOverload (name : String) (o : Overload) :
    Keeps (addOverload name o) fun _ => True := by
  refine keeps_get.bind fun s hs => ?_
  split
  · rename_i scopes hadd
    exact keeps_modify fun _ _ => hs.addOverload hadd
  · exact keeps_report _ _

theorem keeps_nested {α : Type} {x : Bind α} {Q : α → Prop} (hx : Keeps x Q) :
    Keeps (nested x) Q := by
  refine (keeps_modify fun s hs => hs.push).bind fun _ _ => hx.bind fun a ha => ?_
  exact (keeps_modify fun s hs => hs.pop).bind fun _ _ => .pure ha

theorem keeps_freshStruct : Keeps freshStruct fun _ => True :=
  fun _ hs => ⟨hs, trivial⟩

theorem keeps_declarationKind : Keeps declarationKind fun _ => True :=
  keeps_get.bind fun _ _ => .pure trivial

theorem keeps_reference (name : String) (span : Span) :
    Keeps (reference name span) fun r => ∀ v, r = some v → v.Sound := by
  refine (keeps_lookup name).bind fun r hr => ?_
  split
  · rename_i v
    obtain ⟨_, hv⟩ := hr _ rfl
    exact .pure fun w hw => Option.some.inj hw ▸ hv
  · exact (keeps_report _ _).bind fun _ _ => .pure (by simp)
  · exact (keeps_report _ _).bind fun _ _ => .pure (by simp)

theorem keeps_namedTy (name : String) (span : Span) :
    Keeps (namedTy name span) fun r => ∀ t, r = some t → t.HasName := by
  refine (keeps_lookup name).bind fun r hr => ?_
  split
  · rename_i ty
    obtain ⟨_, hty⟩ := hr _ rfl
    exact .pure fun t ht => Option.some.inj ht ▸ hty
  · exact (keeps_report _ _).bind fun _ _ => .pure (by simp)
  · exact (keeps_report _ _).bind fun _ _ => .pure (by simp)

theorem keeps_size (e : Expr) (span : Span) : Keeps (size e span) fun _ => True := by
  unfold size
  split
  · exact (keeps_report _ _).bind fun _ _ => .pure trivial
  · split
    · exact .pure trivial
    · exact (keeps_report _ _).bind fun _ _ => .pure trivial

theorem hasConstructor_of_hasName {t : Ty} (h : t.HasName) : t.HasConstructor := by
  cases t with
  | array element size => exact h.elim
  | _ => exact h

theorem keeps_plainTarget (name : String) (span : Span) :
    Keeps (plainTarget name span) Target.Sound := by
  refine (keeps_lookup name).bind fun r hr => ?_
  split
  · obtain ⟨_, hf⟩ := hr _ rfl
    exact .pure hf.2.2
  · obtain ⟨_, hty⟩ := hr _ rfl
    exact .pure (hasConstructor_of_hasName hty)
  · exact (keeps_report _ _).bind fun _ _ => .pure trivial
  · exact (keeps_report _ _).bind fun _ _ => .pure trivial

theorem sound_constructorTarget {base : Option Ty} (hbase : ∀ t, base = some t → t.HasName)
    (extent : Extent) (args : List Expr) :
    (constructorTarget (extent.apply base) args).Sound := by
  cases base with
  | none => cases extent <;> trivial
  | some t =>
    have ht := hbase t rfl
    cases extent with
    | none =>
      cases t with
      | array element size => exact ht.elim
      | basic b => trivial
      | struct id tag fields => exact ht
    | unsized => exact ht
    | sized n => exact ht
    | invalid => trivial

theorem bound_node {e : Expr} {ps : List Part} (hparts : e.parts = .node e :: ps) (he : e.Sound)
    (hty : e.ty = none) (hps : Part.All Part.Bound ps) : Part.All Part.Bound e.parts := by
  rw [hparts, Part.all_cons]
  exact ⟨⟨he, hty⟩, hps⟩

theorem keeps_exprs {es : List Expr}
    (h : ∀ e ∈ es, Keeps (expr e) fun r => Part.All Part.Bound r.parts) :
    Keeps (exprs es) fun rs => Part.All Part.Bound (Expr.allParts rs) := by
  induction es with
  | nil =>
    unfold exprs
    exact .pure Part.all_nil
  | cons e es ih =>
    unfold exprs
    refine (h e (by simp)).bind fun r hr => ?_
    refine (ih fun a ha => h a (by simp [ha])).bind fun rs hrs => .pure ?_
    exact Part.all_append.mpr ⟨hr, hrs⟩

theorem keeps_arraySuffix_of {suffix : Option (ArraySuffix Expr)}
    (h : ∀ e span, suffix = some ⟨some e, span⟩ →
      Keeps (expr e) fun r => Part.All Part.Bound r.parts) :
    Keeps (arraySuffix suffix) fun r => Part.All Part.Bound (suffixParts r.1) := by
  match suffix, h with
  | none, _ =>
    unfold arraySuffix
    exact .pure Part.all_nil
  | some ⟨none, _⟩, _ =>
    unfold arraySuffix
    exact .pure Part.all_nil
  | some ⟨some e, span⟩, h =>
    unfold arraySuffix
    exact (h e span rfl).bind fun r hr => (keeps_size r span).bind fun _ _ => .pure hr

theorem keeps_expr {e : Expr} (he : Part.All Part.Bare e.parts) :
    Keeps (expr e) fun r => Part.All Part.Bound r.parts := by
  induction e using Expr.induction with
  | int text n | float text n | bool b n =>
    simp only [Expr.parts, Part.all_cons] at he
    unfold expr
    exact .pure (bound_node rfl trivial he.1.1 Part.all_nil)
  | var x binding n =>
    simp only [Expr.parts, Part.all_cons] at he
    unfold expr
    refine (keeps_reference x n.span).bind fun r hr => .pure ?_
    exact bound_node rfl hr he.1.1 Part.all_nil
  | unary op e n ih | update op before e n ih | length e n ih | field e x n ih =>
    simp only [Expr.parts, Part.all_cons] at he
    unfold expr
    exact (ih he.2).bind fun r hr => .pure (bound_node rfl trivial he.1.1 hr)
  | binary op l r n ihl ihr | comma l r n ihl ihr | assign op l r n ihl ihr | index l r n ihl ihr =>
    simp only [Expr.parts, Part.all_cons, Part.all_append] at he
    unfold expr
    refine (ihl he.2.1).bind fun l hl => (ihr he.2.2).bind fun r hr => .pure ?_
    exact bound_node rfl trivial he.1.1 (Part.all_append.mpr ⟨hl, hr⟩)
  | ternary c t e n ihc iht ihe =>
    simp only [Expr.parts, Part.all_cons, Part.all_append] at he
    unfold expr
    refine (ihc he.2.1.1).bind fun c hc => (iht he.2.1.2).bind fun t ht => ?_
    refine (ihe he.2.2).bind fun e he' => .pure ?_
    exact bound_node rfl trivial he.1.1 (Part.all_append.mpr ⟨Part.all_append.mpr ⟨hc, ht⟩, he'⟩)
  | call callee suffix args target n ihsuffix ihargs =>
    simp only [Expr.parts, Part.all_cons, Part.all_append, Expr.all_allParts] at he
    have hsuffix : Keeps (arraySuffix suffix) fun r => Part.All Part.Bound (suffixParts r.1) := by
      refine keeps_arraySuffix_of fun e span heq => ihsuffix e span heq ?_
      subst heq
      exact he.2.1
    unfold expr
    refine (keeps_exprs fun a ha => ihargs a ha (he.2.2 a ha)).bind fun args hargs => ?_
    split
    · refine (keeps_plainTarget _ _).bind fun target htarget => .pure ?_
      exact bound_node rfl htarget he.1.1 (Part.all_append.mpr ⟨Part.all_nil, hargs⟩)
    · refine (keeps_namedTy _ _).bind fun base hbase => hsuffix.bind fun r hr => .pure ?_
      exact bound_node rfl (sound_constructorTarget hbase _ _) he.1.1
        (Part.all_append.mpr ⟨hr, hargs⟩)
    · refine hsuffix.bind fun r hr => .pure ?_
      refine bound_node rfl (sound_constructorTarget ?_ _ _) he.1.1
        (Part.all_append.mpr ⟨hr, hargs⟩)
      exact fun t ht => Option.some.inj ht ▸ trivial

theorem keeps_arraySuffix {suffix : Option (ArraySuffix Expr)}
    (h : Part.All Part.Bare (suffixParts suffix)) :
    Keeps (arraySuffix suffix) fun r => Part.All Part.Bound (suffixParts r.1) := by
  refine keeps_arraySuffix_of fun e span heq => keeps_expr ?_
  subst heq
  exact h

end Bind

end Shader
