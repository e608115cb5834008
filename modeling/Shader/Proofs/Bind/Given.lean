import Shader.Bind
import Shader.Proofs.Bind.Tells
import Shader.Proofs.Entry

/-! What the binder finds in a run without problems. Each name in the bound tree stands for a
binding that was visible there, and each declaration has the type that is written in it. What is
true of all visible bindings is left open; a declaration only has to keep it. -/

namespace Shader

/-- What a callee, with its brackets, can stand for among bindings with the property `B`. -/
inductive Calls (B : Binding → Prop) (args : List Expr) :
    CalleeName → Option (ArraySuffix Expr) → Target → Prop where
  | function (x : String) {f : Function} (hf : B (.function f)) :
    Calls B args (.named x) none (.function f)
  | struct (x : String) {t : Ty} (ht : B (.struct t)) :
    Calls B args (.named x) none (.constructor t)
  | array (x : String) {t : Ty} {suffix : Option (ArraySuffix Expr)} (ht : B (.struct t))
    (hs : suffixExtent suffix ≠ .invalid) :
    Calls B args (.named x) suffix
      (Bind.constructorTarget ((suffixExtent suffix).apply (some t)) args)
  | basic (b : BasicTy) {suffix : Option (ArraySuffix Expr)} (hs : suffixExtent suffix ≠ .invalid) :
    Calls B args (.basic b) suffix
      (Bind.constructorTarget ((suffixExtent suffix).apply (some (.basic b))) args)

/-- The name at this node, if there is one, stands for a binding with the property `B`. -/
def Expr.Resolved (B : Binding → Prop) : Expr → Prop
  | .var _ binding _ => ∃ v, binding = some v ∧ B (.variable v)
  | .call callee suffix args target _ => Calls B args callee.name suffix target
  | _ => True

def Part.Holds (P : Expr → Prop) : Part → Prop
  | .node e => P e
  | _ => True

theorem Part.all_holds {P : Expr → Prop} {ps : List Part} :
    Part.All (Part.Holds P) ps ↔ ∀ e ∈ ps.filterMap Part.expr?, P e := by
  refine ⟨fun h e he => ?_, fun h p hp => ?_⟩
  · obtain ⟨p, hp, hpe⟩ := List.mem_filterMap.mp he
    have hholds := h p hp
    cases p with
    | node d => exact Option.some.inj hpe ▸ hholds
    | binding v => cases hpe
    | tag x => cases hpe
  · cases p with
    | node d => exact h d (List.mem_filterMap.mpr ⟨_, hp, rfl⟩)
    | binding v => trivial
    | tag x => trivial

theorem holds_node {P : Expr → Prop} {e : Expr} {ps : List Part} (hparts : e.parts = .node e :: ps)
    (he : P e) (hps : Part.All (Part.Holds P) ps) : Part.All (Part.Holds P) e.parts := by
  rw [hparts]
  exact Part.all_cons.mpr ⟨he, hps⟩

abbrev Part.Resolved (B : Binding → Prop) : Part → Prop :=
  Part.Holds (Expr.Resolved B)

def TypeSpec.HasBase (B : Binding → Prop) : TypeSpec → Ty → Prop
  | .basic b _, t => t = .basic b
  | .named _ _, t | .struct _ _ _ _, t => B (.struct t)

structure TypeSpec.Resolved (B : Binding → Prop) (spec : TypeSpec) : Prop where
  valid : suffixExtent spec.note.array ≠ .invalid
  ty : ∃ t, spec.HasBase B t ∧ spec.ty = (suffixExtent spec.note.array).apply (some t)

/-- The type is complete: it is no array of open size. -/
def Sized (ty : Option Ty) : Prop :=
  ∀ element, ty ≠ some (.array element none)

structure Member.Resolved (B : Binding → Prop) (m : Member TypeSpec) : Prop where
  named : m.spec.isStruct = false
  spec : m.spec.Resolved B
  names : ∀ x ∈ m.names, suffixExtent x.array ≠ .invalid ∧ Sized (x.ty m.spec.ty)

/-- The type that a declarator gets: an array of open size takes that of its initializer, and there
is only one pair of brackets. -/
structure Declarator.HasTy (base : Option Ty) (d : Declarator) (ty : Option Ty) : Prop where
  valid : suffixExtent d.array ≠ .invalid
  single : base.any Ty.isArray = true → d.array = none
  sized : Sized ((suffixExtent d.array).apply base) → ty = (suffixExtent d.array).apply base
  unsized : ∀ element, (suffixExtent d.array).apply base = some (.array element none) →
    ∃ n, d.init.bind Bind.initializerSize? = some n ∧ ty = some (.array element (some n))

/-- The signature has the types that are written in it. -/
structure FunctionDecl.Signed (B : Binding → Prop) (f : FunctionDecl) : Prop where
  result : f.spec.Resolved B
  params : ∀ p ∈ f.params, p.spec.Resolved B ∧ suffixExtent p.array ≠ .invalid

namespace Entry

/-- What is declared here has the type that is written here. -/
def Resolved (B : Binding → Prop) : Entry → Prop
  | .members ms => ∀ m ∈ ms, m.Resolved B
  | .variable q spec d => spec.Resolved B ∧
      (∀ e, d.init = some e → Part.All (Part.Resolved B) e.parts) ∧
      ∃ v, d.binding = some v ∧ v.storage = q.storage ∧ d.HasTy spec.ty v.ty
  | .block b => (∀ m ∈ b.members, m.Resolved B) ∧ ∀ d, b.instance? = some d →
      suffixExtent d.array ≠ .invalid ∧ ∃ v t, d.binding = some v ∧ B (.struct t) ∧
        v.ty = (suffixExtent d.array).apply (some t) ∧ Sized v.ty
  | .parameter p => p.spec.Resolved B ∧ suffixExtent p.array ≠ .invalid ∧ Sized p.ty ∧
      ∀ v, p.binding = some v → v.ty = p.ty
  | .function f => f.spec.Resolved B

/-- The bindings that are declared here. Functions are not among them, as their declarations
merge. -/
def Declares : Entry → Binding → Prop
  | .members ms, b => ∃ id tag, b = .struct (.struct id tag ((memberFields ms).map Field.entry))
  | .variable _ _ d, b => ∃ v, d.binding = some v ∧ b = .variable v
  | .block c, b => (∃ d v, c.instance? = some d ∧ d.binding = some v ∧ b = .variable v) ∨
      ∃ f ∈ memberFields c.members, c.instance? = none ∧
        b = .variable ⟨f.name, some f.ty, .blockMember, c.qualifiers.storage, none, f.span⟩
  | .parameter p, b => ∃ v, p.binding = some v ∧ b = .variable v
  | .function _, _ => False

end Entry

namespace Bind

/-- The property `J` of the scopes, which may hang on their depth, makes `B` true of every visible
binding, and lasts through declarations at the places with the property `F`. -/
structure Invariant (J : Nat → ScopeStack → Prop) (B : Binding → Prop) (F : Entry → Prop) :
    Prop where
  lookup : ∀ {k : Nat} {s : ScopeStack} {name : String} {b : Binding}, J k s →
    s.lookup? name = some b → B b
  push : ∀ {k : Nat} {s : ScopeStack}, J k s → J (k + 1) s.push
  pop : ∀ {k : Nat} {s : ScopeStack}, J (k + 1) s → J k s.pop
  define : ∀ {k : Nat} {s s' : ScopeStack} {name : String} {b : Binding}, J k s → B b →
    (∀ f, b ≠ .function f) → s.define name b = .ok s' → J k s'
  declared : ∀ {e : Entry} {b : Binding}, F e → e.Resolved B → e.Declares b → B b

theorem invariant_all {B : Binding → Prop} {F : Entry → Prop}
    (h : ∀ e b, F e → e.Resolved B → e.Declares b → B b) :
    Invariant (fun _ => ScopeStack.All B) B F where
  lookup hs hb := hs.lookup hb
  push hs := hs.push
  pop hs := hs.pop
  define hs hb _ hdefine := hs.define hb hdefine
  declared := h _ _

/-- The action takes no problem back. Where `p` holds and it ends without a problem, and with a
result that has the property `C`, it leads from `J` to `K`, and the result has the property `Q`. -/
def Leads {α : Type} (J : ScopeStack → Prop) (p : Prop) (C : α → Prop) (x : Bind α)
    (K : α → ScopeStack → Prop) (Q : α → Prop) : Prop :=
  ∀ s : BindState, s.problems <:+ (x s).2.problems ∧
    (p → J s.scopes → (x s).2.problems = [] → C (x s).1 → K (x s).1 (x s).2.scopes ∧ Q (x s).1)

/-- The action keeps `J`. -/
abbrev Given {α : Type} (J : ScopeStack → Prop) (p : Prop) (C : α → Prop) (x : Bind α)
    (Q : α → Prop) : Prop :=
  Leads J p C x (fun _ => J) Q

/-- The same for every result. -/
abbrev Finds {α : Type} (J : ScopeStack → Prop) (p : Prop) (x : Bind α) (Q : α → Prop) : Prop :=
  Given J p (fun _ => True) x Q

section Given

variable {α β : Type} {J : ScopeStack → Prop} {p : Prop} {x : Bind α} {C P Q : α → Prop}
  {D R : β → Prop}

theorem Leads.bind {I : α → ScopeStack → Prop} {K : β → ScopeStack → Prop} {f : α → Bind β}
    (hx : Leads J p C x I P) (hC : ∀ a s, D (f a s).1 → C a)
    (hf : ∀ a, Leads (I a) (p ∧ C a ∧ P a) D (f a) K R) : Leads J p D (x >>= f) K R := by
  intro s
  obtain ⟨hsuffix, hstep⟩ := hx s
  obtain ⟨hsuffix', hstep'⟩ := hf (x s).1 (x s).2
  refine ⟨hsuffix.trans hsuffix', fun hp hs hnil hc => ?_⟩
  -- Nothing is reported at the end, so nothing was between the two.
  have hmid : (x s).2.problems = [] := List.suffix_nil.mp (hnil ▸ hsuffix')
  have hfirst := hC (x s).1 (x s).2 hc
  obtain ⟨hscopes, ha⟩ := hstep hp hs hmid hfirst
  exact hstep' ⟨hp, hfirst, ha⟩ hscopes hnil hc

theorem Leads.of {K : α → ScopeStack → Prop} {q : Prop} (h : Leads J p C x K Q) (hq : q → p) :
    Leads J q C x K Q :=
  fun s => ⟨(h s).1, fun hp => (h s).2 (hq hp)⟩

theorem Leads.ask {K : α → ScopeStack → Prop} (h : Leads J p C x K Q) (hC : ∀ a, P a → C a) :
    Leads J p P x K Q :=
  fun s => ⟨(h s).1, fun hp hs hnil hc => (h s).2 hp hs hnil (hC _ hc)⟩

theorem Leads.mono {K : α → ScopeStack → Prop} (h : Leads J p C x K P) (hpq : ∀ a, P a → Q a) :
    Leads J p C x K Q := by
  intro s
  obtain ⟨hsuffix, hstep⟩ := h s
  refine ⟨hsuffix, fun hp hs hnil hc => ?_⟩
  obtain ⟨hscopes, ha⟩ := hstep hp hs hnil hc
  exact ⟨hscopes, hpq _ ha⟩

theorem Leads.to {I K : α → ScopeStack → Prop} (h : Leads J p C x I Q)
    (hK : p → ∀ s t, I (x s).1 t → K (x s).1 t) : Leads J p C x K Q := by
  intro s
  obtain ⟨hsuffix, hstep⟩ := h s
  refine ⟨hsuffix, fun hp hs hnil hc => ?_⟩
  obtain ⟨hscopes, ha⟩ := hstep hp hs hnil hc
  exact ⟨hK hp s _ hscopes, ha⟩

theorem Leads.done {K : α → ScopeStack → Prop} {a : α} (h : p → C a → Q a)
    (hK : ∀ s, J s → K a s) : Leads J p C (pure a) K Q :=
  fun s => ⟨List.suffix_rfl, fun hp hs _ hc => ⟨hK s.scopes hs, h hp hc⟩⟩

theorem Leads.pure {a : α} (h : p → C a → Q a) : Given J p C (pure a) Q :=
  .done h fun _ hs => hs

theorem Finds.bind {K : β → ScopeStack → Prop} {f : α → Bind β} (hx : Finds J p x P)
    (hf : ∀ a, Leads J (p ∧ P a) D (f a) K R) : Leads J p D (x >>= f) K R :=
  Leads.bind hx (fun _ _ _ => trivial) fun a => (hf a).of fun hp => ⟨hp.1, hp.2.2⟩

theorem Leads.ite {K : α → ScopeStack → Prop} {c : Prop} [Decidable c] {y : Bind α}
    (hx : c → Leads J p C x K Q) (hy : ¬c → Leads J p C y K Q) :
    Leads J p C (if c then x else y) K Q := by
  by_cases h : c
  · rw [if_pos h]
    exact hx h
  · rw [if_neg h]
    exact hy h

theorem Given.mapM {f : α → Bind β} {as : List α} (h : ∀ a ∈ as, Given J p D (f a) R) :
    Given J p (fun bs => ∀ b ∈ bs, D b) (as.mapM f) fun bs => ∀ b ∈ bs, R b := by
  induction as generalizing p with
  | nil => exact .pure (by simp)
  | cons a as ih =>
    rw [List.mapM_cons]
    refine (h a (by simp)).bind (fun b s hb => (List.forall_mem_cons.mp hb).1) fun b => ?_
    refine Leads.bind (ih fun c hc => (h c (by simp [hc])).of And.left)
      (fun bs s hbs => (List.forall_mem_cons.mp hbs).2) fun bs => .pure fun hp _ => ?_
    exact List.forall_mem_cons.mpr ⟨hp.1.2.2, hp.2.2⟩

theorem Finds.mapM {f : α → Bind β} {as : List α} (h : ∀ a ∈ as, Finds J p (f a) R) :
    Finds J p (as.mapM f) fun bs => ∀ b ∈ bs, R b := by
  exact (Given.mapM h).ask fun _ _ _ _ => trivial

theorem Finds.mapM_option {f : α → Bind β} {a : Option α}
    (h : ∀ x, a = some x → Finds J p (f x) R) :
    Finds J p (a.mapM f) fun b => ∀ y, b = some y → R y := by
  cases a with
  | none => exact .pure (by simp)
  | some x => exact (h x rfl).bind fun b => .pure fun hp _ y hy => Option.some.inj hy ▸ hp.2

theorem Finds.forIn {f : α → Bind Unit} {as : List α}
    (h : ∀ a ∈ as, Finds J p (f a) fun _ => True) :
    Finds J p (forIn as PUnit.unit fun a _ => do f a; return .yield PUnit.unit)
      fun _ => True := by
  induction as generalizing p with
  | nil => exact .pure fun _ _ => trivial
  | cons a as ih =>
    rw [List.forIn_cons]
    have hstep : Finds J p (do f a; return ForInStep.yield PUnit.unit) fun _ => True :=
      (h a (by simp)).bind fun _ => .pure fun _ _ => trivial
    refine hstep.bind fun r => ?_
    cases r with
    | done u => exact .pure fun _ _ => trivial
    | yield u => exact ih fun b hb => (h b (by simp [hb])).of And.left

end Given

section Primitives

variable {α : Type} {J : ScopeStack → Prop} {B : Binding → Prop} {F : Entry → Prop} {p : Prop}

theorem finds_get : Finds J p get fun s => J s.scopes :=
  fun _ => ⟨List.suffix_rfl, fun _ hs _ _ => ⟨hs, hs⟩⟩

theorem leads_modify {K : ScopeStack → Prop} {C : PUnit → Prop} {f : BindState → BindState}
    (hf : ∀ s, (f s).problems = s.problems)
    (h : p → C ⟨⟩ → ∀ s : BindState, J s.scopes → K (f s).scopes) :
    Leads J p C (modify f) (fun _ => K) fun _ => True :=
  fun s => ⟨(hf s).symm ▸ List.suffix_rfl, fun hp hs _ hc => ⟨h hp hc s hs, trivial⟩⟩

/-- After a report there is a problem, so nothing is left to show. -/
theorem finds_report (problem : BindProblem) (span : Span) :
    Finds J p (report problem span) fun _ => False :=
  fun s => ⟨List.suffix_cons _ s.problems, fun _ _ hnil => (List.cons_ne_nil _ _ hnil).elim⟩

theorem finds_reported {Q : α → Prop} (problem : BindProblem) (span : Span) (a : α) :
    Finds J p (do report problem span; return a) Q :=
  (finds_report problem span).bind fun _ => .pure fun hp => hp.2.elim

theorem finds_freshStruct : Finds J p freshStruct fun _ => True :=
  fun _ => ⟨List.suffix_rfl, fun _ hs _ _ => ⟨hs, trivial⟩⟩

theorem finds_declarationKind : Finds J p declarationKind fun _ => True :=
  finds_get.bind fun _ => .pure fun _ _ => trivial

variable {J : Nat → ScopeStack → Prop} {k : Nat} (law : Invariant J B F)

include law

theorem finds_lookup (name : String) :
    Finds (J k) p (lookup? name) fun r => ∀ b, r = some b → B b :=
  finds_get.bind fun _ => .pure fun hp _ _ hb => law.lookup hp.2 hb

/-- Whether the new binding has the property `B` may hang on what comes after it. -/
theorem given_define {C : PUnit → Prop} {name : String} {b : Binding} (hb : p → C ⟨⟩ → B b)
    (hf : ∀ f, b ≠ .function f) (span : Span) :
    Given (J k) p C (define name b span) fun _ => True := by
  refine finds_get.bind fun s => ?_
  split
  · rename_i scopes hdefine
    exact leads_modify (fun _ => rfl) fun hp hc _ _ => law.define hp.2 (hb hp.1 hc) hf hdefine
  · exact ((finds_report _ _).mono fun _ h => h.elim).ask fun _ _ => trivial

theorem given_nested {x : Bind α} {C Q : α → Prop} (hx : Given (J (k + 1)) p C x Q) :
    Given (J k) p C (nested x) Q := by
  have hpush : Leads (J k) p (fun _ => True)
      (modify fun s : BindState => { s with scopes := s.scopes.push }) (fun _ => J (k + 1))
      fun _ => True := leads_modify (fun _ => rfl) fun _ _ s hs => law.push hs
  have hpop : ∀ {q : Prop}, Leads (J (k + 1)) q (fun _ => True)
      (modify fun s : BindState => { s with scopes := s.scopes.pop }) (fun _ => J k)
      fun _ => True := leads_modify (fun _ => rfl) fun _ _ s hs => law.pop hs
  refine hpush.bind (fun _ _ _ => trivial) fun _ => ?_
  refine Leads.bind (hx.of And.left) (fun a s hc => hc) fun a => ?_
  refine hpop.bind (fun _ _ _ => trivial) fun _ => ?_
  exact .pure fun hp _ => hp.1.2.2

end Primitives

end Bind

end Shader
