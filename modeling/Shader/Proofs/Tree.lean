import Shader.Tree

/-! Everything in a syntax tree that a statement about the whole tree has to speak of: the
expressions at all depths, the variables that declarations record and the names of structs. -/

namespace Shader

inductive Part where
  | node (e : Expr)
  | binding (v : Variable)
  | tag (name : String)

namespace Part

def expr? : Part → Option Expr
  | node e => some e
  | _ => none

/-- All of the parts have the property. -/
def All (P : Part → Prop) (ps : List Part) : Prop :=
  ∀ p ∈ ps, P p

variable {P Q : Part → Prop} {p : Part} {ps qs : List Part}

@[simp] theorem all_nil : All P [] := by simp [All]

@[simp] theorem all_cons : All P (p :: ps) ↔ P p ∧ All P ps := by simp [All]

@[simp] theorem all_append : All P (ps ++ qs) ↔ All P ps ∧ All P qs := by
  simp [All, or_imp, forall_and]

@[simp] theorem all_flatMap {α : Type} {f : α → List Part} {as : List α} :
    All P (as.flatMap f) ↔ ∀ a ∈ as, All P (f a) := by
  simp only [All, List.mem_flatMap]
  exact ⟨fun h a ha p hp => h p ⟨a, ha, hp⟩, fun h p ⟨a, ha, hp⟩ => h a ha p hp⟩

theorem All.mono (h : All P ps) (hpq : ∀ p, P p → Q p) : All Q ps :=
  fun p hp => hpq p (h p hp)

end Part

@[elab_as_elim]
theorem Expr.induction {P : Expr → Prop} (int : ∀ text n, P (.int text n))
    (float : ∀ text n, P (.float text n)) (bool : ∀ b n, P (.bool b n))
    (var : ∀ x binding n, P (.var x binding n))
    (unary : ∀ op e n, P e → P (.unary op e n))
    (update : ∀ op before e n, P e → P (.update op before e n))
    (binary : ∀ op l r n, P l → P r → P (.binary op l r n))
    (assign : ∀ op t v n, P t → P v → P (.assign op t v n))
    (ternary : ∀ c t e n, P c → P t → P e → P (.ternary c t e n))
    (comma : ∀ l r n, P l → P r → P (.comma l r n))
    (call : ∀ callee suffix args target n, (∀ e span, suffix = some ⟨some e, span⟩ → P e) →
      (∀ a ∈ args, P a) → P (.call callee suffix args target n))
    (field : ∀ e x n, P e → P (.field e x n))
    (index : ∀ a i n, P a → P i → P (.index a i n))
    (length : ∀ e n, P e → P (.length e n)) (e : Expr) : P e := by
  refine @Expr.rec P (fun suffix => ∀ e span, suffix = some ⟨some e, span⟩ → P e)
    (fun args => ∀ a ∈ args, P a) (fun suffix => ∀ e, suffix.size = some e → P e)
    (fun size => ∀ e, size = some e → P e) int float bool var unary update binary assign ternary
    comma call field index length ?_ ?_ ?_ ?_ ?_ ?_ ?_ e
  all_goals simp_all

mutual

def Expr.parts : Expr → List Part
  | .int text n => [.node (.int text n)]
  | .float text n => [.node (.float text n)]
  | .bool b n => [.node (.bool b n)]
  | .var x binding n => [.node (.var x binding n)]
  | .unary op e n => .node (.unary op e n) :: e.parts
  | .update op before e n => .node (.update op before e n) :: e.parts
  | .binary op l r n => .node (.binary op l r n) :: (l.parts ++ r.parts)
  | .assign op t v n => .node (.assign op t v n) :: (t.parts ++ v.parts)
  | .ternary c t e n => .node (.ternary c t e n) :: (c.parts ++ t.parts ++ e.parts)
  | .comma l r n => .node (.comma l r n) :: (l.parts ++ r.parts)
  | .call callee suffix args target n =>
    .node (.call callee suffix args target n) :: (suffixParts suffix ++ Expr.allParts args)
  | .field e x n => .node (.field e x n) :: e.parts
  | .index a i n => .node (.index a i n) :: (a.parts ++ i.parts)
  | .length e n => .node (.length e n) :: e.parts

def Expr.allParts : List Expr → List Part
  | [] => []
  | e :: es => e.parts ++ Expr.allParts es

def suffixParts : Option (ArraySuffix Expr) → List Part
  | none => []
  | some ⟨none, _⟩ => []
  | some ⟨some e, _⟩ => e.parts

end

theorem Expr.all_allParts {P : Part → Prop} {es : List Expr} :
    Part.All P (Expr.allParts es) ↔ ∀ e ∈ es, Part.All P e.parts := by
  induction es with
  | nil => simp [Expr.allParts]
  | cons e es ih => simp [Expr.allParts, ih]

theorem Expr.node_mem_parts (e : Expr) : .node e ∈ e.parts := by
  cases e <;> simp [Expr.parts]

def MemberName.parts (m : MemberName) : List Part :=
  suffixParts m.array

mutual

def TypeSpec.parts : TypeSpec → List Part
  | .basic _ note | .named _ note => suffixParts note.array
  | .struct tag members _ note =>
    tag.toList.map .tag ++ memberParts members ++ suffixParts note.array

def memberParts : List (Member TypeSpec) → List Part
  | [] => []
  | ⟨_, spec, names, _⟩ :: rest =>
    spec.parts ++ names.flatMap MemberName.parts ++ memberParts rest

end

theorem all_memberParts {P : Part → Prop} {ms : List (Member TypeSpec)} :
    Part.All P (memberParts ms) ↔
      ∀ m ∈ ms, Part.All P m.spec.parts ∧ ∀ x ∈ m.names, Part.All P x.parts := by
  induction ms with
  | nil => simp [memberParts]
  | cons m ms ih => simp [memberParts, ih, and_assoc]

/-- Induction on type specifiers, where a struct comes after the types of its members. -/
@[elab_as_elim]
theorem TypeSpec.induction {P : TypeSpec → Prop} (basic : ∀ b note, P (.basic b note))
    (named : ∀ x note, P (.named x note))
    (struct : ∀ tag members span note, (∀ m ∈ members, P m.spec) →
      P (.struct tag members span note)) (spec : TypeSpec) : P spec := by
  refine @TypeSpec.rec P (fun members => ∀ m ∈ members, P m.spec) (fun m => P m.spec) basic named
    struct ?_ ?_ ?_ spec
  all_goals simp_all

def Declarator.parts (d : Declarator) : List Part :=
  suffixParts d.array ++ d.init.toList.flatMap Expr.parts ++ d.binding.toList.map .binding

def InterfaceBlock.parts (b : InterfaceBlock) : List Part :=
  memberParts b.members ++ b.instance?.toList.flatMap Declarator.parts

def Declaration.parts : Declaration → List Part
  | .vars _ spec ds _ => spec.parts ++ ds.flatMap Declarator.parts
  | .block b _ => b.parts
  | .precision _ spec _ => spec.parts
  | .invariant targets _ => targets.flatMap fun t => t.binding.toList.map .binding

mutual

def Stmt.parts : Stmt → List Part
  | .expr e _ | .caseLabel e _ | .giveBack (some e) _ => e.parts
  | .block ⟨stmts, _⟩ _ => Stmt.allParts stmts
  | .decl d _ => d.parts
  | .branch c t none _ => c.parts ++ t.parts
  | .branch c t (some e) _ => c.parts ++ t.parts ++ e.parts
  | .switch e ⟨stmts, _⟩ _ => e.parts ++ Stmt.allParts stmts
  | .whileLoop c body _ | .doLoop body c _ => c.parts ++ body.parts
  | .forLoop none c u body _ =>
    c.toList.flatMap Expr.parts ++ u.toList.flatMap Expr.parts ++ body.parts
  | .forLoop (some init) c u body _ =>
    init.parts ++ c.toList.flatMap Expr.parts ++ u.toList.flatMap Expr.parts ++ body.parts
  | .giveBack none _ | .empty _ | .defaultLabel _ | .continueLoop _ | .breakLoop _
  | .discard _ => []

def Stmt.allParts : List Stmt → List Part
  | [] => []
  | s :: ss => s.parts ++ Stmt.allParts ss

end

/-- Induction on statements, where a block comes after the statements in it. -/
@[elab_as_elim]
theorem Stmt.induction {P : Stmt → Prop} (expr : ∀ e span, P (.expr e span))
    (empty : ∀ span, P (.empty span))
    (block : ∀ stmts inner span, (∀ s ∈ stmts, P s) → P (.block ⟨stmts, inner⟩ span))
    (decl : ∀ d span, P (.decl d span))
    (branch : ∀ c t e span, P t → (∀ s, e = some s → P s) → P (.branch c t e span))
    (switch : ∀ e stmts inner span, (∀ s ∈ stmts, P s) → P (.switch e ⟨stmts, inner⟩ span))
    (caseLabel : ∀ e span, P (.caseLabel e span)) (defaultLabel : ∀ span, P (.defaultLabel span))
    (whileLoop : ∀ c body span, P body → P (.whileLoop c body span))
    (doLoop : ∀ body c span, P body → P (.doLoop body c span))
    (forLoop : ∀ init c u body span, (∀ s, init = some s → P s) → P body →
      P (.forLoop init c u body span))
    (continueLoop : ∀ span, P (.continueLoop span)) (breakLoop : ∀ span, P (.breakLoop span))
    (giveBack : ∀ value span, P (.giveBack value span)) (discard : ∀ span, P (.discard span))
    (s : Stmt) : P s := by
  refine @Stmt.rec P (fun b => ∀ s ∈ b.stmts, P s) (fun e => ∀ s, e = some s → P s)
    (fun stmts => ∀ s ∈ stmts, P s) expr empty (fun b span h => block b.stmts b.span span h) decl
    branch (fun e b span h => switch e b.stmts b.span span h) caseLabel defaultLabel whileLoop
    doLoop forLoop continueLoop breakLoop giveBack discard ?_ ?_ ?_ ?_ ?_ s
  all_goals simp_all

theorem Stmt.all_allParts {P : Part → Prop} {ss : List Stmt} :
    Part.All P (Stmt.allParts ss) ↔ ∀ s ∈ ss, Part.All P s.parts := by
  induction ss with
  | nil => simp [Stmt.allParts]
  | cons s ss ih => simp [Stmt.allParts, ih]

def ParamDecl.parts (p : ParamDecl) : List Part :=
  p.spec.parts ++ suffixParts p.array ++ p.binding.toList.map .binding

def FunctionDecl.parts (f : FunctionDecl) : List Part :=
  f.spec.parts ++ f.params.flatMap ParamDecl.parts ++
    f.body.toList.flatMap fun b => Stmt.allParts b.stmts

def TopLevel.parts : TopLevel → List Part
  | .declaration d => d.parts
  | .function f => f.parts

namespace TranslationUnit

def parts (unit : TranslationUnit) : List Part :=
  unit.flatMap TopLevel.parts

def nodes (unit : TranslationUnit) : List Expr :=
  (parts unit).filterMap Part.expr?

end TranslationUnit

/-- With an expression, the list has all the parts of that expression. -/
def Part.Closed (ps : List Part) : Prop :=
  ∀ e, .node e ∈ ps → e.parts ⊆ ps

namespace Part

variable {P : Part → Prop} {e : Expr} {ps qs : List Part}

theorem Closed.all_parts (hc : Closed ps) (h : All P ps) (he : .node e ∈ ps) : All P e.parts :=
  fun p hp => h p (hc e he hp)

theorem closed_nil : Closed [] := by simp [Closed]

theorem Closed.append (hp : Closed ps) (hq : Closed qs) : Closed (ps ++ qs) := by
  intro e he
  rcases List.mem_append.mp he with he | he
  · exact List.subset_append_of_subset_left _ (hp e he)
  · exact List.subset_append_of_subset_right _ (hq e he)

theorem closed_flatMap {α : Type} {f : α → List Part} {as : List α}
    (h : ∀ a ∈ as, Closed (f a)) : Closed (as.flatMap f) := by
  induction as with
  | nil => exact closed_nil
  | cons a as ih =>
    exact (h a (by simp)).append (ih fun b hb => h b (by simp [hb]))

theorem Closed.node (h : Closed ps) (he : e.parts = .node e :: ps) : Closed (.node e :: ps) := by
  intro d hd
  rcases List.mem_cons.mp hd with hd | hd
  · cases hd
    exact he ▸ List.Subset.refl _
  · exact List.subset_cons_of_subset _ (h d hd)

theorem closed_bindings (v : Option Variable) : Closed (v.toList.map .binding) := by
  cases v <;> simp [Closed]

end Part

open Shader.Part

theorem closed_suffixParts {suffix : Option (ArraySuffix Expr)}
    (h : ∀ e span, suffix = some ⟨some e, span⟩ → Closed e.parts) :
    Closed (suffixParts suffix) := by
  match suffix with
  | none | some ⟨none, _⟩ => exact closed_nil
  | some ⟨some e, span⟩ => exact h e span rfl

theorem Expr.closed_allParts {es : List Expr} (h : ∀ e ∈ es, Closed e.parts) :
    Closed (Expr.allParts es) := by
  induction es with
  | nil => exact closed_nil
  | cons e es ih =>
    exact (h e (by simp)).append (ih fun d hd => h d (by simp [hd]))

theorem Expr.closed_parts (e : Expr) : Closed e.parts := by
  induction e using Expr.induction with
  | int | float | bool | var => exact closed_nil.node rfl
  | unary _ _ _ ih | update _ _ _ _ ih | field _ _ _ ih | length _ _ ih => exact ih.node rfl
  | binary _ _ _ _ ihl ihr | assign _ _ _ _ ihl ihr | comma _ _ _ ihl ihr
  | index _ _ _ ihl ihr => exact (ihl.append ihr).node rfl
  | ternary _ _ _ _ ihc iht ihe => exact ((ihc.append iht).append ihe).node rfl
  | call _ _ _ _ _ ihsize ihargs =>
    exact ((closed_suffixParts ihsize).append (Expr.closed_allParts ihargs)).node rfl

theorem closed_suffix (suffix : Option (ArraySuffix Expr)) : Closed (suffixParts suffix) :=
  closed_suffixParts fun e _ _ => e.closed_parts

theorem closed_optionExpr (e : Option Expr) : Closed (e.toList.flatMap Expr.parts) :=
  closed_flatMap fun e _ => e.closed_parts

theorem closed_memberParts {ms : List (Member TypeSpec)}
    (h : ∀ m ∈ ms, Closed m.spec.parts) : Closed (memberParts ms) := by
  induction ms with
  | nil => exact closed_nil
  | cons m ms ih =>
    refine ((h m (by simp)).append ?_).append (ih fun n hn => h n (by simp [hn]))
    exact closed_flatMap fun x _ => closed_suffix x.array

theorem TypeSpec.closed_parts (spec : TypeSpec) : Closed spec.parts := by
  induction spec using TypeSpec.induction with
  | basic b note | named x note => exact closed_suffix _
  | struct tag members span note ih =>
    refine (Closed.append ?_ (closed_memberParts ih)).append (closed_suffix _)
    cases tag <;> simp [Closed]

theorem Declarator.closed_parts (d : Declarator) : Closed d.parts :=
  ((closed_suffix _).append (closed_optionExpr _)).append (closed_bindings _)

theorem Declaration.closed_parts (d : Declaration) : Closed d.parts := by
  cases d with
  | vars qualifiers spec ds span =>
    exact spec.closed_parts.append (closed_flatMap fun d _ => d.closed_parts)
  | block b span =>
    exact (closed_memberParts fun m _ => m.spec.closed_parts).append
      (closed_flatMap fun d _ => d.closed_parts)
  | precision p spec span => exact spec.closed_parts
  | invariant targets span => exact closed_flatMap fun t _ => closed_bindings _

theorem Stmt.closed_allParts {ss : List Stmt} (h : ∀ s ∈ ss, Closed s.parts) :
    Closed (Stmt.allParts ss) := by
  induction ss with
  | nil => exact closed_nil
  | cons s ss ih => exact (h s (by simp)).append (ih fun t ht => h t (by simp [ht]))

theorem Stmt.closed_parts (s : Stmt) : Closed s.parts := by
  induction s using Stmt.induction with
  | expr e span | caseLabel e span => exact e.closed_parts
  | giveBack value span =>
    cases value with
    | none => exact closed_nil
    | some e => exact e.closed_parts
  | empty | defaultLabel | continueLoop | breakLoop | discard => exact closed_nil
  | block stmts inner span ih => exact closed_allParts ih
  | decl d span => exact d.closed_parts
  | branch c t e span iht ihe =>
    cases e with
    | none => exact c.closed_parts.append iht
    | some e => exact (c.closed_parts.append iht).append (ihe e rfl)
  | switch e stmts inner span ih => exact e.closed_parts.append (closed_allParts ih)
  | whileLoop c body span ih | doLoop body c span ih => exact c.closed_parts.append ih
  | forLoop init c u body span ihinit ihbody =>
    cases init with
    | none => exact ((closed_optionExpr c).append (closed_optionExpr u)).append ihbody
    | some s =>
      exact (((ihinit s rfl).append (closed_optionExpr c)).append (closed_optionExpr u)).append
        ihbody

theorem FunctionDecl.closed_parts (f : FunctionDecl) : Closed f.parts := by
  refine (f.spec.closed_parts.append ?_).append ?_
  · refine closed_flatMap fun p _ => ?_
    exact (p.spec.closed_parts.append (closed_suffix _)).append (closed_bindings _)
  · exact closed_flatMap fun b _ => Stmt.closed_allParts fun s _ => s.closed_parts

theorem TranslationUnit.closed_parts (unit : TranslationUnit) :
    Closed (TranslationUnit.parts unit) := by
  refine closed_flatMap fun d _ => ?_
  cases d with
  | declaration d => exact d.closed_parts
  | function f => exact f.closed_parts

end Shader
