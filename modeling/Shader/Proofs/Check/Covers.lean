import Shader.Check
import Shader.Proofs.Check.Expr
import Shader.Proofs.Site

/-! Nothing that a check finds is lost: the problems at any place of a tree are among those that the
check of the whole tree reports. -/

namespace Shader

def Site.problems (stage : Stage) : Site → List Diagnostic
  | .root e => (Check.expr stage e).problems
  | .variable q d => (Check.declarator stage q.storage d).problems
  | .blockInstance _ | .parameter _ => []

namespace Check

/-- The result reports what is found at the places. -/
def Covers {α : Type} (stage : Stage) (ps : List Site) (x : Checked α) : Prop :=
  ∀ p ∈ ps, p.problems stage ⊆ x.problems

section Covers

variable {α β : Type} {stage : Stage} {ps qs : List Site} {x : Checked α} {f : α → Checked β}

theorem covers_nil : Covers stage [] x := by simp [Covers]

theorem covers_singleton {p : Site} (h : p.problems stage ⊆ x.problems) : Covers stage [p] x :=
  fun _ hq => List.mem_singleton.mp hq ▸ h

theorem Covers.append (hp : Covers stage ps x) (hq : Covers stage qs x) :
    Covers stage (ps ++ qs) x :=
  List.forall_mem_append.mpr ⟨hp, hq⟩

theorem Covers.left (h : Covers stage ps x) : Covers stage ps (x >>= f) :=
  fun p hp => List.Subset.trans (h p hp) (List.subset_append_left _ _)

theorem Covers.right (h : Covers stage ps (f x.value)) : Covers stage ps (x >>= f) :=
  fun p hp => List.Subset.trans (h p hp) (List.subset_append_right _ _)

theorem Covers.bind (hx : Covers stage ps x) (hf : Covers stage qs (f x.value)) :
    Covers stage (ps ++ qs) (x >>= f) :=
  hx.left.append hf.right

theorem Covers.mapM {sites : α → List Site} {as : List α}
    (h : ∀ a ∈ as, Covers stage (sites a) (f a)) :
    Covers stage (as.flatMap sites) (as.mapM f) := by
  induction as with
  | nil => exact covers_nil
  | cons a as ih =>
    rw [List.mapM_cons, List.flatMap_cons]
    exact (h a (by simp)).bind (.left (ih fun b hb => h b (by simp [hb])))

theorem Covers.mapM_option {sites : α → List Site} {a : Option α}
    (h : ∀ b, a = some b → Covers stage (sites b) (f b)) :
    Covers stage (a.toList.flatMap sites) (a.mapM f) := by
  cases a with
  | none => exact covers_nil
  | some b => exact (h b rfl).left.append covers_nil

end Covers

variable {stage : Stage}

theorem covers_expr (e : Expr) : Covers stage [.root e] (expr stage e) :=
  covers_singleton (List.Subset.refl _)

theorem covers_optionExpr (e : Option Expr) :
    Covers stage (e.toList.map .root) (e.mapM (expr stage)) := by
  rw [List.map_eq_flatMap]
  exact .mapM_option fun e _ => covers_expr e

theorem covers_suffix (a : Option (ArraySuffix Expr)) :
    Covers stage (suffixSites a) (a.mapM (arraySuffix stage)) := by
  rcases a with _ | ⟨e, span⟩
  · exact covers_nil
  · exact (covers_optionExpr e).left.left

theorem covers_memberNames (names : List MemberName) :
    Covers stage (names.flatMap MemberName.sites) (memberNames stage names) :=
  .mapM fun m _ => (covers_suffix m.array).left

theorem covers_memberLines_of {ms : List (Member TypeSpec)}
    (h : ∀ m ∈ ms, Covers stage m.spec.sites (typeSpec stage m.spec)) :
    Covers stage (memberSites ms) (memberLines stage ms) := by
  induction ms with
  | nil => exact covers_nil
  | cons m ms ih =>
    unfold memberLines
    rw [memberSites, List.append_assoc]
    refine (h m (by simp)).bind ((covers_memberNames _).bind (.right (.left ?_)))
    exact ih fun a ha => h a (by simp [ha])

theorem covers_typeSpec (spec : TypeSpec) : Covers stage spec.sites (typeSpec stage spec) := by
  induction spec using TypeSpec.induction with
  | basic b note | named x note =>
    unfold typeSpec
    exact (covers_suffix _).left
  | struct tag members span note ih =>
    unfold typeSpec
    exact .append (.right (.left (covers_memberLines_of ih))) (.left (covers_suffix _))

theorem covers_declarator (q : Qualifiers) (d : Declarator) :
    Covers stage (d.sites q) (declarator stage q.storage d) := by
  refine .append ?_ (covers_singleton (List.Subset.refl _))
  unfold declarator
  exact .left (covers_suffix _)

theorem covers_blockMembers (ms : List (Member TypeSpec)) :
    Covers stage (memberSites ms) (ms.mapM (blockMember stage)) := by
  induction ms with
  | nil => exact covers_nil
  | cons m ms ih =>
    rw [List.mapM_cons]
    refine .bind ?_ (.left ih)
    exact (covers_typeSpec _).bind (.left (covers_memberNames _))

theorem covers_interfaceBlock (place : Place) (b : InterfaceBlock) (span : Span) :
    Covers place.stage b.sites (interfaceBlock place b span) := by
  have hinstance : ∀ d, b.instance? = some d →
      Covers place.stage (suffixSites d.array ++ [.blockInstance d])
        (do return { d with array := ← d.array.mapM (arraySuffix place.stage) }) := fun d _ =>
    (covers_suffix _).left.append (covers_singleton (List.nil_subset _))
  unfold interfaceBlock
  split
  · exact .right ((covers_blockMembers _).bind (.left (.mapM_option hinstance)))
  · exact .right ((covers_blockMembers _).bind (.left (.mapM_option hinstance)))

theorem covers_declaration (place : Place) (d : Declaration) :
    Covers place.stage d.sites (declaration place d) := by
  cases d with
  | vars q spec ds span =>
    unfold declaration
    refine (covers_typeSpec spec).bind (.right (.right (.left ?_)))
    exact .mapM fun d _ => covers_declarator q d
  | block b span => exact (covers_interfaceBlock place b span).left
  | precision p spec span => exact (covers_typeSpec spec).left
  | invariant targets span => exact covers_nil

theorem covers_condition (e : Expr) : Covers stage [.root e] (condition stage e) :=
  (covers_expr e).left

theorem covers_optionCondition (e : Option Expr) :
    Covers stage (e.toList.map .root) (e.mapM (condition stage)) := by
  rw [List.map_eq_flatMap]
  exact .mapM_option fun e _ => covers_condition e

theorem covers_statements_of {ctx : Context} {ss : List Stmt}
    (h : ∀ s ∈ ss, Covers ctx.stage s.sites (stmt ctx s)) :
    Covers ctx.stage (Stmt.allSites ss) (statements ctx ss) := by
  induction ss with
  | nil => exact covers_nil
  | cons s ss ih =>
    unfold statements
    exact (h s (by simp)).bind (.left (ih fun a ha => h a (by simp [ha])))

theorem covers_stmt (ctx : Context) (s : Stmt) : Covers ctx.stage s.sites (stmt ctx s) := by
  induction s using Stmt.induction generalizing ctx with
  | expr e span | caseLabel e span =>
    unfold stmt
    exact (covers_expr e).left
  | giveBack value span =>
    unfold stmt
    cases value with
    | none => exact covers_nil
    | some e => exact (covers_optionExpr (some e)).left
  | empty | defaultLabel | continueLoop | breakLoop | discard => exact covers_nil
  | block stmts inner span ih =>
    unfold stmt
    exact (covers_statements_of fun s hs => ih s hs ctx).left
  | decl d span =>
    unfold stmt
    exact (covers_declaration ⟨ctx.stage, true⟩ d).left
  | branch c t e span iht ihe =>
    cases e with
    | none =>
      unfold stmt
      exact (covers_condition c).bind (.left (iht ctx))
    | some e =>
      unfold stmt
      exact (covers_condition c).bind ((iht ctx).bind (.left (ihe e rfl ctx)))
  | switch e stmts inner span ih =>
    unfold stmt
    refine (covers_expr e).bind (.right (.left ?_))
    exact covers_statements_of fun s hs => ih s hs ⟨ctx.stage, ctx.result, some _⟩
  | whileLoop c body span ih =>
    unfold stmt
    exact (covers_condition c).bind (.left (ih ctx))
  | doLoop body c span ih =>
    unfold stmt
    rw [Stmt.sites, ← List.singleton_append]
    exact .append (.right (.left (covers_condition c))) (.left (ih ctx))
  | forLoop init c u body span ihinit ihbody =>
    cases init with
    | none =>
      unfold stmt
      rw [Stmt.sites, List.append_assoc]
      exact (covers_optionCondition c).bind ((covers_optionExpr u).bind (.left (ihbody ctx)))
    | some s =>
      unfold stmt
      rw [Stmt.sites, List.append_assoc, List.append_assoc]
      refine (ihinit s rfl ctx).bind ((covers_optionCondition c).bind ?_)
      exact (covers_optionExpr u).bind (.left (ihbody ctx))

theorem covers_parameter (p : ParamDecl) : Covers stage p.sites (parameter stage p) := by
  refine .append ?_ (covers_singleton (List.nil_subset _))
  exact (covers_typeSpec _).bind (.left (covers_suffix _))

theorem covers_function (f : FunctionDecl) : Covers stage f.sites (function stage f) := by
  unfold function
  rw [FunctionDecl.sites, List.append_assoc]
  refine (covers_typeSpec _).bind (.right (.bind (.mapM fun p _ => covers_parameter p) ?_))
  refine .right (.left (.mapM_option fun b _ => .left ?_))
  exact covers_statements_of fun s _ => covers_stmt ⟨stage, _, none⟩ s

theorem covers_topLevel (d : TopLevel) : Covers stage d.sites (topLevel stage d) := by
  cases d with
  | declaration d => exact (covers_declaration ⟨stage, false⟩ d).left
  | function f => exact (covers_function f).left

end Check

/-- What is found at a place is reported for the unit. -/
theorem problems_subset_check (stage : Stage) {unit : TranslationUnit} {s : Site}
    (hs : s ∈ TranslationUnit.sites unit) : s.problems stage ⊆ (check stage unit).problems :=
  Check.Covers.mapM (fun d _ => Check.covers_topLevel d) s hs

end Shader
