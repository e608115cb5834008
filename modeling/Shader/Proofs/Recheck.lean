import Shader.Proofs.Check
import Shader.Proofs.Check.Recorded
import Shader.Proofs.Site

/-! Checking one tree again and again. The tree that a check leaves is a map over the outermost
expressions, and a later check, for whatever stage, finds in it what it would have found in the
tree as it was bound. -/

namespace Shader

namespace Check

theorem value_suffix (stage : Stage) (a : Option (ArraySuffix Expr)) :
    (a.mapM (arraySuffix stage)).value = a.map (.map (Expr.checked stage)) := by
  rcases a with _ | ⟨_ | e, span⟩ <;> rfl

theorem value_optionExpr (stage : Stage) (e : Option Expr) :
    (e.mapM (expr stage)).value = e.map (Expr.checked stage) :=
  Checked.value_mapM_option _ _

theorem value_memberNames (stage : Stage) (names : List MemberName) :
    (memberNames stage names).value = names.map (.mapExprs (Expr.checked stage)) := by
  simp only [memberNames, Checked.value_mapM, Checked.value_bind, Checked.value_pure, value_suffix]
  rfl

theorem value_memberLines_of {stage : Stage} {ms : List (Member TypeSpec)}
    (h : ∀ m ∈ ms, (typeSpec stage m.spec).value = m.spec.mapExprs (Expr.checked stage)) :
    (memberLines stage ms).value = mapMembers (Expr.checked stage) ms := by
  induction ms with
  | nil =>
    unfold memberLines
    rfl
  | cons m ms ih =>
    unfold memberLines
    simp only [Checked.value_bind, Checked.value_pure, h m (by simp), value_memberNames,
      ih fun a ha => h a (by simp [ha]), mapMembers]

theorem value_typeSpec (stage : Stage) (spec : TypeSpec) :
    (typeSpec stage spec).value = spec.mapExprs (Expr.checked stage) := by
  induction spec using TypeSpec.induction with
  | basic b note | named x note =>
    simp only [typeSpec, Checked.value_bind, Checked.value_pure, value_suffix]
    rfl
  | struct tag members span note ih =>
    simp only [typeSpec, Checked.value_bind, Checked.value_pure, value_suffix,
      value_memberLines_of ih]
    rfl

theorem value_declarator (stage : Stage) (storage : Option Storage) (d : Declarator) :
    (declarator stage storage d).value = d.mapExprs (Expr.checked stage) := by
  rw [declarator_value, value_suffix, value_optionExpr]
  rfl

theorem value_blockMembers (stage : Stage) (ms : List (Member TypeSpec)) :
    (ms.mapM (blockMember stage)).value = mapMembers (Expr.checked stage) ms := by
  rw [Checked.value_mapM]
  induction ms with
  | nil => rfl
  | cons m ms ih =>
    rw [List.map_cons, ih, blockMember_value, value_typeSpec, value_memberNames]
    rfl

theorem value_interfaceBlock (place : Place) (b : InterfaceBlock) (span : Span) :
    (interfaceBlock place b span).value = b.mapExprs (Expr.checked place.stage) := by
  simp only [interfaceBlock_value, value_blockMembers, value_suffix]
  rfl

theorem value_declaration (place : Place) (d : Declaration) :
    (declaration place d).value = d.mapExprs (Expr.checked place.stage) := by
  cases d with
  | vars q spec ds span =>
    simp only [declaration, Checked.value_bind, Checked.value_pure, Checked.value_mapM,
      value_typeSpec, value_declarator]
    rfl
  | block b span =>
    simp only [declaration, Checked.value_bind, Checked.value_pure, value_interfaceBlock]
    rfl
  | precision p spec span =>
    simp only [declaration, Checked.value_bind, Checked.value_pure, value_typeSpec]
    rfl
  | invariant targets span => rfl

theorem value_statements_of {ctx : Context} {ss : List Stmt}
    (h : ∀ s ∈ ss, (stmt ctx s).value = s.mapExprs (Expr.checked ctx.stage)) :
    (statements ctx ss).value = mapStmts (Expr.checked ctx.stage) ss := by
  induction ss with
  | nil =>
    unfold statements
    rfl
  | cons s ss ih =>
    unfold statements
    simp only [Checked.value_bind, Checked.value_pure, h s (by simp),
      ih fun a ha => h a (by simp [ha]), mapStmts]

theorem value_condition (stage : Stage) (e : Expr) :
    (condition stage e).value = e.checked stage := rfl

theorem value_optionCondition (stage : Stage) (e : Option Expr) :
    (e.mapM (condition stage)).value = e.map (Expr.checked stage) :=
  Checked.value_mapM_option _ _

theorem value_expr (stage : Stage) (e : Expr) : (expr stage e).value = e.checked stage := rfl

theorem value_stmt (ctx : Context) (s : Stmt) :
    (stmt ctx s).value = s.mapExprs (Expr.checked ctx.stage) := by
  induction s using Stmt.induction generalizing ctx with
  | expr e span | caseLabel e span | whileLoop c body span ih | doLoop body c span ih
  | decl d span =>
    simp only [stmt, Checked.value_bind, Checked.value_pure, value_expr, value_condition,
      value_declaration, Stmt.mapExprs, *]
  | giveBack value span =>
    simp only [stmt, Checked.value_bind, Checked.value_pure, value_optionExpr, Stmt.mapExprs]
  | empty | defaultLabel | continueLoop | breakLoop | discard =>
    unfold stmt
    rfl
  | block stmts inner span ih =>
    simp only [stmt, Checked.value_bind, Checked.value_pure,
      value_statements_of fun s hs => ih s hs ctx, Stmt.mapExprs]
  | branch c t e span iht ihe =>
    cases e with
    | none =>
      simp only [stmt, Checked.value_bind, Checked.value_pure, value_condition, iht, Stmt.mapExprs]
    | some e =>
      simp only [stmt, Checked.value_bind, Checked.value_pure, value_condition, iht, ihe e rfl,
        Stmt.mapExprs]
  | switch e stmts inner span ih =>
    simp only [stmt, Checked.value_bind, Checked.value_pure, value_expr, Stmt.mapExprs]
    rw [value_statements_of fun s hs => ih s hs _]
  | forLoop init c u body span ihinit ihbody =>
    cases init with
    | none =>
      simp only [stmt, Checked.value_bind, Checked.value_pure, value_optionCondition,
        value_optionExpr, ihbody, Stmt.mapExprs]
    | some s =>
      simp only [stmt, Checked.value_bind, Checked.value_pure, value_optionCondition,
        value_optionExpr, ihinit s rfl, ihbody, Stmt.mapExprs]

theorem value_parameter (stage : Stage) (p : ParamDecl) :
    (parameter stage p).value = p.mapExprs (Expr.checked stage) := by
  rw [parameter_value, value_typeSpec, value_suffix]
  rfl

theorem value_function (stage : Stage) (f : FunctionDecl) :
    (function stage f).value = f.mapExprs (Expr.checked stage) := by
  have hstmts : ∀ ctx ss, (statements ctx ss).value = mapStmts (Expr.checked ctx.stage) ss :=
    fun ctx ss => value_statements_of fun s _ => value_stmt ctx s
  simp only [function_value, value_typeSpec, value_parameter, hstmts]
  rfl

end Check

theorem check_value (stage : Stage) (unit : TranslationUnit) :
    (check stage unit).value = TranslationUnit.mapExprs (Expr.checked stage) unit := by
  rw [check, Checked.value_mapM]
  refine List.map_congr_left fun d _ => ?_
  cases d with
  | declaration d => exact congrArg TopLevel.declaration (Check.value_declaration _ d)
  | function f => exact congrArg TopLevel.function (Check.value_function stage f)

namespace Checked

variable {α β : Type}

theorem mapM_map_of {F : α → Checked β} {g : α → α} (h : ∀ a, F (g a) = F a) (as : List α) :
    (as.map g).mapM F = as.mapM F := by
  induction as with
  | nil => rfl
  | cons a as ih => rw [List.map_cons, List.mapM_cons, List.mapM_cons, h, ih]

theorem mapM_map_option_of {F : α → Checked β} {g : α → α} (h : ∀ a, F (g a) = F a)
    (a : Option α) : (a.map g).mapM F = a.mapM F := by
  cases a with
  | none => rfl
  | some a => simp only [Option.map_some, Option.mapM_some, h]

end Checked

namespace Check

section Again

-- `f` stands for what an earlier check did to the expressions.
variable {stage : Stage} {f : Expr → Expr} (hf : ∀ e, expr stage (f e) = expr stage e)

include hf

theorem arraySuffix_map (a : ArraySuffix Expr) :
    arraySuffix stage (a.map f) = arraySuffix stage a := by
  simp only [arraySuffix, ArraySuffix.map, Checked.mapM_map_option_of hf]

theorem suffix_map (a : Option (ArraySuffix Expr)) :
    (a.map (.map f)).mapM (arraySuffix stage) = a.mapM (arraySuffix stage) :=
  Checked.mapM_map_option_of (arraySuffix_map hf) a

theorem memberNames_map (names : List MemberName) :
    memberNames stage (names.map (.mapExprs f)) = memberNames stage names := by
  refine Checked.mapM_map_of (fun m => ?_) names
  simp only [MemberName.mapExprs, suffix_map hf]

theorem memberLines_map_of {ms : List (Member TypeSpec)}
    (h : ∀ m ∈ ms, typeSpec stage (m.spec.mapExprs f) = typeSpec stage m.spec) :
    memberLines stage (mapMembers f ms) = memberLines stage ms := by
  induction ms with
  | nil => rfl
  | cons m ms ih =>
    simp only [mapMembers, memberLines, h m (by simp), memberNames_map hf,
      ih fun a ha => h a (by simp [ha])]

theorem typeSpec_map (spec : TypeSpec) : typeSpec stage (spec.mapExprs f) = typeSpec stage spec := by
  induction spec using TypeSpec.induction with
  | basic b note | named x note =>
    simp only [TypeSpec.mapExprs, typeSpec, SpecNote.mapExprs, suffix_map hf]
  | struct tag members span note ih =>
    simp only [TypeSpec.mapExprs, typeSpec, SpecNote.mapExprs, suffix_map hf,
      memberLines_map_of hf ih]

theorem declarator_map (storage : Option Storage) (d : Declarator) :
    declarator stage storage (d.mapExprs f) = declarator stage storage d := by
  simp only [declarator, Declarator.mapExprs, suffix_map hf, Checked.mapM_map_option_of hf]

theorem blockMembers_map (ms : List (Member TypeSpec)) :
    (mapMembers f ms).mapM (blockMember stage) = ms.mapM (blockMember stage) := by
  induction ms with
  | nil => rfl
  | cons m ms ih =>
    simp only [mapMembers, List.mapM_cons, blockMember, typeSpec_map hf, memberNames_map hf, ih]

theorem interfaceBlock_map (nested : Bool) (b : InterfaceBlock) (span : Span) :
    interfaceBlock ⟨stage, nested⟩ (b.mapExprs f) span = interfaceBlock ⟨stage, nested⟩ b span := by
  have hinstance : ∀ d : Option Declarator,
      ((d.map (Declarator.mapSize f)).mapM fun d => do
        let array ← d.array.mapM (arraySuffix stage)
        return { d with array }) =
      (d.mapM fun d => do
        let array ← d.array.mapM (arraySuffix stage)
        return { d with array }) := by
    refine Checked.mapM_map_option_of fun d => ?_
    simp only [Declarator.mapSize, suffix_map hf]
  simp only [interfaceBlock, InterfaceBlock.mapExprs, blockMembers_map hf, hinstance]

theorem declaration_map (nested : Bool) (d : Declaration) :
    declaration ⟨stage, nested⟩ (d.mapExprs f) = declaration ⟨stage, nested⟩ d := by
  cases d with
  | vars q spec ds span =>
    simp only [Declaration.mapExprs, declaration, typeSpec_map hf, List.isEmpty_map,
      Checked.mapM_map_of (declarator_map hf q.storage)]
  | block b span => simp only [Declaration.mapExprs, declaration, interfaceBlock_map hf]
  | precision p spec span => simp only [Declaration.mapExprs, declaration, typeSpec_map hf]
  | invariant targets span => rfl

theorem condition_map (e : Expr) : condition stage (f e) = condition stage e := by
  simp only [condition, hf]

omit hf in
theorem statements_map_of {ctx : Context} {ss : List Stmt}
    (h : ∀ s ∈ ss, stmt ctx (s.mapExprs f) = stmt ctx s) :
    statements ctx (mapStmts f ss) = statements ctx ss := by
  induction ss with
  | nil => rfl
  | cons s ss ih =>
    simp only [mapStmts, statements, h s (by simp), ih fun a ha => h a (by simp [ha])]

theorem stmt_map (result : Option Ty) (selector : Option (Option Ty)) (s : Stmt) :
    stmt ⟨stage, result, selector⟩ (s.mapExprs f) = stmt ⟨stage, result, selector⟩ s := by
  induction s using Stmt.induction generalizing selector with
  | expr e span | caseLabel e span | whileLoop c body span ih | doLoop body c span ih
  | decl d span =>
    simp only [Stmt.mapExprs, stmt, condition_map hf, declaration_map hf, *]
  | giveBack value span => simp only [Stmt.mapExprs, stmt, Checked.mapM_map_option_of hf]
  | empty | defaultLabel | continueLoop | breakLoop | discard => simp only [Stmt.mapExprs]
  | block stmts inner span ih =>
    simp only [Stmt.mapExprs, stmt, statements_map_of fun s hs => ih s hs selector]
  | branch c t e span iht ihe =>
    cases e with
    | none => simp only [Stmt.mapExprs, stmt, condition_map hf, iht]
    | some e => simp only [Stmt.mapExprs, stmt, condition_map hf, iht, ihe e rfl]
  | switch e stmts inner span ih =>
    have hbody : ∀ selector, statements ⟨stage, result, selector⟩ (mapStmts f stmts) =
        statements ⟨stage, result, selector⟩ stmts :=
      fun selector => statements_map_of fun s hs => ih s hs selector
    simp only [Stmt.mapExprs, stmt, hf, hbody]
  | forLoop init c u body span ihinit ihbody =>
    cases init with
    | none =>
      simp only [Stmt.mapExprs, stmt, Checked.mapM_map_option_of hf,
        Checked.mapM_map_option_of (condition_map hf), ihbody]
    | some s =>
      simp only [Stmt.mapExprs, stmt, Checked.mapM_map_option_of hf,
        Checked.mapM_map_option_of (condition_map hf), ihinit s rfl, ihbody]

theorem parameter_map (p : ParamDecl) : parameter stage (p.mapExprs f) = parameter stage p := by
  simp only [parameter, ParamDecl.mapExprs, typeSpec_map hf, suffix_map hf]
  rfl

theorem function_map (g : FunctionDecl) : function stage (g.mapExprs f) = function stage g := by
  have hbody : ∀ result, ∀ b : Option (Block Stmt),
      ((b.map fun b => { b with stmts := mapStmts f b.stmts }).mapM fun b => do
        let stmts ← statements ⟨stage, result, none⟩ b.stmts
        return { b with stmts }) =
      (b.mapM fun b => do
        let stmts ← statements ⟨stage, result, none⟩ b.stmts
        return { b with stmts }) := by
    intro result
    refine Checked.mapM_map_option_of fun b => ?_
    simp only [statements_map_of fun s _ => stmt_map hf result none s]
  simp only [function, FunctionDecl.mapExprs, typeSpec_map hf,
    Checked.mapM_map_of (parameter_map hf), hbody]
  rfl

theorem topLevel_map (d : TopLevel) : topLevel stage (d.mapExprs f) = topLevel stage d := by
  cases d with
  | declaration d => simp only [TopLevel.mapExprs, topLevel, declaration_map hf]
  | function g => simp only [TopLevel.mapExprs, topLevel, function_map hf]

end Again

end Check

/-- What a check finds and records does not depend on a check before it. -/
theorem check_check (s t : Stage) (unit : TranslationUnit) :
    check s (check t unit).value = check s unit := by
  rw [check_value]
  exact Checked.mapM_map_of (Check.topLevel_map fun e => Check.expr_checked s t e) unit

/-- What a check records does not depend on the stage. -/
theorem check_value_eq (s t : Stage) (unit : TranslationUnit) :
    (check s unit).value = (check t unit).value := by
  rw [check_value, check_value, funext (Expr.checked_eq_checked s t)]

/-- Checks the tree for one stage after the other, each time the tree that the last check left. -/
def recheck (unit : TranslationUnit) : List Stage → List (Checked TranslationUnit)
  | [] => []
  | stage :: stages => check stage unit :: recheck (check stage unit).value stages

theorem recheck_check (t : Stage) (unit : TranslationUnit) (stages : List Stage) :
    recheck (check t unit).value stages = recheck unit stages := by
  cases stages with
  | nil => rfl
  | cons s stages => rw [recheck, recheck, check_check]

/-- Each check of a bound tree gives what it gives for a fresh one, problems and tree; the tree is
the same for all stages, and a check of a checked tree changes nothing. -/
theorem recheck_eq_map (unit : TranslationUnit) (stages : List Stage) :
    recheck (bind unit).unit stages = stages.map (fun s => check s (bind unit).unit) ∧
      (∀ s t, (check s (bind unit).unit).value = (check t (bind unit).unit).value) ∧
      ∀ s, check s (check s (bind unit).unit).value = check s (bind unit).unit := by
  refine ⟨?_, fun s t => check_value_eq s t _, fun s => check_check s s _⟩
  induction stages with
  | nil => rfl
  | cons s stages ih => rw [recheck, recheck_check, ih, List.map_cons]

end Shader
