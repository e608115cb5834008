import Shader.Proofs.Check.Expr

/-! What checking records in an expression. The types come from the bindings and targets alone:
neither the stage nor the types of an earlier check have a part in them. -/

namespace Shader

/-- The expression with the types that checking records. -/
def Expr.checked (stage : Stage) (e : Expr) : Expr :=
  (Check.expr stage e).value

def Target.resultTy (target : Target) (args : List Expr) : Option Ty :=
  match target with
  | .unresolved => none
  | .function f =>
    (args.mapM Expr.ty).bind fun types => (f.overload? (types.map some)).bind Overload.result
  | .constructor ty => some ty

theorem Check.value_targetTy (stage : Stage) (target : Target) (args : List Expr) (span : Span) :
    (targetTy stage target args span).value = target.resultTy args := by
  cases target with
  | unresolved => rfl
  | function f => exact value_callTy stage f args span
  | constructor ty => exact value_constructTy ty args span

namespace Expr

variable (stage : Stage)

section Equations

open Check

theorem checked_int (text : String) (n : Note) :
    (int text n).checked stage =
      int text { n with ty := (Literal.int text).toOption.map fun s => .scalar s.kind } := by
  unfold checked Check.expr
  cases Literal.int text <;> rfl

theorem checked_float (text : String) (n : Note) :
    (float text n).checked stage = float text { n with ty := some .float } := by
  simp only [checked, Check.expr, Checked.value_pure]

theorem checked_bool (b : Bool) (n : Note) :
    (bool b n).checked stage = bool b { n with ty := some .bool } := by
  simp only [checked, Check.expr, Checked.value_pure]

theorem checked_var (x : String) (binding : Option Variable) (n : Note) :
    (var x binding n).checked stage =
      var x binding { n with ty := binding.bind Variable.ty } := by
  simp only [checked, Check.expr, Checked.value_pure]

theorem checked_unary (op : UnaryOp) (e : Expr) (n : Note) :
    (unary op e n).checked stage =
      unary op (e.checked stage)
        { n with ty := (e.checked stage).ty.bind fun t => (unaryTy op t n.span).value } := by
  simp only [checked, expr_unary, Checked.value_bind, Checked.value_pure, value_ofTy]

theorem checked_update (op : UpdateOp) (before : Bool) (e : Expr) (n : Note) :
    (update op before e n).checked stage =
      update op before (e.checked stage)
        { n with ty := (e.checked stage).ty.bind fun t => (updateTy op t n.span).value } := by
  simp only [checked, expr_update, Checked.value_bind, Checked.value_pure, value_ofTy]

theorem checked_binary (op : BinaryOp) (l r : Expr) (n : Note) :
    (binary op l r n).checked stage =
      binary op (l.checked stage) (r.checked stage)
        { n with
          ty := (l.checked stage).ty.bind fun a =>
            (r.checked stage).ty.bind fun b => (binaryTy op a b n.span).value } := by
  simp only [checked, expr_binary, Checked.value_bind, Checked.value_pure, value_ofTy]

theorem checked_assign (op : AssignOp) (t v : Expr) (n : Note) :
    (assign op t v n).checked stage =
      assign op (t.checked stage) (v.checked stage)
        { n with
          ty := (t.checked stage).ty.bind fun a =>
            (v.checked stage).ty.bind fun b => (assignTy op a b n.span).value } := by
  simp only [checked, expr_assign, Checked.value_bind, Checked.value_pure, value_ofTy]

theorem checked_ternary (c t e : Expr) (n : Note) :
    (ternary c t e n).checked stage =
      ternary (c.checked stage) (t.checked stage) (e.checked stage)
        { n with
          ty := (t.checked stage).ty.bind fun a =>
            (e.checked stage).ty.bind fun b => (branchTy a b n.span).value } := by
  simp only [checked, expr_ternary, Checked.value_bind, Checked.value_pure, value_ofTy]

theorem checked_comma (l r : Expr) (n : Note) :
    (comma l r n).checked stage =
      comma (l.checked stage) (r.checked stage) { n with ty := (r.checked stage).ty } := by
  simp only [checked, Check.expr, Checked.value_bind, Checked.value_pure]

theorem checked_call (callee : Callee) (suffix : Option (ArraySuffix Expr)) (args : List Expr)
    (target : Target) (n : Note) :
    (call callee suffix args target n).checked stage =
      call callee suffix (args.map (checked stage)) target
        { n with ty := target.resultTy (args.map (checked stage)) } := by
  simp only [checked, expr_call, Checked.value_bind, Checked.value_pure, value_targetTy,
    exprs_value]
  rfl

theorem checked_field (e : Expr) (x : String) (n : Note) :
    (field e x n).checked stage =
      field (e.checked stage) x
        { n with ty := (e.checked stage).ty.bind fun t => (fieldTy t x n.span).value } := by
  simp only [checked, expr_field, Checked.value_bind, Checked.value_pure, value_ofTy]

theorem checked_index (a i : Expr) (n : Note) :
    (index a i n).checked stage =
      index (a.checked stage) (i.checked stage)
        { n with ty := (a.checked stage).ty.bind fun t => (elementOf? t).map Prod.fst } := by
  simp only [checked, Check.expr, Checked.value_bind, Checked.value_pure, value_indexTy]

theorem checked_length (e : Expr) (n : Note) :
    (length e n).checked stage =
      length (e.checked stage)
        { n with ty := (e.checked stage).ty.bind fun t => (lengthTy t n.span).value } := by
  simp only [checked, expr_length, Checked.value_bind, Checked.value_pure, value_ofTy]

end Equations

/-- The types that are recorded are the same in every stage. -/
theorem checked_eq_checked (s t : Stage) (e : Expr) : e.checked s = e.checked t := by
  induction e using Expr.induction with
  | int | float | bool | var => simp only [checked_int, checked_float, checked_bool, checked_var]
  | unary op e n ih => rw [checked_unary, checked_unary, ih]
  | update op before e n ih => rw [checked_update, checked_update, ih]
  | binary op l r n ihl ihr => rw [checked_binary, checked_binary, ihl, ihr]
  | assign op l r n ihl ihr => rw [checked_assign, checked_assign, ihl, ihr]
  | ternary c t e n ihc iht ihe => rw [checked_ternary, checked_ternary, ihc, iht, ihe]
  | comma l r n ihl ihr => rw [checked_comma, checked_comma, ihl, ihr]
  | call callee suffix args target n _ ih =>
    rw [checked_call, checked_call, List.map_congr_left ih]
  | field e x n ih => rw [checked_field, checked_field, ih]
  | index a i n iha ihi => rw [checked_index, checked_index, iha, ihi]
  | length e n ih => rw [checked_length, checked_length, ih]

end Expr

namespace Check

theorem exprs_map_of {s : Stage} {f : Expr → Expr} {es : List Expr}
    (h : ∀ e ∈ es, expr s (f e) = expr s e) : exprs s (es.map f) = exprs s es := by
  induction es with
  | nil => rfl
  | cons e es ih =>
    simp only [List.map_cons, exprs, h e (by simp), ih fun d hd => h d (by simp [hd])]

/-- Checking overwrites every type before it reads it, so a second check is like the first. -/
theorem expr_checked (s t : Stage) (e : Expr) : expr s (e.checked t) = expr s e := by
  induction e using Expr.induction with
  | int | float | bool | var =>
    simp only [Expr.checked_int, Expr.checked_float, Expr.checked_bool, Expr.checked_var, expr]
  | unary op e n ih => rw [Expr.checked_unary, expr_unary, expr_unary, ih]
  | update op before e n ih => rw [Expr.checked_update, expr_update, expr_update, ih]
  | binary op l r n ihl ihr => rw [Expr.checked_binary, expr_binary, expr_binary, ihl, ihr]
  | assign op l r n ihl ihr => rw [Expr.checked_assign, expr_assign, expr_assign, ihl, ihr]
  | ternary c t e n ihc iht ihe =>
    rw [Expr.checked_ternary, expr_ternary, expr_ternary, ihc, iht, ihe]
  | comma l r n ihl ihr =>
    rw [Expr.checked_comma]
    simp only [expr, ihl, ihr]
  | call callee suffix args target n _ ih =>
    rw [Expr.checked_call, expr_call, expr_call, exprs_map_of ih]
  | field e x n ih => rw [Expr.checked_field, expr_field, expr_field, ih]
  | index a i n iha ihi =>
    rw [Expr.checked_index]
    simp only [expr, iha, ihi]
  | length e n ih => rw [Expr.checked_length, expr_length, expr_length, ih]

end Check

end Shader
