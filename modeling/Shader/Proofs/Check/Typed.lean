import Shader.Proofs.Bind.Known
import Shader.Proofs.Check.Recorded
import Shader.Proofs.Progress

/-! Expressions without a problem. Where all names are known, checking finds a type for every
expression that it visits or reports why there is none. -/

namespace Shader

namespace Expr

/-- Every expression that checking visits here has a type. -/
def Typed (e : Expr) : Prop :=
  ∀ d ∈ e.visited, d.ty.isSome = true

theorem self_mem_visited (e : Expr) : e ∈ e.visited := by
  cases e <;> simp [visited]

theorem Typed.isSome_ty {e : Expr} (h : e.Typed) : e.ty.isSome = true :=
  h e e.self_mem_visited

theorem typed_node {e : Expr} {ds : List Expr} (hvisited : e.visited = e :: ds)
    (hty : e.ty.isSome = true) (hds : ∀ d ∈ ds, d.ty.isSome = true) : e.Typed := by
  rw [Typed, hvisited]
  exact List.forall_mem_cons.mpr ⟨hty, hds⟩

end Expr

namespace Check

/-- Where no problem is reported there is a type. -/
def Decides (x : Checked (Option Ty)) : Prop :=
  x.problems = [] → x.value.isSome = true

variable {span : Span}

theorem decides_untyped (p : ExprProblem) : Decides (untyped p span) := by
  intro h
  cases h

theorem decides_ofTy {t : Option Ty} {rule : Ty → Checked (Option Ty)} (ht : t.isSome = true)
    (h : ∀ a, Decides (rule a)) : Decides (ofTy t rule) := by
  obtain ⟨a, rfl⟩ := Option.isSome_iff_exists.mp ht
  exact h a

theorem decides_unaryTy (op : UnaryOp) (t : Ty) : Decides (unaryTy op t span) :=
  fun h => Option.isSome_iff_ne_none.mpr (unaryTy_of_ok h)

theorem decides_updateTy (op : UpdateOp) (t : Ty) : Decides (updateTy op t span) := by
  unfold updateTy
  split
  · exact fun _ => rfl
  · exact decides_untyped _

theorem decides_binaryTy (op : BinaryOp) (l r : Ty) : Decides (binaryTy op l r span) :=
  fun h => Option.isSome_iff_ne_none.mpr (binaryTy_of_ok h)

theorem decides_assignTy (op : AssignOp) (target value : Ty) :
    Decides (assignTy op target value span) := by
  intro h
  unfold assignTy at h ⊢
  split
  · rfl
  · rename_i b hb
    simp only [hb, Checked.problems_bind, List.append_eq_nil_iff] at h
    obtain ⟨t, ht⟩ := Option.isSome_iff_exists.mp (decides_binaryTy b target value h.1)
    simp only [Checked.value_bind, ht]
    rfl

theorem decides_branchTy (t e : Ty) : Decides (branchTy t e span) :=
  fun h => (branchTy_of_ok h).2 ▸ rfl

theorem decides_fieldTy (t : Ty) (x : String) : Decides (fieldTy t x span) :=
  fun h => Option.isSome_iff_ne_none.mpr (fieldTy_of_ok h)

theorem decides_lengthTy (t : Ty) : Decides (lengthTy t span) :=
  fun h => (lengthTy_of_ok h).2 ▸ rfl

theorem decides_indexTy (stage : Stage) {a i : Expr} (ha : a.ty.isSome = true) :
    Decides (indexTy stage a i span) := by
  obtain ⟨t, ht⟩ := Option.isSome_iff_exists.mp ha
  intro h
  rw [value_indexTy, ht, Option.bind_some, Option.isSome_map]
  cases helement : elementOf? t with
  | some r => rfl
  | none =>
    simp only [indexTy, ht, helement] at h
    split at h <;> simp [untyped] at h

theorem exists_types {args : List Expr} (h : ∀ a ∈ args, a.ty.isSome = true) :
    ∃ types, args.mapM Expr.ty = some types ∧ types.length = args.length := by
  induction args with
  | nil => exact ⟨[], rfl, rfl⟩
  | cons a args ih =>
    obtain ⟨t, ht⟩ := Option.isSome_iff_exists.mp (h a (by simp))
    obtain ⟨types, htypes, hlength⟩ := ih fun b hb => h b (by simp [hb])
    exact ⟨t :: types, by simp [List.mapM_cons, ht, htypes], by simp [hlength]⟩

theorem decides_callTy (stage : Stage) {f : Function} (hf : f.Known) {args : List Expr}
    (hargs : ∀ a ∈ args, a.ty.isSome = true) : Decides (callTy stage f args span) := by
  obtain ⟨types, htypes, -⟩ := exists_types hargs
  intro h
  obtain ⟨o, ho⟩ := callTy_of_ok h htypes
  rw [value_callTy, htypes, Option.bind_some, ho]
  exact hf o (Function.overload?_eq_some ho).1

theorem decides_targetTy (stage : Stage) {target : Target} (htarget : target.Known)
    {args : List Expr} (hargs : ∀ a ∈ args, a.ty.isSome = true) :
    Decides (targetTy stage target args span) := by
  cases target with
  | unresolved => exact htarget.elim
  | function f => exact decides_callTy stage htarget hargs
  | constructor ty => exact fun _ => value_constructTy ty args span ▸ rfl

open Shader.Expr

theorem typed_expr (stage : Stage) {e : Expr} (hknown : Part.All Part.Known e.parts)
    (hok : (expr stage e).problems = []) : (e.checked stage).Typed := by
  -- Once its operands have types, a rule that reports nothing decides on a type.
  induction e using Expr.induction with
  | int text n =>
    rw [checked_int]
    refine typed_node rfl ?_ (by simp)
    cases hread : Literal.int text with
    | ok s => rfl
    | error e =>
      unfold expr at hok
      simp only [hread] at hok
      cases hok
  | float text n =>
    rw [checked_float]
    exact typed_node rfl rfl (by simp)
  | bool b n =>
    rw [checked_bool]
    exact typed_node rfl rfl (by simp)
  | var x binding n =>
    obtain ⟨v, rfl, hv⟩ := (Part.all_cons.mp hknown).1
    rw [checked_var]
    exact typed_node rfl hv (by simp)
  | unary op e n ih =>
    simp only [expr_unary, Checked.problems_bind, List.append_eq_nil_iff] at hok
    have he := ih (Part.all_cons.mp hknown).2 hok.1
    have hty := decides_ofTy he.isSome_ty (fun t => decides_unaryTy op t) hok.2.1
    rw [checked_unary]
    exact typed_node rfl (by rwa [value_ofTy] at hty) he
  | update op before e n ih =>
    simp only [expr_update, Checked.problems_bind, List.append_eq_nil_iff] at hok
    have he := ih (Part.all_cons.mp hknown).2 hok.1
    have hty := decides_ofTy he.isSome_ty (fun t => decides_updateTy op t) hok.2.2.1
    rw [checked_update]
    exact typed_node rfl (by rwa [value_ofTy] at hty) he
  | binary op l r n ihl ihr =>
    obtain ⟨hl, hr⟩ := Part.all_append.mp (Part.all_cons.mp hknown).2
    simp only [expr_binary, Checked.problems_bind, List.append_eq_nil_iff] at hok
    have hl := ihl hl hok.1
    have hr := ihr hr hok.2.1
    have hty := decides_ofTy hl.isSome_ty
      (fun a => decides_ofTy hr.isSome_ty fun b => decides_binaryTy op a b) hok.2.2.1
    rw [checked_binary]
    simp only [value_ofTy] at hty
    exact typed_node rfl hty (List.forall_mem_append.mpr ⟨hl, hr⟩)
  | assign op t v n iht ihv =>
    obtain ⟨ht, hv⟩ := Part.all_append.mp (Part.all_cons.mp hknown).2
    simp only [expr_assign, Checked.problems_bind, List.append_eq_nil_iff] at hok
    have ht := iht ht hok.1
    have hv := ihv hv hok.2.1
    have hty := decides_ofTy ht.isSome_ty
      (fun a => decides_ofTy hv.isSome_ty fun b => decides_assignTy op a b) hok.2.2.2.1
    rw [checked_assign]
    simp only [value_ofTy] at hty
    exact typed_node rfl hty (List.forall_mem_append.mpr ⟨ht, hv⟩)
  | ternary c t e n ihc iht ihe =>
    obtain ⟨hct, he⟩ := Part.all_append.mp (Part.all_cons.mp hknown).2
    obtain ⟨hc, ht⟩ := Part.all_append.mp hct
    simp only [expr_ternary, Checked.problems_bind, List.append_eq_nil_iff] at hok
    have hc := ihc hc hok.1
    have ht := iht ht hok.2.2.1
    have he := ihe he hok.2.2.2.1
    have hty := decides_ofTy ht.isSome_ty
      (fun a => decides_ofTy he.isSome_ty fun b => decides_branchTy a b) hok.2.2.2.2.1
    rw [checked_ternary]
    simp only [value_ofTy] at hty
    refine typed_node rfl hty (List.forall_mem_append.mpr ⟨?_, he⟩)
    exact List.forall_mem_append.mpr ⟨hc, ht⟩
  | comma l r n ihl ihr =>
    obtain ⟨hl, hr⟩ := Part.all_append.mp (Part.all_cons.mp hknown).2
    unfold expr at hok
    simp only [Checked.problems_bind, List.append_eq_nil_iff] at hok
    have hl := ihl hl hok.1
    have hr := ihr hr hok.2.1
    rw [checked_comma]
    exact typed_node rfl hr.isSome_ty (List.forall_mem_append.mpr ⟨hl, hr⟩)
  | call callee suffix args target n ihsuffix ihargs =>
    obtain ⟨htarget, hparts⟩ := Part.all_cons.mp hknown
    have hparts := Expr.all_allParts.mp (Part.all_append.mp hparts).2
    simp only [expr_call, Checked.problems_bind, List.append_eq_nil_iff, exprs_problems,
      List.flatMap_eq_nil_iff, exprs_value] at hok
    have hargs : ∀ a ∈ args.map (checked stage), a.Typed := by
      intro b hb
      obtain ⟨a, ha, rfl⟩ := List.mem_map.mp hb
      exact ihargs a ha (hparts a ha) (hok.1 a ha)
    have hty := decides_targetTy stage htarget (fun a ha => (hargs a ha).isSome_ty) hok.2.1
    rw [checked_call]
    refine typed_node rfl (by rwa [value_targetTy] at hty) fun d hd => ?_
    obtain ⟨a, ha, hd⟩ := mem_allVisited.mp hd
    exact hargs a ha d hd
  | field e x n ih =>
    simp only [expr_field, Checked.problems_bind, List.append_eq_nil_iff] at hok
    have he := ih (Part.all_cons.mp hknown).2 hok.1
    have hty := decides_ofTy he.isSome_ty (fun t => decides_fieldTy t x) hok.2.1
    rw [checked_field]
    exact typed_node rfl (by rwa [value_ofTy] at hty) he
  | index a i n iha ihi =>
    obtain ⟨ha, hi⟩ := Part.all_append.mp (Part.all_cons.mp hknown).2
    unfold expr at hok
    simp only [Checked.problems_bind, List.append_eq_nil_iff] at hok
    have ha := iha ha hok.1
    have hi := ihi hi hok.2.1
    have hty := decides_indexTy stage ha.isSome_ty hok.2.2.1
    rw [checked_index]
    refine typed_node rfl ?_ (List.forall_mem_append.mpr ⟨ha, hi⟩)
    rwa [value_indexTy] at hty
  | length e n ih =>
    simp only [expr_length, Checked.problems_bind, List.append_eq_nil_iff] at hok
    have he := ih (Part.all_cons.mp hknown).2 hok.1
    have hty := decides_ofTy he.isSome_ty (fun t => decides_lengthTy t) hok.2.1
    rw [checked_length]
    exact typed_node rfl (by rwa [value_ofTy] at hty) he

end Check

end Shader
