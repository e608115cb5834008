import Shader.Proofs.Check.Expr
import Shader.Proofs.Literal

/-! Constant expressions that check fold. Only two things can stop them, and neither is the
checker's to see: an integer divisor of zero and the order of NaN. -/

namespace Shader

/-- The text stands in some source as a float literal. -/
def IsFloatLiteral (text : String) : Prop :=
  ∃ source tokens, tokenize source = .ok tokens ∧ ∃ t ∈ tokens, t.kind = .floatLiteral text

theorem IsFloatLiteral.exists_value {text : String} (h : IsFloatLiteral text) :
    ∃ x, Literal.float? text = some x := by
  obtain ⟨source, tokens, hscan, t, ht, hkind⟩ := h
  have hread := tokenize_isReadable hscan t ht
  rw [hkind] at hread
  exact Option.isSome_iff_exists.mp hread

/-- A function that comes with the language and writes to none of its arguments. -/
structure Function.IsPlainBuiltin (f : Function) : Prop where
  declared : Prelude.scope.lookup? f.name = some (.function f)
  reads : ∀ o ∈ f.overloads, o.hasOutput = false

namespace Expr

/-- Bound expressions made of literals, constant variables, operators, constructors, accesses and
calls of builtin functions. A type that is recorded already would decide the length of an operand,
so binding leaves none there. -/
inductive IsConstant : Expr → Prop
  | int {text : String} {n : Note} : IsConstant (.int text n)
  | float {text : String} {n : Note} (h : IsFloatLiteral text) : IsConstant (.float text n)
  | bool {b : Bool} {n : Note} : IsConstant (.bool b n)
  | var {x : String} {v : Variable} {n : Note} {c : Constant} (hc : v.constant = some c)
      (hty : v.ty = some c.ty) (hshape : c.WellShaped) : IsConstant (.var x (some v) n)
  | unary {op : UnaryOp} {e : Expr} {n : Note} (he : IsConstant e) : IsConstant (.unary op e n)
  | binary {op : BinaryOp} {l r : Expr} {n : Note} (hl : IsConstant l) (hr : IsConstant r) :
      IsConstant (.binary op l r n)
  | ternary {c t e : Expr} {n : Note} (hc : IsConstant c) (ht : IsConstant t)
      (he : IsConstant e) : IsConstant (.ternary c t e n)
  | construct {callee : Callee} {suffix : Option (ArraySuffix Expr)} {args : List Expr} {ty : Ty}
      {n : Note} (hargs : ∀ a ∈ args, IsConstant a) :
      IsConstant (.call callee suffix args (.constructor ty) n)
  | builtin {callee : Callee} {suffix : Option (ArraySuffix Expr)} {args : List Expr}
      {f : Function} {n : Note} (hf : f.IsPlainBuiltin) (hargs : ∀ a ∈ args, IsConstant a) :
      IsConstant (.call callee suffix args (.function f) n)
  | field {e : Expr} {x : String} {n : Note} (he : IsConstant e) : IsConstant (.field e x n)
  | index {a i : Expr} {n : Note} (ha : IsConstant a) (hi : IsConstant i) :
      IsConstant (.index a i n)
  | length {e : Expr} {n : Note} (he : IsConstant e) (hty : e.ty = none) :
      IsConstant (.length e n)

/-- A division whose integer divisor has a component of zero, or an order comparison of NaN. -/
def HasNoValue : Expr → Prop
  | .binary op l r _ => ∃ a b, l.fold = .value a ∧ r.fold = .value b ∧
      Fold.ZeroDivisor op b.value.components
  | .call _ _ args (.function f) _ => ∃ cs, Expr.foldAll args = .value cs ∧
      Library.ComparesNaN f.name (cs.map Constant.value)
  | _ => False

/-- Some expression inside has no value. -/
def Undefined (e : Expr) : Prop :=
  ∃ d, .node d ∈ e.parts ∧ d.HasNoValue

theorem Undefined.inside {d e : Expr} (h : d.Undefined) (hsub : d.parts ⊆ e.parts) :
    e.Undefined := by
  obtain ⟨a, ha, hno⟩ := h
  exact ⟨a, hsub ha, hno⟩

theorem HasNoValue.undefined {e : Expr} (h : e.HasNoValue) : e.Undefined :=
  ⟨e, e.node_mem_parts, h⟩

end Expr

theorem Ty.scalarKind?_eq_some_iff {t : Ty} {k : ScalarKind} :
    t.scalarKind? = some k ↔ t = .scalar k := by
  unfold Ty.scalarKind?
  split <;> simp_all [Ty.scalar]

theorem Constant.exists_index {c : Constant} (hc : c.WellShaped) (h : c.ty.isInteger = true) :
    ∃ k, c.index? = some k := by
  obtain ⟨ty, v⟩ := c
  cases hk : ty.scalarKind? with
  | none => simp [Ty.isInteger, hk] at h
  | some k =>
    obtain rfl := Ty.scalarKind?_eq_some_iff.mp hk
    obtain ⟨s, rfl, rfl⟩ := Value.fits_scalar_iff.mp hc
    cases s with
    | int i => exact ⟨_, rfl⟩
    | uint u => exact ⟨_, rfl⟩
    | float x => cases h
    | bool b => cases h

namespace Check

variable {span : Span}

theorem unaryTy_of_ok {op : UnaryOp} {t : Ty} (h : (unaryTy op t span).problems = []) :
    (unaryTy op t span).value ≠ none := by
  unfold unaryTy at h ⊢
  split at h
  · simp
  · cases h

theorem binaryTy_of_ok {op : BinaryOp} {l r : Ty} (h : (binaryTy op l r span).problems = []) :
    (binaryTy op l r span).value ≠ none := by
  unfold binaryTy at h ⊢
  split
  · simp
  · rename_i hne
    rw [if_neg hne] at h
    split
    · split
      · simp
      · simp_all [untyped]
    · simp_all [untyped]

theorem branchTy_of_ok {t e : Ty} (h : (branchTy t e span).problems = []) :
    t = e ∧ (branchTy t e span).value = some t := by
  unfold branchTy at h ⊢
  split at h
  · rename_i heq
    exact ⟨heq, by simp [heq]⟩
  · cases h

theorem fieldTy_of_ok {t : Ty} {x : String} (h : (fieldTy t x span).problems = []) :
    (fieldTy t x span).value ≠ none := by
  unfold fieldTy at h ⊢
  split
  · split <;> simp_all [untyped]
  · split <;> simp_all [untyped]
  · simp only at h
    split at h <;> cases h
  · simp_all [untyped]

theorem lengthTy_of_ok {t : Ty} (h : (lengthTy t span).problems = []) :
    t.length?.isSome = true ∧ (lengthTy t span).value = some .int := by
  unfold lengthTy at h ⊢
  split at h
  · rename_i hs
    exact ⟨hs, by simp [hs]⟩
  · cases h

theorem require_of_ok {holds : Bool} {p : Problem} (h : (require holds p span).problems = []) :
    holds = true := by
  unfold require at h
  split at h
  · assumption
  · cases h

theorem checkIndex_of_ok {stage : Stage} {a i : Expr} {s t : Ty} {bound : Option Nat}
    {c : Constant} {k : Int} (h : (checkIndex stage a s bound i).problems = [])
    (hi : i.ty = some t) (ht : t.isInteger = true) (hc : i.fold = .value c)
    (hk : c.index? = some k) : 0 ≤ k ∧ ∀ n ∈ bound, k < (n : Int) := by
  have hconst : i.constant? = some c := Outcome.value?_eq_some_iff.mpr hc
  simp only [checkIndex, hi, Option.any_some, ht, if_true, hconst, Option.bind_some, hk] at h
  have hrange := require_of_ok h
  simp only [Bool.not_eq_true', Bool.or_eq_false_iff, decide_eq_false_iff_not, Int.not_lt] at hrange
  refine ⟨hrange.1, fun n hn => ?_⟩
  obtain rfl : bound = some n := hn
  simpa using hrange.2

theorem indexTy_of_ok {stage : Stage} {a i : Expr} {s t : Ty} {c : Constant}
    (h : (indexTy stage a i span).problems = []) (ha : a.ty = some s) (hi : i.ty = some t)
    (hc : i.fold = .value c) :
    t.isInteger = true ∧ ∃ element bound, elementOf? s = some (element, bound) ∧
      ∀ k, c.index? = some k → 0 ≤ k ∧ ∀ n ∈ bound, k < (n : Int) := by
  simp only [indexTy, hi, ha, Checked.problems_bind, List.append_eq_nil_iff] at h
  have ht := require_of_ok h.1
  refine ⟨ht, ?_⟩
  cases he : elementOf? s with
  | none => simp [he, untyped] at h
  | some r =>
    obtain ⟨element, bound⟩ := r
    simp only [he, Checked.problems_bind, List.append_eq_nil_iff] at h
    exact ⟨element, bound, rfl, fun k hk => checkIndex_of_ok h.2.1 hi ht hc hk⟩

theorem constructTy_of_ok {ty : Ty} {args : List Expr} {types : List Ty}
    (h : (constructTy ty args span).problems = []) (hargs : args.mapM Expr.ty = some types) :
    constructorProblem? ty types = none := by
  unfold constructTy at h
  simp only [hargs, Option.bind_some] at h
  split at h
  · cases h
  · assumption

theorem callTy_of_ok {stage : Stage} {f : Function} {args : List Expr} {types : List Ty}
    (h : (callTy stage f args span).problems = []) (hargs : args.mapM Expr.ty = some types) :
    ∃ o, f.overload? (types.map some) = some o := by
  unfold callTy at h
  simp only [hargs] at h
  split at h
  · cases h
  · exact ⟨_, ‹_›⟩

theorem exprs_problems (stage : Stage) (es : List Expr) :
    (exprs stage es).problems = es.flatMap fun e => (expr stage e).problems := by
  induction es with
  | nil => rfl
  | cons e es ih =>
    unfold exprs
    simp only [Checked.problems_bind, Checked.problems_pure, List.append_nil, ih,
      List.flatMap_cons]

/-- The expression folds to the constant, checked or not, and checking finds its type. -/
structure FoldsTo (stage : Stage) (e : Expr) (c : Constant) : Prop where
  before : e.fold = .value c
  after : (expr stage e).value.fold = .value c
  ty : (expr stage e).value.ty = some c.ty
  shaped : c.WellShaped

variable {stage : Stage}

theorem foldsTo_all {es : List Expr} (h : ∀ e ∈ es, ∃ c, FoldsTo stage e c) :
    ∃ cs, Expr.foldAll es = .value cs ∧ Expr.foldAll (exprs stage es).value = .value cs ∧
      (exprs stage es).value.mapM Expr.ty = some (cs.map Constant.ty) ∧
      ∀ c ∈ cs, c.WellShaped := by
  induction es with
  | nil => exact ⟨[], rfl, rfl, rfl, by simp⟩
  | cons e es ih =>
    obtain ⟨c, hc⟩ := h e (by simp)
    obtain ⟨cs, hbefore, hafter, hty, hshaped⟩ := ih fun d hd => h d (by simp [hd])
    refine ⟨c :: cs, ?_, ?_, ?_, ?_⟩
    · simp only [Expr.foldAll, hc.before, hbefore, Outcome.value_bind]
      rfl
    · simp only [exprs_value, List.map_cons, Expr.foldAll, hc.after, Outcome.value_bind] at hafter ⊢
      rw [hafter]
      rfl
    · simp only [exprs_value, List.map_cons, List.mapM_cons, hc.ty] at hty ⊢
      rw [hty]
      rfl
    · simpa using ⟨hc.shaped, hshaped⟩

theorem FoldsTo.unary {op : UnaryOp} {e : Expr} {n : Note} {c : Constant} (he : FoldsTo stage e c)
    (hok : (expr stage (.unary op e n)).problems = []) :
    ∃ d, FoldsTo stage (.unary op e n) d := by
  simp only [expr_unary, Checked.problems_bind, List.append_eq_nil_iff, he.ty, ofTy] at hok
  have hty := unaryTy_of_ok hok.2.1
  obtain ⟨d, hd, htyped⟩ := ((Fold.unary_typed he.shaped n.span).mono hty fun _ => id).exists_value
  refine ⟨d, ?_, ?_, ?_, htyped.2⟩
  · simp only [Expr.fold, he.before, Outcome.value_bind, hd]
  · simp only [expr_unary, Checked.value_bind, Checked.value_pure, Expr.fold, he.after,
      Outcome.value_bind, hd]
  · simp only [expr_unary, Checked.value_bind, Checked.value_pure, value_ofTy, he.ty,
      Option.bind_some]
    exact htyped.1

theorem FoldsTo.binary {op : BinaryOp} {l r : Expr} {n : Note} {a b : Constant}
    (hl : FoldsTo stage l a) (hr : FoldsTo stage r b)
    (hok : (expr stage (.binary op l r n)).problems = []) :
    (∃ d, FoldsTo stage (.binary op l r n) d) ∨ (Expr.binary op l r n).HasNoValue := by
  simp only [expr_binary, Checked.problems_bind, List.append_eq_nil_iff, hl.ty, hr.ty, ofTy] at hok
  have hty := binaryTy_of_ok hok.2.2.1
  by_cases hzero : Fold.ZeroDivisor op b.value.components
  · exact .inr ⟨a, b, hl.before, hr.before, hzero⟩
  have hmeets := @Fold.binary_typed op _ _ hl.shaped hr.shaped n.span
  obtain ⟨d, hd, htyped⟩ := (hmeets.mono (·.elim hty hzero) fun _ => id).exists_value
  refine .inl ⟨d, ?_, ?_, ?_, htyped.2⟩
  · simp only [Expr.fold, hl.before, hr.before, Outcome.value_bind, hd]
  · simp only [expr_binary, Checked.value_bind, Checked.value_pure, Expr.fold, hl.after, hr.after,
      Outcome.value_bind, hd]
  · simp only [expr_binary, Checked.value_bind, Checked.value_pure, value_ofTy, hl.ty, hr.ty,
      Option.bind_some]
    exact htyped.1

theorem FoldsTo.ternary {c t e : Expr} {n : Note} {k a b : Constant} (hc : FoldsTo stage c k)
    (ht : FoldsTo stage t a) (he : FoldsTo stage e b)
    (hok : (expr stage (.ternary c t e n)).problems = []) :
    ∃ d, FoldsTo stage (.ternary c t e n) d := by
  simp only [expr_ternary, Checked.problems_bind, List.append_eq_nil_iff, requireBool, hc.ty,
    ht.ty, he.ty, ofTy] at hok
  have hbool : k.ty = .bool :=
    Ty.scalarKind?_eq_some_iff.mp (by simpa [Ty.isBool] using require_of_ok hok.2.1)
  obtain ⟨heq, hty⟩ := branchTy_of_ok hok.2.2.2.2.1
  obtain ⟨d, hd, htyped⟩ := (Fold.select_meets ⟨hbool, hc.shaped⟩ ⟨rfl, ht.shaped⟩
    ⟨heq.symm, he.shaped⟩).exists_value
  refine ⟨d, ?_, ?_, ?_, htyped.2⟩
  · simp only [Expr.fold, hc.before, ht.before, he.before, Outcome.value_bind, hd]
  · simp only [expr_ternary, Checked.value_bind, Checked.value_pure, Expr.fold, hc.after, ht.after,
      he.after, Outcome.value_bind, hd]
  · simp only [expr_ternary, Checked.value_bind, Checked.value_pure, value_ofTy, ht.ty, he.ty,
      Option.bind_some]
    exact hty.trans (congrArg some htyped.1.symm)

theorem FoldsTo.field {e : Expr} {x : String} {n : Note} {c : Constant} (he : FoldsTo stage e c)
    (hok : (expr stage (.field e x n)).problems = []) : ∃ d, FoldsTo stage (.field e x n) d := by
  simp only [expr_field, Checked.problems_bind, List.append_eq_nil_iff, he.ty, ofTy] at hok
  have hty := fieldTy_of_ok hok.2.1
  obtain ⟨d, hd, htyped⟩ :=
    ((Fold.field_typed he.shaped x n.span).mono hty fun _ => id).exists_value
  refine ⟨d, ?_, ?_, ?_, htyped.2⟩
  · simp only [Expr.fold, he.before, Outcome.value_bind, hd]
  · simp only [expr_field, Checked.value_bind, Checked.value_pure, Expr.fold, he.after,
      Outcome.value_bind, hd]
  · simp only [expr_field, Checked.value_bind, Checked.value_pure, value_ofTy, he.ty,
      Option.bind_some]
    exact htyped.1

theorem FoldsTo.index {a i : Expr} {n : Note} {c k : Constant} (ha : FoldsTo stage a c)
    (hi : FoldsTo stage i k) (hok : (expr stage (.index a i n)).problems = []) :
    ∃ d, FoldsTo stage (.index a i n) d := by
  unfold expr at hok
  simp only [Checked.problems_bind, List.append_eq_nil_iff] at hok
  obtain ⟨hint, element, bound, helement, hrange⟩ :=
    indexTy_of_ok hok.2.2.1 ha.ty hi.ty hi.after
  obtain ⟨j, hj⟩ := Constant.exists_index hi.shaped hint
  obtain ⟨hnonneg, hbound⟩ := hrange j hj
  obtain ⟨m, rfl⟩ := Int.eq_ofNat_of_zero_le hnonneg
  obtain ⟨d, hd, htyped⟩ := (Fold.index_meets ha.shaped hint hj helement
    fun n hn => Int.ofNat_lt.mp (hbound n hn)).exists_value
  refine ⟨d, ?_, ?_, ?_, htyped.2⟩
  · simp only [Expr.fold, ha.before, hi.before, Outcome.value_bind, hd]
  · unfold expr
    simp only [Checked.value_bind, Checked.value_pure, Expr.fold, ha.after, hi.after,
      Outcome.value_bind, hd]
  · unfold expr
    refine (value_indexTy ..).trans ?_
    simp only [ha.ty, Option.bind_some, helement, Option.map_some, htyped.1]

theorem FoldsTo.length {e : Expr} {n : Note} {c : Constant} (he : FoldsTo stage e c)
    (hty : e.ty = none) (hbinding : ∀ v ∈ e.binding?, v.ty = some c.ty)
    (hok : (expr stage (.length e n)).problems = []) : ∃ d, FoldsTo stage (.length e n) d := by
  simp only [expr_length, Checked.problems_bind, List.append_eq_nil_iff, he.ty, ofTy] at hok
  obtain ⟨hsome, hint⟩ := lengthTy_of_ok hok.2.1
  obtain ⟨d, hd, htyped⟩ := ((Fold.length_typed c.ty).mono (fun hnone => by simp [hnone] at hsome)
    fun _ => id).exists_value
  refine ⟨d, ?_, ?_, ?_, htyped.2.2⟩
  · simp only [Expr.fold]
    split
    · rename_i t ht
      simp only [Expr.knownTy, hty] at ht
      obtain ⟨v, hv, ht⟩ := Option.bind_eq_some_iff.mp ht
      rw [Option.some.inj (ht.symm.trans (hbinding v hv)), hd]
    · simp only [he.before, Outcome.value_bind, hd]
  · simp only [expr_length, Checked.value_bind, Checked.value_pure, Expr.fold, Expr.knownTy, he.ty]
    exact hd
  · simp only [expr_length, Checked.value_bind, Checked.value_pure, value_ofTy, he.ty,
      Option.bind_some]
    exact hint.trans (congrArg some htyped.2.1.symm)

theorem foldsTo_construct {callee : Callee} {suffix : Option (ArraySuffix Expr)}
    {args : List Expr} {ty : Ty} {n : Note} (hargs : ∀ a ∈ args, ∃ c, FoldsTo stage a c)
    (hok : (expr stage (.call callee suffix args (.constructor ty) n)).problems = []) :
    ∃ d, FoldsTo stage (.call callee suffix args (.constructor ty) n) d := by
  obtain ⟨cs, hbefore, hafter, htypes, hshaped⟩ := foldsTo_all hargs
  simp only [expr_call, Checked.problems_bind, List.append_eq_nil_iff] at hok
  have hfits := constructTy_of_ok hok.2.1 htypes
  obtain ⟨d, hd, htyped⟩ := (Fold.construct_meets hshaped hfits).exists_value
  refine ⟨d, ?_, ?_, ?_, htyped.2⟩
  · simp only [Expr.fold, hbefore, Outcome.value_bind]
    exact hd
  · simp only [expr_call, Checked.value_bind, Checked.value_pure, Expr.fold, hafter,
      Outcome.value_bind]
    exact hd
  · rw [htyped.1]
    exact value_constructTy ..

theorem foldsTo_builtin {callee : Callee} {suffix : Option (ArraySuffix Expr)}
    {args : List Expr} {f : Function} {n : Note} (hf : f.IsPlainBuiltin)
    (hargs : ∀ a ∈ args, ∃ c, FoldsTo stage a c)
    (hok : (expr stage (.call callee suffix args (.function f) n)).problems = []) :
    (∃ d, FoldsTo stage (.call callee suffix args (.function f) n) d) ∨
      (Expr.call callee suffix args (.function f) n).HasNoValue := by
  obtain ⟨cs, hbefore, hafter, htypes, hshaped⟩ := foldsTo_all hargs
  simp only [expr_call, Checked.problems_bind, List.append_eq_nil_iff] at hok
  obtain ⟨o, ho⟩ := callTy_of_ok hok.2.1 htypes
  have hoverload : f.overload? (cs.map fun c => some c.ty) = some o := by
    rw [← ho, List.map_map]
    rfl
  obtain ⟨-, hb, hgenuine⟩ := Prelude.sound_scope.lookup hf.declared
  have hmeets := Fold.builtinCall_meets hgenuine hb hoverload
    (hf.reads o (Function.overload?_eq_some hoverload).1) hshaped
  by_cases hnan : Library.ComparesNaN f.name (cs.map Constant.value)
  · exact .inr ⟨cs, hbefore, hnan⟩
  obtain ⟨d, hd, hresult, hd'⟩ := (hmeets.mono hnan fun _ => id).exists_value
  refine .inl ⟨d, ?_, ?_, ?_, hd'⟩
  · simp only [Expr.fold, hbefore, Outcome.value_bind]
    exact hd
  · simp only [expr_call, Checked.value_bind, Checked.value_pure, Expr.fold, hafter,
      Outcome.value_bind]
    exact hd
  · refine (value_callTy ..).trans ?_
    rw [htypes, Option.bind_some, ho, Option.bind_some, hresult]

end Check

theorem Expr.IsConstant.binding_ty {e : Expr} (h : e.IsConstant) {c : Constant}
    (hc : e.fold = .value c) : ∀ v ∈ e.binding?, v.ty = some c.ty := by
  intro v hv
  cases h with
  | var hconst hty hshape =>
    obtain rfl := Option.some.inj hv
    simp only [Expr.fold, Option.bind_some, hconst, Outcome.ofOption_some] at hc
    exact Outcome.value.inj hc ▸ hty
  | _ => cases hv

theorem Expr.parts_subset_call {callee : Callee} {suffix : Option (ArraySuffix Expr)}
    {args : List Expr} {target : Target} {n : Note} {a : Expr} (ha : a ∈ args) :
    a.parts ⊆ (Expr.call callee suffix args target n).parts := by
  have hall : Part.All (· ∈ Expr.allParts args) (Expr.allParts args) := fun _ hp => hp
  intro p hp
  simp only [Expr.parts, List.mem_cons, List.mem_append]
  exact .inr (.inr (Expr.all_allParts.mp hall a ha p hp))

theorem foldsTo_or_undefined {stage : Stage} {callee : Callee}
    {suffix : Option (ArraySuffix Expr)} {args : List Expr} {target : Target} {n : Note}
    (hok : (Check.expr stage (.call callee suffix args target n)).problems = [])
    (ih : ∀ a ∈ args, (Check.expr stage a).problems = [] →
      (∃ c, Check.FoldsTo stage a c) ∨ a.Undefined) :
    (∀ a ∈ args, ∃ c, Check.FoldsTo stage a c) ∨
      (Expr.call callee suffix args target n).Undefined := by
  simp only [Check.expr_call, Checked.problems_bind, List.append_eq_nil_iff,
    Check.exprs_problems, List.flatMap_eq_nil_iff] at hok
  by_cases hu : ∃ a ∈ args, a.Undefined
  · obtain ⟨a, ha, hu⟩ := hu
    exact .inr (hu.inside (Expr.parts_subset_call ha))
  · exact .inl fun a ha => (ih a ha (hok.1 a ha)).resolve_right fun h => hu ⟨a, ha, h⟩

/-- A constant expression that checks without a problem folds, checked or not, unless an integer
division by zero or an order comparison of NaN stands in it. -/
theorem Expr.IsConstant.foldsTo {e : Expr} (h : e.IsConstant) (stage : Stage)
    (hok : (Check.expr stage e).problems = []) :
    (∃ c, Check.FoldsTo stage e c) ∨ e.Undefined := by
  -- An operand without a value leaves the whole without one; otherwise the rule that the check
  -- found kept has a value to give.
  induction h with
  | @int text n =>
    left
    unfold Check.expr at hok
    cases hs : Literal.int text with
    | error p =>
      rw [hs] at hok
      cases hok
    | ok s =>
      have hfold : ∀ n, (Expr.int text n).fold = .value (.ofScalar s) := by
        simp [Expr.fold, hs, Except.toOption]
      refine ⟨.ofScalar s, hfold n, ?_, ?_, Value.fits_ofScalar s⟩ <;> unfold Check.expr <;> rw [hs]
      · exact hfold _
      · rfl
  | @float text n hlit =>
    obtain ⟨x, hx⟩ := hlit.exists_value
    have hfold : ∀ n, (Expr.float text n).fold = .value (.ofScalar (.float x)) := by
      simp [Expr.fold, hx]
    refine .inl ⟨.ofScalar (.float x), hfold n, ?_, ?_, Value.fits_ofScalar _⟩ <;>
      unfold Check.expr
    · exact hfold _
    · rfl
  | @bool b n =>
    refine .inl ⟨.ofBool b, rfl, ?_, ?_, Value.fits_ofScalar _⟩ <;> unfold Check.expr <;> rfl
  | @var x v n c hc hty hshape =>
    have hfold : ∀ n, (Expr.var x (some v) n).fold = .value c := by
      simp [Expr.fold, hc]
    refine .inl ⟨c, hfold n, ?_, ?_, hshape⟩ <;> unfold Check.expr
    · exact hfold _
    · exact hty
  | unary _ ih =>
    have he := hok
    simp only [Check.expr_unary, Checked.problems_bind, List.append_eq_nil_iff] at he
    rcases ih he.1 with ⟨c, hc⟩ | hu
    · exact .inl (hc.unary hok)
    · exact .inr (hu.inside fun p hp => by simp [Expr.parts, hp])
  | binary _ _ ihl ihr =>
    have he := hok
    simp only [Check.expr_binary, Checked.problems_bind, List.append_eq_nil_iff] at he
    rcases ihl he.1 with ⟨a, ha⟩ | hu
    · rcases ihr he.2.1 with ⟨b, hb⟩ | hu
      · exact (ha.binary hb hok).imp id fun h => h.undefined
      · exact .inr (hu.inside fun p hp => by simp [Expr.parts, hp])
    · exact .inr (hu.inside fun p hp => by simp [Expr.parts, hp])
  | ternary _ _ _ ihc iht ihe =>
    have he := hok
    simp only [Check.expr_ternary, Checked.problems_bind, List.append_eq_nil_iff] at he
    rcases ihc he.1 with ⟨c, hc⟩ | hu
    · rcases iht he.2.2.1 with ⟨a, ha⟩ | hu
      · rcases ihe he.2.2.2.1 with ⟨b, hb⟩ | hu
        · exact .inl (hc.ternary ha hb hok)
        · exact .inr (hu.inside fun p hp => by simp [Expr.parts, hp])
      · exact .inr (hu.inside fun p hp => by simp [Expr.parts, hp])
    · exact .inr (hu.inside fun p hp => by simp [Expr.parts, hp])
  | construct _ ih =>
    rcases foldsTo_or_undefined hok ih with hargs | hu
    · exact .inl (Check.foldsTo_construct hargs hok)
    · exact .inr hu
  | builtin hf _ ih =>
    rcases foldsTo_or_undefined hok ih with hargs | hu
    · exact (Check.foldsTo_builtin hf hargs hok).imp id fun h => h.undefined
    · exact .inr hu
  | field _ ih =>
    have he := hok
    simp only [Check.expr_field, Checked.problems_bind, List.append_eq_nil_iff] at he
    rcases ih he.1 with ⟨c, hc⟩ | hu
    · exact .inl (hc.field hok)
    · exact .inr (hu.inside fun p hp => by simp [Expr.parts, hp])
  | index _ _ iha ihi =>
    have he := hok
    unfold Check.expr at he
    simp only [Checked.problems_bind, List.append_eq_nil_iff] at he
    rcases iha he.1 with ⟨a, ha⟩ | hu
    · rcases ihi he.2.1 with ⟨i, hi⟩ | hu
      · exact .inl (ha.index hi hok)
      · exact .inr (hu.inside fun p hp => by simp [Expr.parts, hp])
    · exact .inr (hu.inside fun p hp => by simp [Expr.parts, hp])
  | length hconst hty ih =>
    have he := hok
    simp only [Check.expr_length, Checked.problems_bind, List.append_eq_nil_iff] at he
    rcases ih he.1 with ⟨c, hc⟩ | hu
    · exact .inl (hc.length hty (hconst.binding_ty hc.before) hok)
    · exact .inr (hu.inside fun p hp => by simp [Expr.parts, hp])

/-- A constant expression that checks without a problem has a constant, the same one before and
after the check, unless an integer division by zero or an order comparison of NaN stands in it. -/
theorem Expr.IsConstant.constant?_of_check {e : Expr} (h : e.IsConstant) (stage : Stage)
    (hok : (Check.expr stage e).problems = []) :
    (∃ c, e.constant? = some c ∧ (Check.expr stage e).value.constant? = some c) ∨
      e.Undefined := by
  refine (h.foldsTo stage hok).imp (fun ⟨c, hc⟩ => ⟨c, ?_, ?_⟩) id
  · exact Outcome.value?_eq_some_iff.mpr hc.before
  · exact Outcome.value?_eq_some_iff.mpr hc.after

/-- `ivec2(7, 9).y / w.length()`, where `w` is a constant vector. -/
def scaledComponent : Expr :=
  let n : Note := ⟨⟨0, 0⟩, none⟩
  let w : Variable := ⟨"w", some (.basic (.vector .bool .two)), .global, some .constant,
    some ⟨.basic (.vector .bool .two), .vector [.bool true, .bool false]⟩, ⟨0, 0⟩⟩
  let pair : Expr := .call ⟨.basic (.vector .int .two), ⟨0, 0⟩⟩ none [.int "7" n, .int "9" n]
    (.constructor (.basic (.vector .int .two))) n
  .binary .div (.field pair "y" n) (.length (.var "w" (some w) n) n) n

theorem isConstant_scaledComponent : scaledComponent.IsConstant := by
  refine .binary (.field (.construct ?_)) (.length (.var rfl rfl ⟨rfl, by simp⟩) rfl)
  simp only [List.mem_cons, List.not_mem_nil, or_false, forall_eq_or_imp, forall_eq]
  exact ⟨.int, .int⟩

theorem constant?_scaledComponent :
    scaledComponent.IsConstant ∧ (Check.expr .vertex scaledComponent).problems = [] ∧
      ((∃ c, scaledComponent.constant? = some c ∧
        (Check.expr .vertex scaledComponent).value.constant? = some c) ∨
        scaledComponent.Undefined) := by
  have hok : (Check.expr .vertex scaledComponent).problems = [] := by
    apply List.isEmpty_iff.mp
    decide +kernel
  exact ⟨isConstant_scaledComponent, hok,
    isConstant_scaledComponent.constant?_of_check .vertex hok⟩

end Shader
