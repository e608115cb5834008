import Shader.Check.Expr
import Shader.Proofs.Bind.Expr

/-! Checking expressions records the types that folding gives. -/

namespace Shader

namespace Checked

variable {α β : Type}

instance : LawfulMonad Checked :=
  LawfulMonad.mk' Checked (by intro _ x; simp [Functor.map, bind, Checked.bind, Checked.pure])
    (by intros; simp [Pure.pure, Checked.pure, Bind.bind, Checked.bind])
    (by intros; simp [Bind.bind, Checked.bind])

@[simp] theorem value_pure (a : α) : (Pure.pure a : Checked α).value = a := rfl

@[simp] theorem value_bind (x : Checked α) (f : α → Checked β) :
    (x >>= f).value = (f x.value).value := rfl

@[simp] theorem problems_pure (a : α) : (Pure.pure a : Checked α).problems = [] := rfl

@[simp] theorem problems_bind (x : Checked α) (f : α → Checked β) :
    (x >>= f).problems = x.problems ++ (f x.value).problems := rfl

@[simp] theorem value_mapM (f : α → Checked β) (as : List α) :
    (as.mapM f).value = as.map fun a => (f a).value := by
  induction as with
  | nil => rfl
  | cons a as ih => simp only [List.mapM_cons, value_bind, value_pure, List.map_cons, ih]

@[simp] theorem value_mapM_option (f : α → Checked β) (a : Option α) :
    (a.mapM f).value = a.map fun a => (f a).value := by
  cases a <;> rfl

end Checked

/-- What folding gives has the type that is recorded at the node, if one is. -/
def Expr.Agrees (e : Expr) : Prop :=
  ∀ t c, e.ty = some t → e.fold = .value c → c.ty = t

/-- What is recorded at the node is sound, and its type is that of its constant. -/
def Part.Checked : Part → Prop
  | .node e => e.Sound ∧ e.Agrees
  | .binding v => v.Sound
  | .tag x => IsTag x

theorem Part.Bound.checked {p : Part} (h : p.Bound) : p.Checked := by
  cases p with
  | node e =>
    refine ⟨h.1, fun t c ht => ?_⟩
    rw [h.2] at ht
    cases ht
  | binding v => exact h
  | tag x => exact h

theorem Part.Checked.sound {p : Part} (h : p.Checked) : p.Sound := by
  cases p with
  | node e => exact h.1
  | binding v => exact h
  | tag x => exact h

namespace Check

/-- The parts of the tree are checked. -/
def Right (e : Expr) : Prop :=
  Part.All Part.Checked e.parts

theorem Right.agrees {e : Expr} (h : Right e) : e.Agrees :=
  (h (.node e) e.node_mem_parts).2

theorem Right.shaped {e : Expr} (h : Right e) {c : Constant} (hc : e.fold = .value c) :
    c.WellShaped :=
  ((Expr.fold_sound (h.mono fun _ => Part.Checked.sound)).of_value hc).shaped

theorem right_node {e : Expr} {ps : List Part} (hparts : e.parts = .node e :: ps) (he : e.Sound)
    (hagrees : e.Agrees) (hps : Part.All Part.Checked ps) : Right e := by
  rw [Right, hparts, Part.all_cons]
  exact ⟨⟨he, hagrees⟩, hps⟩

theorem agrees_of_notConstant {e : Expr} (h : e.fold = .notConstant) : e.Agrees := by
  intro t c _ hc
  rw [h] at hc
  cases hc

def ofTy (t : Option Ty) (rule : Ty → Checked (Option Ty)) : Checked (Option Ty) :=
  match t with
  | some t => rule t
  | none => pure none

@[simp] theorem value_ofTy (t : Option Ty) (rule : Ty → Checked (Option Ty)) :
    (ofTy t rule).value = t.bind fun t => (rule t).value := by
  cases t <;> rfl

section Rules

-- The equations are long to make; made here, they are there for all the proofs below.
attribute [local simp] expr exprs

theorem expr_unary (stage : Stage) (op : UnaryOp) (e : Expr) (n : Note) :
    expr stage (.unary op e n) = do
      let e ← expr stage e
      let ty ← ofTy e.ty fun t => unaryTy op t n.span
      return .unary op e { n with ty } := by
  rw [expr]
  congr
  funext e
  cases e.ty <;> rfl

theorem expr_update (stage : Stage) (op : UpdateOp) (before : Bool) (e : Expr) (n : Note) :
    expr stage (.update op before e n) = do
      let e ← expr stage e
      requireAssignable e op.text
      let ty ← ofTy e.ty fun t => updateTy op t n.span
      return .update op before e { n with ty } := by
  rw [expr]
  congr
  funext e
  cases e.ty <;> rfl

theorem expr_binary (stage : Stage) (op : BinaryOp) (l r : Expr) (n : Note) :
    expr stage (.binary op l r n) = do
      let l ← expr stage l
      let r ← expr stage r
      let ty ← ofTy l.ty fun a => ofTy r.ty fun b => binaryTy op a b n.span
      return .binary op l r { n with ty } := by
  rw [expr]
  congr
  funext l
  congr
  funext r
  cases l.ty <;> cases r.ty <;> rfl

theorem expr_assign (stage : Stage) (op : AssignOp) (t v : Expr) (n : Note) :
    expr stage (.assign op t v n) = do
      let t ← expr stage t
      let v ← expr stage v
      requireAssignable t op.text
      let ty ← ofTy t.ty fun a => ofTy v.ty fun b => assignTy op a b n.span
      return .assign op t v { n with ty } := by
  rw [expr]
  congr
  funext t
  congr
  funext v
  cases t.ty <;> cases v.ty <;> rfl

theorem expr_ternary (stage : Stage) (c t e : Expr) (n : Note) :
    expr stage (.ternary c t e n) = do
      let c ← expr stage c
      requireBool c
      let t ← expr stage t
      let e ← expr stage e
      let ty ← ofTy t.ty fun a => ofTy e.ty fun b => branchTy a b n.span
      return .ternary c t e { n with ty } := by
  rw [expr]
  congr
  funext c
  congr
  funext _
  congr
  funext t
  congr
  funext e
  cases t.ty <;> cases e.ty <;> rfl

def targetTy (stage : Stage) (target : Target) (args : List Expr) (span : Span) :
    Checked (Option Ty) :=
  match target with
  | .constructor t => constructTy t args span
  | .function f => callTy stage f args span
  | .unresolved => pure none

theorem expr_call (stage : Stage) (callee : Callee) (suffix : Option (ArraySuffix Expr))
    (args : List Expr) (target : Target) (n : Note) :
    expr stage (.call callee suffix args target n) = do
      let args ← exprs stage args
      let ty ← targetTy stage target args n.span
      return .call callee suffix args target { n with ty } := by
  rw [expr]
  congr
  funext args
  cases target <;> rfl

theorem expr_field (stage : Stage) (e : Expr) (x : String) (n : Note) :
    expr stage (.field e x n) = do
      let e ← expr stage e
      let ty ← ofTy e.ty fun t => fieldTy t x n.span
      return .field e x { n with ty } := by
  rw [expr]
  congr
  funext e
  cases e.ty <;> rfl

theorem expr_length (stage : Stage) (e : Expr) (n : Note) :
    expr stage (.length e n) = do
      let e ← expr stage e
      let ty ← ofTy e.ty fun t => lengthTy t n.span
      return .length e { n with ty } := by
  rw [expr]
  congr
  funext e
  cases e.ty <;> rfl

end Rules

theorem exprs_value (stage : Stage) (es : List Expr) :
    (exprs stage es).value = es.map fun e => (expr stage e).value := by
  induction es with
  | nil => rfl
  | cons e es ih =>
    unfold exprs
    simp only [Checked.value_bind, Checked.value_pure, ih, List.map_cons]

theorem value_indexTy (stage : Stage) (a i : Expr) (span : Span) :
    (indexTy stage a i span).value = a.ty.bind fun t => (elementOf? t).map Prod.fst := by
  unfold indexTy
  cases i.ty <;> cases a.ty with
  | none => rfl
  | some t =>
    simp only [Checked.value_bind, Option.bind_some]
    cases elementOf? t <;> rfl

theorem value_callTy (stage : Stage) (f : Function) (args : List Expr) (span : Span) :
    (callTy stage f args span).value =
      (args.mapM Expr.ty).bind fun types =>
        (f.overload? (types.map some)).bind Overload.result := by
  unfold callTy
  cases args.mapM Expr.ty with
  | none => rfl
  | some types =>
    simp only [Option.bind_some]
    cases f.overload? (types.map some) <;> rfl

theorem value_constructTy (ty : Ty) (args : List Expr) (span : Span) :
    (constructTy ty args span).value = some ty := by
  unfold constructTy
  split <;> rfl

theorem unary_agrees {op : UnaryOp} {e : Expr} {n : Note} (he : Right e)
    (hn : n.ty = e.ty.bind fun t => (unaryTy op t n.span).value) : (Expr.unary op e n).Agrees := by
  intro t c ht hc
  simp only [Expr.fold] at hc
  obtain ⟨a, ha, hc⟩ := Outcome.bind_eq_value hc
  obtain ⟨u, hu, ht⟩ := Option.bind_eq_some_iff.mp (hn.symm.trans ht)
  obtain rfl := he.agrees u a hu ha
  have htyped := (Fold.unary_typed (he.shaped ha) n.span).of_value hc
  exact Option.some.inj (htyped.1.symm.trans ht)

theorem binary_agrees {op : BinaryOp} {l r : Expr} {n : Note} (hl : Right l) (hr : Right r)
    (hn : n.ty = l.ty.bind fun a => r.ty.bind fun b => (binaryTy op a b n.span).value) :
    (Expr.binary op l r n).Agrees := by
  intro t c ht hc
  simp only [Expr.fold] at hc
  obtain ⟨a, ha, hc⟩ := Outcome.bind_eq_value hc
  obtain ⟨b, hb, hc⟩ := Outcome.bind_eq_value hc
  obtain ⟨u, hu, ht⟩ := Option.bind_eq_some_iff.mp (hn.symm.trans ht)
  obtain ⟨v, hv, ht⟩ := Option.bind_eq_some_iff.mp ht
  obtain rfl := hl.agrees u a hu ha
  obtain rfl := hr.agrees v b hv hb
  have htyped := (Fold.binary_typed (hl.shaped ha) (hr.shaped hb) n.span).of_value hc
  exact Option.some.inj (htyped.1.symm.trans ht)

theorem ternary_agrees {c t e : Expr} {n : Note} (ht : Right t) (he : Right e)
    (hn : n.ty = t.ty.bind fun a => e.ty.bind fun b => (branchTy a b n.span).value) :
    (Expr.ternary c t e n).Agrees := by
  intro ty k hty hk
  simp only [Expr.fold] at hk
  obtain ⟨_, _, hk⟩ := Outcome.bind_eq_value hk
  obtain ⟨a, ha, hk⟩ := Outcome.bind_eq_value hk
  obtain ⟨b, hb, hk⟩ := Outcome.bind_eq_value hk
  obtain ⟨u, hu, hty⟩ := Option.bind_eq_some_iff.mp (hn.symm.trans hty)
  obtain ⟨v, hv, hty⟩ := Option.bind_eq_some_iff.mp hty
  obtain rfl := ht.agrees u a hu ha
  have htyped := (Fold.select_typed (ht.shaped ha) (he.shaped hb)).of_value hk
  unfold branchTy at hty
  split at hty
  · exact htyped.2.1.trans (Option.some.inj hty)
  · cases hty

theorem field_agrees {e : Expr} {x : String} {n : Note} (he : Right e)
    (hn : n.ty = e.ty.bind fun t => (fieldTy t x n.span).value) : (Expr.field e x n).Agrees := by
  intro t c ht hc
  simp only [Expr.fold] at hc
  obtain ⟨a, ha, hc⟩ := Outcome.bind_eq_value hc
  obtain ⟨u, hu, ht⟩ := Option.bind_eq_some_iff.mp (hn.symm.trans ht)
  obtain rfl := he.agrees u a hu ha
  have htyped := (Fold.field_typed (he.shaped ha) x n.span).of_value hc
  exact Option.some.inj (htyped.1.symm.trans ht)

theorem index_agrees {a i : Expr} {n : Note} (ha : Right a)
    (hn : n.ty = a.ty.bind fun t => (elementOf? t).map Prod.fst) : (Expr.index a i n).Agrees := by
  intro t c ht hc
  simp only [Expr.fold] at hc
  obtain ⟨k, hk, hc⟩ := Outcome.bind_eq_value hc
  obtain ⟨j, hj, hc⟩ := Outcome.bind_eq_value hc
  obtain ⟨u, hu, ht⟩ := Option.bind_eq_some_iff.mp (hn.symm.trans ht)
  obtain rfl := ha.agrees u k hu hk
  have htyped := (Fold.index_typed (ha.shaped hk)).of_value hc
  exact Option.some.inj (htyped.1.symm.trans ht)

theorem length_agrees {e : Expr} {n : Note}
    (hn : n.ty = e.ty.bind fun t => (lengthTy t n.span).value) : (Expr.length e n).Agrees := by
  intro t c ht hc
  obtain ⟨u, hu, ht⟩ := Option.bind_eq_some_iff.mp (hn.symm.trans ht)
  have hint : t = .int := by
    unfold lengthTy at ht
    split at ht
    · exact (Option.some.inj ht).symm
    · cases ht
  have hc : c.ty = .int := by
    simp only [Expr.fold] at hc
    split at hc
    · exact ((Fold.length_typed _).of_value hc).2.1
    · obtain ⟨_, _, hc⟩ := Outcome.bind_eq_value hc
      exact ((Fold.length_typed _).of_value hc).2.1
  rw [hc, hint]

theorem foldAll_agrees {es : List Expr} (hes : ∀ e ∈ es, Right e) {types : List Ty}
    (ht : es.mapM Expr.ty = some types) {cs : List Constant} (hc : Expr.foldAll es = .value cs) :
    cs.map Constant.ty = types := by
  induction es generalizing types cs with
  | nil =>
    simp only [Expr.foldAll, Outcome.value.injEq] at hc
    simp only [List.mapM_nil, pure, Option.some.injEq] at ht
    simp [← hc, ← ht]
  | cons e es ih =>
    simp only [Expr.foldAll] at hc
    obtain ⟨a, ha, hc⟩ := Outcome.bind_eq_value hc
    obtain ⟨as, has, hc⟩ := Outcome.bind_eq_value hc
    obtain rfl := Outcome.value.inj hc
    simp only [List.mapM_cons, Option.bind_eq_bind, Option.bind_eq_some_iff] at ht
    obtain ⟨t, ht, ts, hts, heq⟩ := ht
    obtain rfl := Option.some.inj heq
    rw [List.map_cons, (hes e (by simp)).agrees t a ht ha,
      ih (fun b hb => hes b (by simp [hb])) hts has]

theorem foldAll_shaped {es : List Expr} (hes : ∀ e ∈ es, Right e) {cs : List Constant}
    (hc : Expr.foldAll es = .value cs) : ∀ c ∈ cs, c.WellShaped := by
  have hsound := Expr.foldAll_meets fun e he =>
    Expr.fold_sound ((hes e he).mono fun _ => Part.Checked.sound)
  exact fun c hcs => (hsound.of_value hc c hcs).shaped

theorem call_agrees {stage : Stage} {callee : Callee} {suffix : Option (ArraySuffix Expr)}
    {args : List Expr} {target : Target} {n : Note} (htarget : target.Sound)
    (hargs : ∀ a ∈ args, Right a) (hn : n.ty = (targetTy stage target args n.span).value) :
    (Expr.call callee suffix args target n).Agrees := by
  intro t c ht hc
  simp only [Expr.fold] at hc
  obtain ⟨cs, hcs, hc⟩ := Outcome.bind_eq_value hc
  replace ht := hn.symm.trans ht
  cases target with
  | unresolved => cases hc
  | constructor ty =>
    obtain rfl := Option.some.inj ((value_constructTy ty args n.span).symm.trans ht)
    exact ((Fold.construct_typed ty (foldAll_shaped hargs hcs)).of_value hc).1
  | function f =>
    obtain ⟨types, htypes, ht⟩ := Option.bind_eq_some_iff.mp ((value_callTy ..).symm.trans ht)
    obtain ⟨o, ho, ht⟩ := Option.bind_eq_some_iff.mp ht
    obtain ⟨-, -, o', ho', hresult⟩ :=
      (Fold.builtinCall_typed htarget (foldAll_shaped hargs hcs)).of_value hc
    have htys : (cs.map fun a => some a.ty) = types.map some := by
      rw [← foldAll_agrees hargs htypes hcs, List.map_map]
      rfl
    rw [htys, ho] at ho'
    obtain rfl := Option.some.inj ho'
    exact Option.some.inj (hresult.symm.trans ht)

/-- Checking a bound tree records types that agree with folding. -/
theorem right_expr (stage : Stage) {e : Expr} (h : Part.All Part.Bound e.parts) :
    Right (expr stage e).value := by
  -- At each node the recorded type and the type of the constant come from one rule.
  induction e using Expr.induction with
  | int text n =>
    unfold expr
    cases hs : Literal.int text with
    | ok s =>
      refine right_node (e := .int text _) rfl trivial (fun t c ht hc => ?_) Part.all_nil
      simp only [Expr.fold, hs, Except.toOption, Outcome.ofOption_some, Outcome.value_bind] at hc
      obtain rfl := Outcome.value.inj hc
      exact Option.some.inj ht
    | error e =>
      refine right_node (e := .int text _) rfl trivial (fun t c ht _ => ?_) Part.all_nil
      cases ht
  | float text n =>
    unfold expr
    refine right_node (e := .float text _) rfl trivial (fun t c ht hc => ?_) Part.all_nil
    simp only [Expr.fold] at hc
    obtain ⟨x, hx, hc⟩ := Outcome.bind_eq_value hc
    obtain rfl := Outcome.value.inj hc
    exact Option.some.inj ht
  | bool b n =>
    unfold expr
    refine right_node (e := .bool b _) rfl trivial (fun t c ht hc => ?_) Part.all_nil
    simp only [Expr.fold] at hc
    obtain rfl := Outcome.value.inj hc
    exact Option.some.inj ht
  | var x binding n =>
    simp only [Expr.parts, Part.all_cons] at h
    unfold expr
    refine right_node (e := .var x binding _) rfl h.1.1 (fun t c ht hc => ?_) Part.all_nil
    simp only [Expr.fold] at hc
    cases binding with
    | none => cases hc
    | some v =>
      have hconst : v.constant = some c := by
        cases hv : v.constant with
        | none => simp [hv] at hc
        | some d => simpa [hv] using hc
      have hty := (h.1.1 v rfl c hconst).2
      exact Option.some.inj (hty.symm.trans ht)
  | unary op e n ih =>
    simp only [Expr.parts, Part.all_cons] at h
    rw [expr_unary]
    exact right_node rfl trivial (unary_agrees (ih h.2) (value_ofTy _ _)) (ih h.2)
  | update op before e n ih =>
    simp only [Expr.parts, Part.all_cons] at h
    rw [expr_update]
    exact right_node rfl trivial (agrees_of_notConstant rfl) (ih h.2)
  | binary op l r n ihl ihr =>
    simp only [Expr.parts, Part.all_cons, Part.all_append] at h
    have hl := ihl h.2.1
    have hr := ihr h.2.2
    rw [expr_binary]
    exact right_node rfl trivial (binary_agrees hl hr (by simp)) (Part.all_append.mpr ⟨hl, hr⟩)
  | assign op t v n iht ihv =>
    simp only [Expr.parts, Part.all_cons, Part.all_append] at h
    rw [expr_assign]
    exact right_node rfl trivial (agrees_of_notConstant rfl)
      (Part.all_append.mpr ⟨iht h.2.1, ihv h.2.2⟩)
  | ternary c t e n ihc iht ihe =>
    simp only [Expr.parts, Part.all_cons, Part.all_append] at h
    have ht := iht h.2.1.2
    have he := ihe h.2.2
    rw [expr_ternary]
    exact right_node rfl trivial (ternary_agrees ht he (by simp))
      (Part.all_append.mpr ⟨Part.all_append.mpr ⟨ihc h.2.1.1, ht⟩, he⟩)
  | comma l r n ihl ihr =>
    simp only [Expr.parts, Part.all_cons, Part.all_append] at h
    unfold expr
    exact right_node (e := .comma _ _ _) rfl trivial (agrees_of_notConstant rfl)
      (Part.all_append.mpr ⟨ihl h.2.1, ihr h.2.2⟩)
  | call callee suffix args target n _ ih =>
    simp only [Expr.parts, Part.all_cons, Part.all_append, Expr.all_allParts] at h
    have hargs : ∀ a ∈ (exprs stage args).value, Right a := by
      rw [exprs_value]
      simp only [List.mem_map]
      rintro _ ⟨a, ha, rfl⟩
      exact ih a ha (h.2.2 a ha)
    rw [expr_call]
    refine right_node rfl h.1.1 (call_agrees h.1.1 hargs rfl) (Part.all_append.mpr ⟨?_, ?_⟩)
    · exact h.2.1.mono fun _ => Part.Bound.checked
    · exact Expr.all_allParts.mpr hargs
  | field e x n ih =>
    simp only [Expr.parts, Part.all_cons] at h
    rw [expr_field]
    exact right_node rfl trivial (field_agrees (ih h.2) (value_ofTy _ _)) (ih h.2)
  | index a i n iha ihi =>
    simp only [Expr.parts, Part.all_cons, Part.all_append] at h
    have ha := iha h.2.1
    unfold expr
    exact right_node (e := .index _ _ _) rfl trivial (index_agrees ha (value_indexTy ..))
      (Part.all_append.mpr ⟨ha, ihi h.2.2⟩)
  | length e n ih =>
    simp only [Expr.parts, Part.all_cons] at h
    rw [expr_length]
    exact right_node rfl trivial (length_agrees (value_ofTy _ _)) (ih h.2)

end Check

end Shader
