import Mathlib.Data.List.Forall2
import Shader.Proofs.Recheck
import Shader.Proofs.Soundness

/-! Folding before and after a check. What folds in a bound tree folds to the same constant in the
checked one. The other way round there is one exception: the length of an operand that is no
constant itself has a value only once the type of the operand is recorded. -/

namespace Shader

def Note.untyped (n : Note) : Note :=
  { n with ty := none }

mutual

/-- The expression without the types that are recorded in it. -/
def Expr.untyped : Expr → Expr
  | .int text n => .int text n.untyped
  | .float text n => .float text n.untyped
  | .bool b n => .bool b n.untyped
  | .var x binding n => .var x binding n.untyped
  | .unary op e n => .unary op e.untyped n.untyped
  | .update op before e n => .update op before e.untyped n.untyped
  | .binary op l r n => .binary op l.untyped r.untyped n.untyped
  | .assign op t v n => .assign op t.untyped v.untyped n.untyped
  | .ternary c t e n => .ternary c.untyped t.untyped e.untyped n.untyped
  | .comma l r n => .comma l.untyped r.untyped n.untyped
  | .call callee suffix args target n =>
    .call callee (untypedSuffix suffix) (Expr.allUntyped args) target n.untyped
  | .field e x n => .field e.untyped x n.untyped
  | .index a i n => .index a.untyped i.untyped n.untyped
  | .length e n => .length e.untyped n.untyped

def Expr.allUntyped : List Expr → List Expr
  | [] => []
  | e :: es => e.untyped :: Expr.allUntyped es

def untypedSuffix : Option (ArraySuffix Expr) → Option (ArraySuffix Expr)
  | none => none
  | some ⟨none, span⟩ => some ⟨none, span⟩
  | some ⟨some e, span⟩ => some ⟨some e.untyped, span⟩

end

namespace Expr

variable {stage : Stage}

theorem allUntyped_map_of {f : Expr → Expr} {es : List Expr}
    (h : ∀ e ∈ es, (f e).untyped = e.untyped) : allUntyped (es.map f) = allUntyped es := by
  induction es with
  | nil => rfl
  | cons e es ih =>
    rw [List.map_cons, allUntyped, allUntyped, h e (by simp), ih fun d hd => h d (by simp [hd])]

/-- Checking changes nothing in an expression but its types. -/
theorem untyped_checked (stage : Stage) (e : Expr) : (e.checked stage).untyped = e.untyped := by
  induction e using Expr.induction with
  | int | float | bool | var =>
    simp only [checked_int, checked_float, checked_bool, checked_var, untyped, Note.untyped]
  | unary op e n ih => rw [checked_unary, untyped, ih, untyped, Note.untyped, Note.untyped]
  | update op before e n ih =>
    rw [checked_update, untyped, ih, untyped, Note.untyped, Note.untyped]
  | binary op l r n ihl ihr =>
    rw [checked_binary, untyped, ihl, ihr, untyped, Note.untyped, Note.untyped]
  | assign op l r n ihl ihr =>
    rw [checked_assign, untyped, ihl, ihr, untyped, Note.untyped, Note.untyped]
  | ternary c t e n ihc iht ihe =>
    rw [checked_ternary, untyped, ihc, iht, ihe, untyped, Note.untyped, Note.untyped]
  | comma l r n ihl ihr =>
    rw [checked_comma, untyped, ihl, ihr, untyped, Note.untyped, Note.untyped]
  | call callee suffix args target n _ ih =>
    rw [checked_call, untyped, allUntyped_map_of ih, untyped, Note.untyped, Note.untyped]
  | field e x n ih => rw [checked_field, untyped, ih, untyped, Note.untyped, Note.untyped]
  | index a i n iha ihi =>
    rw [checked_index, untyped, iha, ihi, untyped, Note.untyped, Note.untyped]
  | length e n ih => rw [checked_length, untyped, ih, untyped, Note.untyped, Note.untyped]

theorem binding?_checked (stage : Stage) (e : Expr) :
    (e.checked stage).binding? = e.binding? := by
  have h : ∀ d : Expr, d.untyped.binding? = d.binding? := by
    intro d
    cases d <;> simp only [untyped, binding?]
  rw [← h, untyped_checked, h]

/-- Whatever `e` folds to, `d` folds to as well. -/
def FoldsAs (e d : Expr) : Prop :=
  ∀ c, e.fold = .value c → d.fold = .value c

variable {a b d e l r : Expr} {m n : Note}

theorem FoldsAs.refl (e : Expr) : e.FoldsAs e :=
  fun _ => id

theorem FoldsAs.unary (h : e.FoldsAs d) (op : UnaryOp) :
    (unary op e m).FoldsAs (.unary op d n) := by
  intro c hc
  simp only [fold] at hc ⊢
  obtain ⟨k, hk, hc⟩ := Outcome.bind_eq_value hc
  rw [h k hk]
  exact hc

theorem FoldsAs.binary (hl : a.FoldsAs l) (hr : b.FoldsAs r) (op : BinaryOp) :
    (binary op a b m).FoldsAs (.binary op l r n) := by
  intro c hc
  simp only [fold] at hc ⊢
  obtain ⟨j, hj, hc⟩ := Outcome.bind_eq_value hc
  obtain ⟨k, hk, hc⟩ := Outcome.bind_eq_value hc
  rw [hl j hj, Outcome.value_bind, hr k hk]
  exact hc

theorem FoldsAs.ternary (hd : e.FoldsAs d) (hl : a.FoldsAs l) (hr : b.FoldsAs r) :
    (ternary e a b m).FoldsAs (.ternary d l r n) := by
  intro c hc
  simp only [fold] at hc ⊢
  obtain ⟨i, hi, hc⟩ := Outcome.bind_eq_value hc
  obtain ⟨j, hj, hc⟩ := Outcome.bind_eq_value hc
  obtain ⟨k, hk, hc⟩ := Outcome.bind_eq_value hc
  rw [hd i hi, Outcome.value_bind, hl j hj, Outcome.value_bind, hr k hk]
  exact hc

theorem FoldsAs.field (h : e.FoldsAs d) (x : String) : (field e x m).FoldsAs (.field d x n) := by
  intro c hc
  simp only [fold] at hc ⊢
  obtain ⟨k, hk, hc⟩ := Outcome.bind_eq_value hc
  rw [h k hk]
  exact hc

theorem FoldsAs.index (hl : a.FoldsAs l) (hr : b.FoldsAs r) :
    (index a b m).FoldsAs (.index l r n) := by
  intro c hc
  simp only [fold] at hc ⊢
  obtain ⟨j, hj, hc⟩ := Outcome.bind_eq_value hc
  obtain ⟨k, hk, hc⟩ := Outcome.bind_eq_value hc
  rw [hl j hj, Outcome.value_bind, hr k hk]
  exact hc

theorem foldAll_of {as bs : List Expr} {cs : List Constant} (h : List.Forall₂ FoldsAs as bs)
    (hc : foldAll as = .value cs) : foldAll bs = .value cs := by
  induction h generalizing cs with
  | nil => exact hc
  | cons hab _ ih =>
    simp only [foldAll] at hc ⊢
    obtain ⟨k, hk, hc⟩ := Outcome.bind_eq_value hc
    obtain ⟨ks, hks, hc⟩ := Outcome.bind_eq_value hc
    rw [hab k hk, Outcome.value_bind, ih hks]
    exact hc

theorem FoldsAs.call {as bs : List Expr} (h : List.Forall₂ FoldsAs as bs) (callee : Callee)
    (suffix : Option (ArraySuffix Expr)) (target : Target) :
    (call callee suffix as target m).FoldsAs (.call callee suffix bs target n) := by
  intro c hc
  simp only [fold] at hc ⊢
  obtain ⟨ks, hks, hc⟩ := Outcome.bind_eq_value hc
  rw [foldAll_of h hks]
  exact hc

theorem ty_eq_none_of_bound (h : Part.All Part.Bound e.parts) : e.ty = none :=
  (h (.node e) e.node_mem_parts).2

theorem knownTy_of_bound (h : Part.All Part.Bound e.parts) :
    e.knownTy = e.binding?.bind Variable.ty := by
  rw [knownTy, ty_eq_none_of_bound h]
  rfl

theorem fold_length_of_knownTy {t : Ty} (h : e.knownTy = some t) :
    (length e n).fold = Fold.length t := by
  simp only [fold, h]

theorem fold_length_of_fold {k : Constant} (h : e.knownTy = none) (hk : e.fold = .value k) :
    (length e n).fold = Fold.length k.ty := by
  simp only [fold, h, hk, Outcome.value_bind]

theorem fold_length_checked {k : Constant} (h : Part.All Part.Bound e.parts)
    (hbinding : e.binding? = none) (hk : (e.checked stage).fold = .value k) :
    (length (e.checked stage) n).fold = Fold.length k.ty := by
  cases ht : (e.checked stage).ty with
  | none =>
    refine fold_length_of_fold ?_ hk
    rw [knownTy, ht, binding?_checked, hbinding]
    rfl
  | some t =>
    have hty : k.ty = t := (Check.right_expr stage h).agrees t k ht hk
    rw [hty]
    refine fold_length_of_knownTy ?_
    rw [knownTy, ht]
    rfl

theorem fold_length_var {x : String} {v : Variable} (hn : m.ty = none) :
    (length ((var x (some v) m).checked stage) n).fold = (length (var x (some v) m) n).fold := by
  have hknown : ((var x (some v) m).checked stage).knownTy = (var x (some v) m).knownTy := by
    rw [checked_var]
    simp only [knownTy, ty, note, binding?, Option.bind_some, hn]
    cases v.ty <;> rfl
  have hfold : ((var x (some v) m).checked stage).fold = (var x (some v) m).fold := by
    rw [checked_var, fold, fold]
  simp only [fold, hknown, hfold]

theorem exists_var_of_binding? {v : Variable} (h : e.binding? = some v) :
    ∃ x m, e = var x (some v) m := by
  cases e with
  | var x binding m =>
    obtain rfl : binding = some v := h
    exact ⟨x, m, rfl⟩
  | _ => cases h

theorem FoldsAs.length_checked (h : Part.All Part.Bound e.parts)
    (he : e.FoldsAs (e.checked stage)) :
    (length e m).FoldsAs (.length (e.checked stage) n) := by
  intro c hc
  cases hb : e.binding? with
  | some v =>
    obtain ⟨x, k, rfl⟩ := exists_var_of_binding? hb
    have hk : k.ty = none := ty_eq_none_of_bound h
    rw [fold_length_var hk]
    exact hc
  | none =>
    have hknown : e.knownTy = none := by
      rw [knownTy_of_bound h, hb]
      rfl
    simp only [fold, hknown] at hc
    obtain ⟨k, hk, hc⟩ := Outcome.bind_eq_value hc
    rw [fold_length_checked h hb (he k hk)]
    exact hc

/-- What a bound expression folds to it folds to after a check. -/
theorem foldsAs_checked (stage : Stage) {e : Expr} (h : Part.All Part.Bound e.parts) :
    e.FoldsAs (e.checked stage) := by
  induction e using Expr.induction with
  | int | float | bool | var =>
    intro c hc
    simpa only [checked_int, checked_float, checked_bool, checked_var, fold] using hc
  | update | assign | comma =>
    intro c hc
    simp only [fold] at hc
    cases hc
  | unary op e n ih =>
    rw [checked_unary]
    exact (ih (Part.all_cons.mp h).2).unary op
  | binary op l r n ihl ihr =>
    simp only [parts, Part.all_cons, Part.all_append] at h
    rw [checked_binary]
    exact (ihl h.2.1).binary (ihr h.2.2) op
  | ternary c t e n ihc iht ihe =>
    simp only [parts, Part.all_cons, Part.all_append] at h
    rw [checked_ternary]
    exact (ihc h.2.1.1).ternary (iht h.2.1.2) (ihe h.2.2)
  | call callee suffix args target n _ ih =>
    simp only [parts, Part.all_cons, Part.all_append, all_allParts] at h
    rw [checked_call]
    refine FoldsAs.call (List.forall₂_map_right_iff.mpr ?_) callee suffix target
    exact List.forall₂_same.mpr fun a ha => ih a ha (h.2.2 a ha)
  | field e x n ih =>
    rw [checked_field]
    exact (ih (Part.all_cons.mp h).2).field x
  | index a i n iha ihi =>
    simp only [parts, Part.all_cons, Part.all_append] at h
    rw [checked_index]
    exact (iha h.2.1).index (ihi h.2.2)
  | length e n ih =>
    rw [checked_length]
    exact FoldsAs.length_checked (Part.all_cons.mp h).2 (ih (Part.all_cons.mp h).2)

/-- `d` is `e` with other types recorded, and folds to what `e` folds to. -/
structure Kept (e d : Expr) : Prop where
  untyped : d.untyped = e.untyped
  fold : e.FoldsAs d

theorem kept_checked (stage : Stage) {e : Expr} (h : Part.All Part.Bound e.parts) :
    e.Kept (e.checked stage) :=
  ⟨untyped_checked stage e, foldsAs_checked stage h⟩

/-- The expressions of the two lists correspond, and what folds is kept. -/
def KeptParts (ps qs : List Part) : Prop :=
  List.Forall₂ Kept (ps.filterMap Part.expr?) (qs.filterMap Part.expr?)

theorem KeptParts.refl (ps : List Part) : KeptParts ps ps :=
  List.forall₂_same.mpr fun e _ => ⟨rfl, .refl e⟩

theorem KeptParts.append {ps qs ps' qs' : List Part} (h : KeptParts ps qs)
    (h' : KeptParts ps' qs') : KeptParts (ps ++ ps') (qs ++ qs') := by
  rw [KeptParts, List.filterMap_append, List.filterMap_append]
  exact List.rel_append h h'

theorem KeptParts.node {ps qs : List Part} (hnode : e.Kept d) (he : e.parts = .node e :: ps)
    (hd : d.parts = .node d :: qs) (h : KeptParts ps qs) : KeptParts e.parts d.parts := by
  rw [he, hd]
  exact .cons hnode h

theorem keptParts_allParts {f : Expr → Expr} {es : List Expr}
    (h : ∀ e ∈ es, KeptParts e.parts (f e).parts) :
    KeptParts (allParts es) (allParts (es.map f)) := by
  induction es with
  | nil => exact .nil
  | cons e es ih =>
    exact (h e (by simp)).append (ih fun d hd => h d (by simp [hd]))

/-- Node by node, a checked expression folds to what the bound one folds to. -/
theorem keptParts_checked (stage : Stage) {e : Expr} (h : Part.All Part.Bound e.parts) :
    KeptParts e.parts (e.checked stage).parts := by
  induction e using Expr.induction with
  | int => exact .node (kept_checked stage h) rfl (by rw [checked_int]; rfl) (.refl [])
  | float => exact .node (kept_checked stage h) rfl (by rw [checked_float]; rfl) (.refl [])
  | bool => exact .node (kept_checked stage h) rfl (by rw [checked_bool]; rfl) (.refl [])
  | var => exact .node (kept_checked stage h) rfl (by rw [checked_var]; rfl) (.refl [])
  | unary op e n ih =>
    exact .node (kept_checked stage h) rfl (by rw [checked_unary]; rfl) (ih (Part.all_cons.mp h).2)
  | update op before e n ih =>
    exact .node (kept_checked stage h) rfl (by rw [checked_update]; rfl) (ih (Part.all_cons.mp h).2)
  | field e x n ih =>
    exact .node (kept_checked stage h) rfl (by rw [checked_field]; rfl) (ih (Part.all_cons.mp h).2)
  | length e n ih =>
    exact .node (kept_checked stage h) rfl (by rw [checked_length]; rfl) (ih (Part.all_cons.mp h).2)
  | binary op l r n ihl ihr =>
    obtain ⟨hl, hr⟩ := Part.all_append.mp (Part.all_cons.mp h).2
    exact .node (kept_checked stage h) rfl (by rw [checked_binary]; rfl) ((ihl hl).append (ihr hr))
  | assign op l r n ihl ihr =>
    obtain ⟨hl, hr⟩ := Part.all_append.mp (Part.all_cons.mp h).2
    exact .node (kept_checked stage h) rfl (by rw [checked_assign]; rfl) ((ihl hl).append (ihr hr))
  | comma l r n ihl ihr =>
    obtain ⟨hl, hr⟩ := Part.all_append.mp (Part.all_cons.mp h).2
    exact .node (kept_checked stage h) rfl (by rw [checked_comma]; rfl) ((ihl hl).append (ihr hr))
  | index l r n ihl ihr =>
    obtain ⟨hl, hr⟩ := Part.all_append.mp (Part.all_cons.mp h).2
    exact .node (kept_checked stage h) rfl (by rw [checked_index]; rfl) ((ihl hl).append (ihr hr))
  | ternary c t e n ihc iht ihe =>
    obtain ⟨hct, he⟩ := Part.all_append.mp (Part.all_cons.mp h).2
    obtain ⟨hc, ht⟩ := Part.all_append.mp hct
    exact .node (kept_checked stage h) rfl (by rw [checked_ternary]; rfl)
      (((ihc hc).append (iht ht)).append (ihe he))
  | call callee suffix args target n _ ih =>
    obtain ⟨-, hargs⟩ := Part.all_append.mp (Part.all_cons.mp h).2
    -- Checking leaves the size in the brackets alone.
    exact .node (kept_checked stage h) rfl (by rw [checked_call]; rfl)
      ((KeptParts.refl _).append (keptParts_allParts fun a ha => ih a ha (all_allParts.mp hargs a ha)))

/-- The length of something that is neither a variable nor a constant expression. -/
def isOpenLength : Expr → Bool
  | .length e _ => e.binding?.isNone && e.constant?.isNone
  | _ => false

theorem FoldsAs.of_length_checked (h : Part.All Part.Bound e.parts)
    (hclosed : (length (e.checked stage) m).isOpenLength = false)
    (he : (e.checked stage).FoldsAs e) :
    (length (e.checked stage) m).FoldsAs (.length e n) := by
  intro c hc
  cases hb : e.binding? with
  | some v =>
    obtain ⟨x, k, rfl⟩ := exists_var_of_binding? hb
    have hk : k.ty = none := ty_eq_none_of_bound h
    rw [fold_length_var hk] at hc
    exact hc
  | none =>
    have hsome : (e.checked stage).constant? ≠ none := by
      intro hnone
      simp [isOpenLength, binding?_checked, hb, hnone] at hclosed
    obtain ⟨k, hk⟩ := Option.ne_none_iff_exists'.mp hsome
    have hfold := Outcome.value?_eq_some_iff.mp hk
    have hknown : e.knownTy = none := by
      rw [knownTy_of_bound h, hb]
      rfl
    rw [fold_length_checked h hb hfold] at hc
    rw [fold_length_of_fold hknown (he k hfold)]
    exact hc

/-- Without open lengths a bound expression folds to what it folds to after a check. -/
theorem foldsAs_of_checked {e : Expr} (h : Part.All Part.Bound e.parts)
    (hclosed : ∀ d ∈ (e.checked stage).visited, d.isOpenLength = false) :
    (e.checked stage).FoldsAs e := by
  -- Only a length reads the types that the check has added; all other nodes fold by their parts.
  induction e using Expr.induction with
  | int | float | bool | var =>
    intro c hc
    simpa only [checked_int, checked_float, checked_bool, checked_var, fold] using hc
  | update | assign | comma =>
    intro c hc
    simp only [checked_update, checked_assign, checked_comma, fold] at hc
    cases hc
  | unary op e n ih =>
    rw [checked_unary] at hclosed ⊢
    exact (ih (Part.all_cons.mp h).2 (List.forall_mem_cons.mp hclosed).2).unary op
  | binary op l r n ihl ihr =>
    simp only [parts, Part.all_cons, Part.all_append] at h
    rw [checked_binary] at hclosed ⊢
    obtain ⟨hl, hr⟩ := List.forall_mem_append.mp (List.forall_mem_cons.mp hclosed).2
    exact (ihl h.2.1 hl).binary (ihr h.2.2 hr) op
  | ternary c t e n ihc iht ihe =>
    simp only [parts, Part.all_cons, Part.all_append] at h
    rw [checked_ternary] at hclosed ⊢
    obtain ⟨hct, he⟩ := List.forall_mem_append.mp (List.forall_mem_cons.mp hclosed).2
    obtain ⟨hc, ht⟩ := List.forall_mem_append.mp hct
    exact (ihc h.2.1.1 hc).ternary (iht h.2.1.2 ht) (ihe h.2.2 he)
  | call callee suffix args target n _ ih =>
    simp only [parts, Part.all_cons, Part.all_append, all_allParts] at h
    rw [checked_call] at hclosed ⊢
    have hargs := (List.forall_mem_cons.mp hclosed).2
    refine FoldsAs.call (List.forall₂_map_left_iff.mpr (List.forall₂_same.mpr ?_)) callee suffix target
    intro a ha
    refine ih a ha (h.2.2 a ha) fun d hd => hargs d ?_
    exact mem_allVisited.mpr ⟨_, List.mem_map_of_mem ha, hd⟩
  | field e x n ih =>
    rw [checked_field] at hclosed ⊢
    exact (ih (Part.all_cons.mp h).2 (List.forall_mem_cons.mp hclosed).2).field x
  | index a i n iha ihi =>
    simp only [parts, Part.all_cons, Part.all_append] at h
    rw [checked_index] at hclosed ⊢
    obtain ⟨ha, hi⟩ := List.forall_mem_append.mp (List.forall_mem_cons.mp hclosed).2
    exact (iha h.2.1 ha).index (ihi h.2.2 hi)
  | length e n ih =>
    rw [checked_length] at hclosed ⊢
    obtain ⟨hnode, hclosed⟩ := List.forall_mem_cons.mp hclosed
    have he := (Part.all_cons.mp h).2
    exact .of_length_checked he hnode (ih he hclosed)

theorem foldAll_value_of_mem {es : List Expr} {cs : List Constant} (hc : foldAll es = .value cs)
    {e : Expr} (he : e ∈ es) : ∃ k, e.fold = .value k := by
  induction es generalizing cs with
  | nil => cases he
  | cons a es ih =>
    simp only [foldAll] at hc
    obtain ⟨k, hk, hc⟩ := Outcome.bind_eq_value hc
    obtain ⟨ks, hks, -⟩ := Outcome.bind_eq_value hc
    rcases List.mem_cons.mp he with rfl | he
    · exact ⟨k, hk⟩
    · exact ih hks he

theorem not_isOpenLength_of_fold {e : Expr} (h : Part.All Part.Bound e.parts) {c : Constant}
    (hc : e.fold = .value c) : ∀ d ∈ (e.checked stage).visited, d.isOpenLength = false := by
  induction e using Expr.induction generalizing c with
  | int | float | bool | var =>
    simp [checked_int, checked_float, checked_bool, checked_var, visited, isOpenLength]
  | update | assign | comma =>
    -- None of these ever folds.
    simp only [fold] at hc
    cases hc
  | unary op e n ih =>
    simp only [fold] at hc
    obtain ⟨k, hk, -⟩ := Outcome.bind_eq_value hc
    rw [checked_unary]
    exact List.forall_mem_cons.mpr ⟨rfl, ih (Part.all_cons.mp h).2 hk⟩
  | field e x n ih =>
    simp only [fold] at hc
    obtain ⟨k, hk, -⟩ := Outcome.bind_eq_value hc
    rw [checked_field]
    exact List.forall_mem_cons.mpr ⟨rfl, ih (Part.all_cons.mp h).2 hk⟩
  | binary op l r n ihl ihr =>
    simp only [parts, Part.all_cons, Part.all_append] at h
    simp only [fold] at hc
    obtain ⟨j, hj, hc⟩ := Outcome.bind_eq_value hc
    obtain ⟨k, hk, -⟩ := Outcome.bind_eq_value hc
    rw [checked_binary]
    exact List.forall_mem_cons.mpr ⟨rfl, List.forall_mem_append.mpr ⟨ihl h.2.1 hj, ihr h.2.2 hk⟩⟩
  | index l r n ihl ihr =>
    simp only [parts, Part.all_cons, Part.all_append] at h
    simp only [fold] at hc
    obtain ⟨j, hj, hc⟩ := Outcome.bind_eq_value hc
    obtain ⟨k, hk, -⟩ := Outcome.bind_eq_value hc
    rw [checked_index]
    exact List.forall_mem_cons.mpr ⟨rfl, List.forall_mem_append.mpr ⟨ihl h.2.1 hj, ihr h.2.2 hk⟩⟩
  | ternary c t e n ihc iht ihe =>
    simp only [parts, Part.all_cons, Part.all_append] at h
    simp only [fold] at hc
    obtain ⟨i, hi, hc⟩ := Outcome.bind_eq_value hc
    obtain ⟨j, hj, hc⟩ := Outcome.bind_eq_value hc
    obtain ⟨k, hk, -⟩ := Outcome.bind_eq_value hc
    rw [checked_ternary]
    refine List.forall_mem_cons.mpr ⟨rfl, List.forall_mem_append.mpr ⟨?_, ihe h.2.2 hk⟩⟩
    exact List.forall_mem_append.mpr ⟨ihc h.2.1.1 hi, iht h.2.1.2 hj⟩
  | call callee suffix args target n _ ih =>
    simp only [parts, Part.all_cons, Part.all_append, all_allParts] at h
    simp only [fold] at hc
    obtain ⟨ks, hks, -⟩ := Outcome.bind_eq_value hc
    rw [checked_call]
    refine List.forall_mem_cons.mpr ⟨rfl, fun d hd => ?_⟩
    obtain ⟨_, hmem, hd⟩ := mem_allVisited.mp hd
    obtain ⟨a, ha, rfl⟩ := List.mem_map.mp hmem
    obtain ⟨k, hk⟩ := foldAll_value_of_mem hks ha
    exact ih a ha (h.2.2 a ha) hk d hd
  | length e n ih =>
    have he := (Part.all_cons.mp h).2
    rw [checked_length]
    cases hb : e.binding? with
    | some v =>
      obtain ⟨x, k, rfl⟩ := exists_var_of_binding? hb
      simp [checked_var, visited, isOpenLength, binding?]
    | none =>
      -- Before the check only a variable has a type, so this length comes from folding the operand.
      have hknown : e.knownTy = none := by
        rw [knownTy_of_bound he, hb]
        rfl
      simp only [fold, hknown] at hc
      obtain ⟨k, hk, -⟩ := Outcome.bind_eq_value hc
      have hconst : (e.checked stage).constant? = some k :=
        Outcome.value?_eq_some_iff.mpr (foldsAs_checked stage he k hk)
      refine List.forall_mem_cons.mpr ⟨?_, ih he hk⟩
      simp [isOpenLength, hconst]

end Expr

theorem Site.kept_nodes (stage : Stage) {p : Site}
    (h : ∀ e ∈ p.nodes, Part.All Part.Bound e.parts) :
    List.Forall₂ Expr.Kept p.nodes (p.mapExprs (Expr.checked stage)).nodes := by
  cases p with
  | root e => exact Expr.keptParts_checked stage (h e e.self_mem_nodes)
  | «variable» q d =>
    obtain ⟨name, array, init, span, binding⟩ := d
    cases init with
    | none => exact .nil
    | some e =>
      refine List.rel_append (Expr.keptParts_checked stage (h e ?_)) .nil
      simpa [Site.nodes] using e.self_mem_nodes
  | blockInstance d => exact List.forall₂_same.mpr fun e _ => ⟨rfl, .refl e⟩
  | parameter p => exact .nil

theorem kept_sites (stage : Stage) {ps : List Site}
    (h : ∀ e ∈ ps.flatMap Site.nodes, Part.All Part.Bound e.parts) :
    List.Forall₂ Expr.Kept (ps.flatMap Site.nodes)
      ((ps.map (.mapExprs (Expr.checked stage))).flatMap Site.nodes) := by
  induction ps with
  | nil => exact .nil
  | cons p ps ih =>
    rw [List.flatMap_cons] at h
    obtain ⟨hp, hps⟩ := List.forall_mem_append.mp h
    rw [List.map_cons, List.flatMap_cons, List.flatMap_cons]
    exact List.rel_append (Site.kept_nodes stage hp) (ih hps)

namespace TranslationUnit

variable {tree : TranslationUnit}

theorem bound_of_mem_nodes (h : Part.All Part.Bound (parts tree)) {e : Expr} (he : e ∈ nodes tree) :
    Part.All Part.Bound e.parts :=
  (closed_parts tree).all_parts h (mem_nodes.mp he)

/-- The expressions of a bound tree and of the tree after a check correspond, and what folds in the
one folds in the other. -/
theorem kept_nodes (stage : Stage) (h : Part.All Part.Bound (parts tree)) :
    List.Forall₂ Expr.Kept (nodes tree) (nodes (check stage tree).value) := by
  have hnodes := fun e he => bound_of_mem_nodes h (e := e) he
  rw [nodes_eq_sites] at hnodes
  rw [nodes_eq_sites, nodes_eq_sites, check_value, sites_mapExprs]
  exact kept_sites stage hnodes

end TranslationUnit

/-- Checking changes nothing in an expression but the recorded types, and what folds after binding
folds to the same constant after the check, at every node of the unit. -/
theorem constant_kept_by_check {source : String} {unit : TranslationUnit}
    (h : parse source = .ok unit) (stage : Stage) :
    List.Forall₂ (fun e e' => e'.untyped = e.untyped ∧
        ∀ c, e.constant? = some c → e'.constant? = some c)
      (TranslationUnit.nodes (bind unit).unit)
      (TranslationUnit.nodes (check stage (bind unit).unit).value) := by
  have hkept := TranslationUnit.kept_nodes stage (bind_bound (parse_bare h)).2
  refine hkept.imp fun e e' hee' => ⟨hee'.untyped, fun c hc => ?_⟩
  exact Outcome.value?_eq_some_iff.mpr (hee'.fold c (Outcome.value?_eq_some_iff.mp hc))

/-- An array size that is the length of a constant and one more. -/
def lengthSource : String :=
  "const int n = vec3(1.0).length() + 1; float a[n];"

theorem constant_kept_lengthSource :
    ∃ unit, parse lengthSource = .ok unit ∧
      (∃ e ∈ TranslationUnit.nodes (bind unit).unit, e.constant?.bind Constant.index? = some 4) ∧
      List.Forall₂ (fun e e' => e'.untyped = e.untyped ∧
          ∀ c, e.constant? = some c → e'.constant? = some c)
        (TranslationUnit.nodes (bind unit).unit)
        (TranslationUnit.nodes (check .fragment (bind unit).unit).value) := by
  have hany : ((parse lengthSource).toOption.any fun unit =>
      (TranslationUnit.nodes (bind unit).unit).any fun e =>
        decide (e.constant?.bind Constant.index? = some 4)) = true := by decide +kernel
  obtain ⟨unit, hparse, hnodes⟩ := exists_unit_of_any hany
  obtain ⟨e, he, hindex⟩ := List.any_eq_true.mp hnodes
  exact ⟨unit, hparse, ⟨e, he, of_decide_eq_true hindex⟩, constant_kept_by_check hparse .fragment⟩

end Shader
