import Shader.Proofs.Check.Rule
import Shader.Proofs.Parse.Extent

/-! Errors stay where they are. What a check of an expression reports is what the rules of its nodes
report, and a node with an operand of unknown type has nothing to say about that operand but that
it is no place to assign to. One rule breaks this: where only a constant index is allowed, an index
of unknown type is reported again as not constant. And a node may still compare operands that are
known: two branches are judged even if their condition is not. -/

namespace Shader

/-- The kinds of problem that compare types. -/
def mismatchCodes : List Code :=
  [.operatorMismatch, .typeMismatch, .noMatchingOverload, .invalidConstructor, .invalidSwizzle,
    .noSuchField]

/-- The array takes constant indices only: it is an output of a fragment shader, or it has
samplers in it. -/
def Expr.NeedsConstantIndex (stage : Stage) (array : Expr) : Prop :=
  ∃ t, array.ty = some t ∧ t.isArray = true ∧
    (stage = .fragment ∧ array.binding?.any Variable.isOutput = true ∨ t.isOpaque = true)

/-- The node is an index into such an array, and what is unknown is its index. -/
def Expr.AsksConstant (stage : Stage) (node operand : Expr) : Prop :=
  ∃ array n, node = .index array operand n ∧ array.NeedsConstantIndex stage

namespace Check

variable {stage : Stage}

theorem expr_comma (l r : Expr) (n : Note) :
    expr stage (.comma l r n) = do
      let l ← expr stage l
      let r ← expr stage r
      return .comma l r { n with ty := r.ty } := by
  rw [expr]

theorem expr_index (a i : Expr) (n : Note) :
    expr stage (.index a i n) = do
      let a ← expr stage a
      let i ← expr stage i
      let ty ← indexTy stage a i n.span
      return .index a i { n with ty } := by
  rw [expr]

def ruleProblems (stage : Stage) (node : Expr) : List Diagnostic :=
  (rule stage node).problems

theorem perm_node {e : Expr} {ds : List Expr} {all ps : List Diagnostic}
    (hvisited : e.visited = e :: ds) (hps : ps.Perm (ds.flatMap (ruleProblems stage)))
    (hall : all.Perm (ps ++ ruleProblems stage e)) :
    all.Perm (e.visited.flatMap (ruleProblems stage)) := by
  rw [hvisited, List.flatMap_cons]
  exact hall.trans (List.perm_append_comm.trans (hps.append_left _))

theorem perm_append {ps qs : List Diagnostic} {ds es : List Expr}
    (hps : ps.Perm (ds.flatMap (ruleProblems stage)))
    (hqs : qs.Perm (es.flatMap (ruleProblems stage))) :
    (ps ++ qs).Perm ((ds ++ es).flatMap (ruleProblems stage)) := by
  rw [List.flatMap_append]
  exact hps.append hqs

theorem perm_exprs {es : List Expr}
    (h : ∀ e ∈ es, (expr stage e).problems.Perm
      ((e.checked stage).visited.flatMap (ruleProblems stage))) :
    (exprs stage es).problems.Perm
      ((Expr.allVisited (es.map (Expr.checked stage))).flatMap (ruleProblems stage)) := by
  induction es with
  | nil => exact .refl _
  | cons e es ih =>
    rw [exprs_problems, List.flatMap_cons, ← exprs_problems]
    exact perm_append (h e (by simp)) (ih fun d hd => h d (by simp [hd]))

/-- A check reports what the rules report at the nodes that it visits, and nothing else. -/
theorem problems_perm (stage : Stage) (e : Expr) :
    (expr stage e).problems.Perm ((e.checked stage).visited.flatMap (ruleProblems stage)) := by
  induction e using Expr.induction with
  | int text n =>
    rw [Expr.checked_int]
    refine perm_node rfl (.refl _) (.of_eq ?_)
    unfold expr
    simp only [ruleProblems, rule]
    cases Literal.int text <;> rfl
  | float text n =>
    rw [Expr.checked_float]
    exact perm_node rfl (.refl _) (.refl _)
  | bool b n =>
    rw [Expr.checked_bool]
    exact perm_node rfl (.refl _) (.refl _)
  | var x binding n =>
    rw [Expr.checked_var]
    exact perm_node rfl (.refl _) (.refl _)
  | unary op e n ih =>
    rw [Expr.checked_unary, expr_unary]
    refine perm_node rfl ih (.of_eq ?_)
    simp only [Checked.problems_bind, Checked.problems_pure, List.append_nil]
    rfl
  | update op before e n ih =>
    rw [Expr.checked_update, expr_update]
    refine perm_node rfl ih (.of_eq ?_)
    simp only [Checked.problems_bind, Checked.problems_pure, List.append_nil]
    rfl
  | binary op l r n ihl ihr =>
    rw [Expr.checked_binary, expr_binary]
    refine perm_node rfl (perm_append ihl ihr) (.of_eq ?_)
    simp only [Checked.problems_bind, Checked.problems_pure, List.append_nil, List.append_assoc]
    rfl
  | assign op t v n iht ihv =>
    rw [Expr.checked_assign, expr_assign]
    refine perm_node rfl (perm_append iht ihv) (.of_eq ?_)
    simp only [Checked.problems_bind, Checked.problems_pure, List.append_nil, List.append_assoc]
    rfl
  | ternary c t e n ihc iht ihe =>
    rw [Expr.checked_ternary, expr_ternary]
    refine perm_node rfl (perm_append (perm_append ihc iht) ihe) ?_
    simp only [Checked.problems_bind, Checked.problems_pure, List.append_nil, ruleProblems, rule,
      List.append_assoc]
    -- The condition is judged before the branches are checked.
    refine List.Perm.append_left _ ?_
    simp only [← List.append_assoc]
    refine List.Perm.append_right _ ?_
    rw [List.append_assoc, List.append_assoc]
    exact List.perm_append_comm.trans (.of_eq (List.append_assoc ..))
  | comma l r n ihl ihr =>
    rw [Expr.checked_comma, expr_comma]
    refine perm_node rfl (perm_append ihl ihr) (.of_eq ?_)
    simp only [Checked.problems_bind, Checked.problems_pure, List.append_assoc]
    rfl
  | call callee suffix args target n _ ihargs =>
    rw [Expr.checked_call, expr_call]
    refine perm_node rfl (perm_exprs ihargs) (.of_eq ?_)
    simp only [Checked.problems_bind, Checked.problems_pure, List.append_nil, exprs_value]
    rfl
  | field e x n ih =>
    rw [Expr.checked_field, expr_field]
    refine perm_node rfl ih (.of_eq ?_)
    simp only [Checked.problems_bind, Checked.problems_pure, List.append_nil]
    rfl
  | index a i n iha ihi =>
    rw [Expr.checked_index, expr_index]
    refine perm_node rfl (perm_append iha ihi) (.of_eq ?_)
    simp only [Checked.problems_bind, Checked.problems_pure, List.append_nil, List.append_assoc]
    rfl
  | length e n ih =>
    rw [Expr.checked_length, expr_length]
    refine perm_node rfl ih (.of_eq ?_)
    simp only [Checked.problems_bind, Checked.problems_pure, List.append_nil]
    rfl

/-- What a node with an operand of unknown type can still report: that an operand is no place to
assign to, what is wrong with an operand of known type, and what is wrong with the branches of a
condition that is unknown. -/
inductive Remark (stage : Stage) : Expr → Diagnostic → Prop where
  | place {node e : Expr} (he : e ∈ node.operands) (operation : String) (why : NotAssignable) :
    Remark stage node ⟨e.span, .expr (.notAssignable operation why)⟩
  | condition {c t e : Expr} {n : Note} {ty : Ty} (hc : c.ty = some ty) :
    Remark stage (.ternary c t e n) ⟨c.span, .stmt (.conditionNotBool ty)⟩
  | branches {c t e : Expr} {n : Note} {a b : Ty} (ht : t.ty = some a) (he : e.ty = some b) :
    Remark stage (.ternary c t e n) ⟨n.span, .expr (.branches a b)⟩
  | index {a i : Expr} {n : Note} {ty : Ty} (hi : i.ty = some ty) :
    Remark stage (.index a i n) ⟨i.span, .expr (.indexType ty)⟩
  | array {a i : Expr} {n : Note} {ty : Ty} (ha : a.ty = some ty) :
    Remark stage (.index a i n) ⟨n.span, .expr (.notIndexable ty)⟩
  | constant {a i : Expr} {n : Note} {p : ExprProblem} (hi : i.ty = none)
    (ha : a.NeedsConstantIndex stage) (hp : p.code = .notConstant) :
    Remark stage (.index a i n) ⟨i.span, .expr p⟩

theorem problems_require {holds : Bool} {p : Problem} {span : Span} {d : Diagnostic}
    (hd : d ∈ (require holds p span).problems) : holds = false ∧ d = ⟨span, p⟩ := by
  cases holds with
  | true => cases hd
  | false => exact ⟨rfl, List.mem_singleton.mp hd⟩

theorem remark_requireAssignable {node e : Expr} {operation : String} (he : e ∈ node.operands) :
    ∀ d ∈ (requireAssignable e operation).problems, Remark stage node d := by
  intro d hd
  unfold requireAssignable at hd
  split at hd
  · obtain rfl := List.mem_singleton.mp hd
    exact .place he operation _
  · cases hd

theorem mapM_ty_of_unknown {args : List Expr} {s : Expr} (hs : s ∈ args) (hty : s.ty = none) :
    args.mapM Expr.ty = none := by
  induction args with
  | nil => cases hs
  | cons a args ih =>
    rw [List.mapM_cons]
    rcases List.mem_cons.mp hs with rfl | hs
    · rw [hty]
      rfl
    · rw [ih hs]
      cases a.ty <;> rfl

/-- Neither a constructor nor a function judges its arguments if one of them is unknown. -/
theorem problems_targetTy_of_unknown {target : Target} {args : List Expr} {span : Span} {s : Expr}
    (hs : s ∈ args) (hty : s.ty = none) : (targetTy stage target args span).problems = [] := by
  have hnone := mapM_ty_of_unknown hs hty
  cases target with
  | unresolved => rfl
  | constructor t => simp only [targetTy, constructTy, hnone]; rfl
  | function f => simp only [targetTy, callTy, hnone]; rfl

theorem problems_ofTy_of_unknown {l r : Option Ty} {rule : Ty → Ty → Checked (Option Ty)}
    (h : l = none ∨ r = none) : (ofTy l fun a => ofTy r fun b => rule a b).problems = [] := by
  rcases h with rfl | rfl
  · rfl
  · cases l <;> rfl

theorem remark_requireBool {c t e : Expr} {n : Note} :
    ∀ d ∈ (requireBool c).problems, Remark stage (.ternary c t e n) d := by
  intro d hd
  unfold requireBool at hd
  split at hd
  · rename_i ty hc
    obtain ⟨-, rfl⟩ := problems_require hd
    exact .condition hc
  · cases hd

theorem remark_branches {c t e : Expr} {n : Note} :
    ∀ d ∈ (ofTy t.ty fun a => ofTy e.ty fun b => branchTy a b n.span).problems,
      Remark stage (.ternary c t e n) d := by
  intro d hd
  cases ht : t.ty with
  | none =>
    rw [ht] at hd
    cases hd
  | some a =>
    cases he : e.ty with
    | none =>
      rw [ht, he] at hd
      cases hd
    | some b =>
      rw [ht, he] at hd
      simp only [ofTy, branchTy] at hd
      split at hd
      · cases hd
      · obtain rfl := List.mem_singleton.mp hd
        exact .branches ht he

theorem checkIndex_of_unknown {a i : Expr} {ty : Ty} {bound : Option Nat} (hi : i.ty = none) :
    checkIndex stage a ty bound i =
      if ty.isArray then
        if stage = .fragment && a.binding?.any Variable.isOutput then
          report (.expr .outputIndex) i.span
        else require (!ty.isOpaque) (.expr .samplerIndex) i.span
      else pure () := by
  unfold checkIndex
  simp [hi]

theorem remark_checkIndex {a i : Expr} {n : Note} {ty : Ty} {bound : Option Nat}
    (ha : a.ty = some ty) (hi : i.ty = none) :
    ∀ d ∈ (checkIndex stage a ty bound i).problems, Remark stage (.index a i n) d := by
  intro d hd
  rw [checkIndex_of_unknown hi] at hd
  split at hd
  · rename_i harray
    split at hd
    · rename_i houtput
      obtain ⟨hstage, hbinding⟩ := Bool.and_eq_true_iff.mp houtput
      obtain rfl := List.mem_singleton.mp hd
      exact .constant hi ⟨ty, ha, harray, .inl ⟨of_decide_eq_true hstage, hbinding⟩⟩ rfl
    · obtain ⟨hsamplers, rfl⟩ := problems_require hd
      exact .constant hi ⟨ty, ha, harray, .inr (by simpa using hsamplers)⟩ rfl
  · cases hd

theorem mem_problems_element {a i : Expr} {ty : Ty} {span : Span} {d : Diagnostic}
    (ha : a.ty = some ty) (hi : i.ty = none) (hd : d ∈ (indexTy stage a i span).problems) :
    d = ⟨span, .expr (.notIndexable ty)⟩ ∨
      ∃ bound, d ∈ (checkIndex stage a ty bound i).problems := by
  unfold indexTy at hd
  cases helement : elementOf? ty with
  | none =>
    simp only [hi, ha, helement] at hd
    exact .inl (List.mem_singleton.mp hd)
  | some r =>
    simp only [hi, ha, helement, Checked.problems_bind, Checked.problems_pure,
      List.append_nil] at hd
    exact .inr ⟨r.2, hd⟩

theorem mem_problems_indexTy {a i : Expr} {span : Span} {d : Diagnostic}
    (ha : a.ty = none) (hd : d ∈ (indexTy stage a i span).problems) :
    ∃ ty, i.ty = some ty ∧ d = ⟨i.span, .expr (.indexType ty)⟩ := by
  unfold indexTy at hd
  cases hi : i.ty with
  | none =>
    simp only [hi, ha] at hd
    cases hd
  | some ty =>
    simp only [hi, ha, Checked.problems_bind, Checked.problems_pure, List.append_nil] at hd
    exact ⟨ty, rfl, (problems_require hd).2⟩

theorem remark_index {a i s : Expr} {n : Note} (hs : s ∈ [a, i]) (hty : s.ty = none) :
    ∀ d ∈ (indexTy stage a i n.span).problems, Remark stage (.index a i n) d := by
  intro d hd
  cases ha : a.ty with
  | none =>
    obtain ⟨ty, hi, rfl⟩ := mem_problems_indexTy ha hd
    exact .index hi
  | some ty =>
    -- The array has a type, so the index is the operand that has none.
    have hne : s ≠ a := fun heq => by simp [← heq, hty] at ha
    have hsi : s = i := by simpa [hne] using hs
    have hi : i.ty = none := hsi ▸ hty
    rcases mem_problems_element ha hi hd with rfl | ⟨bound, hd⟩
    · exact .array ha
    · exact remark_checkIndex ha hi d hd

/-- A node with an operand of unknown type says nothing that depends on that type. -/
theorem remark_of_unknown {node s : Expr} (hs : s ∈ node.operands) (hty : s.ty = none) :
    ∀ d ∈ ruleProblems stage node, Remark stage node d := by
  have hpair : ∀ {l r : Expr}, s ∈ [l, r] → l.ty = none ∨ r.ty = none := by
    intro l r hs
    simp only [List.mem_cons, List.not_mem_nil, or_false] at hs
    rcases hs with rfl | rfl
    · exact .inl hty
    · exact .inr hty
  have hone : ∀ {e : Expr}, s ∈ [e] → e.ty = none := fun hs => List.mem_singleton.mp hs ▸ hty
  intro d hd
  cases node with
  | int | float | bool | var => cases hs
  | unary op e n | field e x n | length e n =>
    simp only [ruleProblems, rule, hone hs] at hd
    cases hd
  | update op before e n =>
    rcases List.mem_append.mp hd with hd | hd
    · exact remark_requireAssignable (List.mem_singleton_self e) d hd
    · rw [hone hs] at hd
      cases hd
  | binary op l r n =>
    simp only [ruleProblems, rule, problems_ofTy_of_unknown (hpair hs)] at hd
    cases hd
  | assign op t v n =>
    rcases List.mem_append.mp hd with hd | hd
    · exact remark_requireAssignable List.mem_cons_self d hd
    · rw [problems_ofTy_of_unknown (hpair hs)] at hd
      cases hd
  | ternary c t e n =>
    rcases List.mem_append.mp hd with hd | hd
    · exact remark_requireBool d hd
    · exact remark_branches d hd
  | comma l r n => cases hd
  | call callee suffix args target n =>
    have hnil : ruleProblems stage (.call callee suffix args target n) = [] :=
      problems_targetTy_of_unknown hs hty
    rw [hnil] at hd
    cases hd
  | index a i n => exact remark_index hs hty d hd

end Check

/-- The spans of the nodes, each with those of its operands. -/
def Expr.layout (e : Expr) : List (Span × List Span) :=
  e.visited.map fun d => (d.span, d.operands.map Expr.span)

theorem Expr.allVisited_eq (es : List Expr) : Expr.allVisited es = es.flatMap Expr.visited := by
  induction es with
  | nil => rfl
  | cons e es ih => rw [Expr.allVisited, ih, List.flatMap_cons]

theorem Expr.visited_eq (e : Expr) : e.visited = e :: e.operands.flatMap Expr.visited := by
  cases e <;> simp [visited, operands, allVisited_eq]

theorem Expr.layout_eq (e : Expr) :
    e.layout = (e.span, e.operands.map Expr.span) :: (e.operands.map Expr.layout).flatten := by
  rw [layout, visited_eq, List.map_cons, List.map_flatMap, List.flatMap_def]
  rfl

theorem layout_congr {d e : Expr} (hspan : d.span = e.span)
    (h : d.operands.map Expr.layout = e.operands.map Expr.layout) : d.layout = e.layout := by
  have hfirst : Expr.span = (fun l : List (Span × List Span) => (l.headD (⟨0, 0⟩, [])).1) ∘
      Expr.layout := by
    funext f
    rw [Function.comp_apply, f.layout_eq]
    rfl
  have hspans : d.operands.map Expr.span = e.operands.map Expr.span := by
    rw [hfirst, ← List.map_map, h, List.map_map]
  rw [d.layout_eq, e.layout_eq, hspan, hspans, h]

theorem layout_checked (stage : Stage) (e : Expr) : (e.checked stage).layout = e.layout := by
  induction e using Expr.induction with
  | int text n =>
    rw [Expr.checked_int]
    exact layout_congr rfl rfl
  | float text n =>
    rw [Expr.checked_float]
    exact layout_congr rfl rfl
  | bool b n =>
    rw [Expr.checked_bool]
    exact layout_congr rfl rfl
  | var x binding n =>
    rw [Expr.checked_var]
    exact layout_congr rfl rfl
  | unary op e n ih =>
    rw [Expr.checked_unary]
    exact layout_congr rfl (by simp only [Expr.operands, List.map_cons, ih, List.map_nil])
  | update op before e n ih =>
    rw [Expr.checked_update]
    exact layout_congr rfl (by simp only [Expr.operands, List.map_cons, ih, List.map_nil])
  | field e x n ih =>
    rw [Expr.checked_field]
    exact layout_congr rfl (by simp only [Expr.operands, List.map_cons, ih, List.map_nil])
  | length e n ih =>
    rw [Expr.checked_length]
    exact layout_congr rfl (by simp only [Expr.operands, List.map_cons, ih, List.map_nil])
  | binary op l r n ihl ihr =>
    rw [Expr.checked_binary]
    exact layout_congr rfl (by simp only [Expr.operands, List.map_cons, ihl, ihr, List.map_nil])
  | assign op l r n ihl ihr =>
    rw [Expr.checked_assign]
    exact layout_congr rfl (by simp only [Expr.operands, List.map_cons, ihl, ihr, List.map_nil])
  | comma l r n ihl ihr =>
    rw [Expr.checked_comma]
    exact layout_congr rfl (by simp only [Expr.operands, List.map_cons, ihl, ihr, List.map_nil])
  | index l r n ihl ihr =>
    rw [Expr.checked_index]
    exact layout_congr rfl (by simp only [Expr.operands, List.map_cons, ihl, ihr, List.map_nil])
  | ternary c t e n ihc iht ihe =>
    rw [Expr.checked_ternary]
    refine layout_congr rfl ?_
    simp only [Expr.operands, List.map_cons, ihc, iht, ihe, List.map_nil]
  | call callee suffix args target n _ ih =>
    rw [Expr.checked_call]
    refine layout_congr rfl ?_
    simp only [Expr.operands, List.map_map]
    exact List.map_congr_left ih

namespace Bind

/-- Whatever the scopes are, what comes out has the property. -/
def Returns {α : Type} (x : Bind α) (Q : α → Prop) : Prop :=
  ∀ s, Q (x.run s).1

section Returns

variable {α β : Type} {x : Bind α} {P Q : α → Prop} {R : β → Prop}

theorem Returns.pure {a : α} (h : Q a) : Returns (pure a) Q :=
  fun _ => h

theorem Returns.bind {f : α → Bind β} (hx : Returns x P) (hf : ∀ a, P a → Returns (f a) R) :
    Returns (x >>= f) R :=
  fun s => hf _ (hx s) (x.run s).2

theorem returns_then {f : α → Bind β} (hf : ∀ a, Returns (f a) R) : Returns (x >>= f) R :=
  fun s => hf _ (x.run s).2

end Returns

def KeepsLayout (e : Expr) : Prop :=
  Returns (expr e) fun d => d.layout = e.layout

theorem returns_exprs {es : List Expr} (h : ∀ e ∈ es, KeepsLayout e) :
    Returns (exprs es) fun ds => ds.map Expr.layout = es.map Expr.layout := by
  induction es with
  | nil => exact .pure rfl
  | cons e es ih =>
    unfold exprs
    refine (h e (by simp)).bind fun d hd => ?_
    refine (ih fun a ha => h a (by simp [ha])).bind fun ds hds => .pure ?_
    rw [List.map_cons, List.map_cons, hd, hds]

theorem keepsLayout (e : Expr) : KeepsLayout e := by
  induction e using Expr.induction with
  | int text n | float text n | bool b n =>
    unfold KeepsLayout expr
    exact .pure rfl
  | var x binding n =>
    unfold KeepsLayout expr
    exact returns_then fun _ => .pure (layout_congr rfl rfl)
  | unary op e n ih | update op before e n ih | field e x n ih | length e n ih =>
    unfold KeepsLayout expr
    refine ih.bind fun d hd => .pure (layout_congr rfl ?_)
    simp only [Expr.operands, List.map_cons, hd, List.map_nil]
  | binary op l r n ihl ihr | assign op l r n ihl ihr | comma l r n ihl ihr | index l r n ihl ihr =>
    unfold KeepsLayout expr
    refine ihl.bind fun d hd => ihr.bind fun f hf => .pure (layout_congr rfl ?_)
    simp only [Expr.operands, List.map_cons, hd, hf, List.map_nil]
  | ternary c t e n ihc iht ihe =>
    unfold KeepsLayout expr
    refine ihc.bind fun d hd => iht.bind fun f hf => ihe.bind fun g hg => .pure ?_
    refine layout_congr rfl ?_
    simp only [Expr.operands, List.map_cons, hd, hf, hg, List.map_nil]
  | call callee suffix args target n _ ih =>
    unfold KeepsLayout expr
    refine (returns_exprs ih).bind fun ds hds => ?_
    split
    · exact returns_then fun _ => .pure (layout_congr rfl hds)
    · exact returns_then fun _ => returns_then fun _ => .pure (layout_congr rfl hds)
    · exact returns_then fun _ => .pure (layout_congr rfl hds)

end Bind

theorem all_visited {P : Part → Prop} {e : Expr} (h : Part.All P e.parts) :
    ∀ d ∈ e.visited, P (.node d) := by
  induction e using Expr.induction with
  | int text n | float text n | bool b n | var x binding n =>
    rintro d hd
    obtain rfl := List.mem_singleton.mp hd
    exact (Part.all_cons.mp h).1
  | unary op e n ih | update op before e n ih | field e x n ih | length e n ih =>
    obtain ⟨hself, he⟩ := Part.all_cons.mp h
    exact List.forall_mem_cons.mpr ⟨hself, ih he⟩
  | binary op l r n ihl ihr | assign op l r n ihl ihr | comma l r n ihl ihr | index l r n ihl ihr =>
    obtain ⟨hself, hlr⟩ := Part.all_cons.mp h
    obtain ⟨hl, hr⟩ := Part.all_append.mp hlr
    exact List.forall_mem_cons.mpr ⟨hself, List.forall_mem_append.mpr ⟨ihl hl, ihr hr⟩⟩
  | ternary c t e n ihc iht ihe =>
    obtain ⟨hself, hcte⟩ := Part.all_cons.mp h
    obtain ⟨hct, he⟩ := Part.all_append.mp hcte
    obtain ⟨hc, ht⟩ := Part.all_append.mp hct
    refine List.forall_mem_cons.mpr ⟨hself, List.forall_mem_append.mpr ⟨?_, ihe he⟩⟩
    exact List.forall_mem_append.mpr ⟨ihc hc, iht ht⟩
  | call callee suffix args target n _ ih =>
    obtain ⟨hself, hargs⟩ := Part.all_cons.mp h
    have hargs := Expr.all_allParts.mp (Part.all_append.mp hargs).2
    refine List.forall_mem_cons.mpr ⟨hself, fun d hd => ?_⟩
    obtain ⟨a, ha, hd⟩ := Expr.mem_allVisited.mp hd
    exact ih a ha (hargs a ha) d hd

/-- In what was read, bound and checked, operands stand one after the other inside their nodes. -/
theorem spaces_checked {p : Nat} {c : Cursor} {e : Expr} (h : Parse.Reaches p e c) (s : BindState)
    (stage : Stage) :
    ∀ node ∈ (((Bind.expr e).run s).1.checked stage).visited,
      node.span.Spaces (node.operands.map Expr.span) := by
  intro node hnode
  have hlayout : (((Bind.expr e).run s).1.checked stage).layout = e.layout :=
    (layout_checked stage _).trans (Bind.keepsLayout e s)
  have hmem : (node.span, node.operands.map Expr.span) ∈ e.layout := by
    rw [← hlayout]
    exact List.mem_map.mpr ⟨node, hnode, rfl⟩
  obtain ⟨d, hd, heq⟩ := List.mem_map.mp hmem
  have hspaces : d.span.Spaces (d.operands.map Expr.span) := all_visited h.spaced d hd
  obtain ⟨hspan, hoperands⟩ := Prod.mk.inj heq
  rwa [← hspan, ← hoperands]

/-- The node compares its branches, whose types are known, whatever its condition is. -/
def Expr.ComparesBranches (node : Expr) : Prop :=
  ∃ c t e n, node = .ternary c t e n ∧ t.ty.isSome = true ∧ e.ty.isSome = true

theorem apart_of_ne {es : List Expr} {s t : Expr}
    (h : es.Pairwise fun a b => a.span.stop ≤ b.span.start) (hs : s ∈ es) (ht : t ∈ es)
    (hne : t ≠ s) : t.span.stop ≤ s.span.start ∨ s.span.stop ≤ t.span.start := by
  induction h with
  | nil => cases hs
  | cons hfirst _ ih =>
    rcases List.mem_cons.mp hs with rfl | hs'
    · exact .inr (hfirst t ((List.mem_cons.mp ht).resolve_left hne))
    · rcases List.mem_cons.mp ht with rfl | ht'
      · exact .inl (hfirst s hs')
      · exact ih hs' ht'

section Spaces

variable {node s t : Expr} (h : node.span.Spaces (node.operands.map Expr.span))
  (hs : s ∈ node.operands)

include h hs

theorem span_ne_node : node.span ≠ s.span := by
  intro heq
  have hshorter := (h.2 s.span (List.mem_map_of_mem hs)).2.2.2
  rw [heq] at hshorter
  exact Nat.lt_irrefl _ hshorter

theorem span_ne_operand (ht : t ∈ node.operands) (hne : t ≠ s) : t.span ≠ s.span := by
  have hfilled := (h.2 s.span (List.mem_map_of_mem hs)).2.1
  have hapart := apart_of_ne (List.pairwise_map.mp h.1) hs ht hne
  intro heq
  rw [heq] at hapart
  omega

/-- A remark stands at an operand of known type or at the node itself, and compares no types, but
for the remarks that its cases tell apart. -/
theorem Check.Remark.contained {stage : Stage} {d : Diagnostic} (hty : s.ty = none)
    (hd : Check.Remark stage node d) :
    (d.span = s.span → d.code = .notAnLvalue ∨ node.AsksConstant stage s) ∧
      (d.code ∈ mismatchCodes → d.code = .typeMismatch ∧ node.ComparesBranches) := by
  -- Operands stand apart, so one of known type stands elsewhere than `s`.
  have hknown : ∀ {e : Expr} {ty : Ty}, e ∈ node.operands → e.ty = some ty → e.span ≠ s.span := by
    intro e ty he hsome
    refine span_ne_operand h hs he ?_
    rintro rfl
    rw [hty] at hsome
    cases hsome
  cases hd with
  | place he operation why =>
    refine ⟨fun _ => .inl rfl, ?_⟩
    simp [Diagnostic.code, Problem.code, ExprProblem.code, mismatchCodes]
  | condition hc =>
    refine ⟨fun heq => (hknown (by simp [Expr.operands]) hc heq).elim, ?_⟩
    simp [Diagnostic.code, Problem.code, StmtProblem.code, mismatchCodes]
  | branches ht he =>
    refine ⟨fun heq => (span_ne_node h hs heq).elim, fun _ => ⟨rfl, _, _, _, _, rfl, ?_, ?_⟩⟩
    · simp [ht]
    · simp [he]
  | index hi =>
    refine ⟨fun heq => (hknown (by simp [Expr.operands]) hi heq).elim, ?_⟩
    simp [Diagnostic.code, Problem.code, ExprProblem.code, mismatchCodes]
  | array ha =>
    refine ⟨fun heq => (span_ne_node h hs heq).elim, ?_⟩
    simp [Diagnostic.code, Problem.code, ExprProblem.code, mismatchCodes]
  | @constant a i n p hi ha hp =>
    refine ⟨fun heq => .inr ?_, ?_⟩
    · have hsi : i = s := by
        by_contra hne
        exact span_ne_operand h hs (by simp [Expr.operands]) hne heq
      subst hsi
      exact ⟨a, n, rfl, ha⟩
    · simp [Diagnostic.code, Problem.code, hp, mismatchCodes]

end Spaces

/-- An expression of a source, however it was bound: its problems are those of the rules of its
nodes, and where an operand is of unknown type, nothing is reported at it but that it is no place to
assign to, and no types are compared but those of two branches that are known. An index is left out
where only constants may stand. -/
theorem unknown_operand_contained {source : String} {tokens : List Token}
    (htokens : tokenize source = .ok tokens) {c c' : Cursor} (hc : c.tokens <:+ tokens) {n : Nat}
    {parser : Parser Expr}
    (hparser : parser ∈ [Parse.expression n, Parse.assignment n, Parse.conditional n]) {e : Expr}
    (hread : parser c = .ok (e, c')) (s : BindState) (stage : Stage) :
    let bound := ((Bind.expr e).run s).1
    (Check.expr stage bound).problems.Perm
        ((bound.checked stage).visited.flatMap (Check.ruleProblems stage)) ∧
      ∀ node ∈ (bound.checked stage).visited, ∀ operand ∈ node.operands, operand.ty = none →
        ∀ d ∈ Check.ruleProblems stage node,
          (d.span = operand.span → d.code = .notAnLvalue ∨ node.AsksConstant stage operand) ∧
            (d.code ∈ mismatchCodes → d.code = .typeMismatch ∧ node.ComparesBranches) := by
  have hordered := (inOrder_of_tokenize htokens).of_suffix hc (by simp [Cursor.tokens])
  have hreaches := Parse.reaches_of_read hparser hordered hread
  refine ⟨Check.problems_perm stage _, fun node hnode operand hoperand hty d hd => ?_⟩
  have hspaces := spaces_checked hreaches s stage node hnode
  exact (Check.remark_of_unknown hoperand hty d hd).contained hspaces hoperand hty

/-- `missing ? 1 : 1.0`, where the condition is not declared. -/
def missingChoice : Expr :=
  .ternary (.var "missing" none ⟨⟨0, 7⟩, none⟩) (.int "1" ⟨⟨10, 11⟩, none⟩)
    (.float "1.0" ⟨⟨14, 17⟩, none⟩) ⟨⟨0, 17⟩, none⟩

/-- Branches are compared even if nothing is known of the condition. -/
theorem missingChoice_compared :
    ((Bind.expr missingChoice).run ⟨.new none, 0, []⟩).1 = missingChoice ∧
      (missingChoice.checked .any).operands.map Expr.ty = [none, some .int, some .float] ∧
      (Check.ruleProblems .any (missingChoice.checked .any)).map (fun d => (d.span, d.code)) =
        [(missingChoice.span, .typeMismatch)] :=
  ⟨rfl, rfl, rfl⟩

/-- The tokens of `(missing + 1) = 2`. -/
def sumTokens : List Token :=
  [⟨.mark .lParen, ⟨0, 1⟩⟩, ⟨.identifier "missing", ⟨1, 8⟩⟩, ⟨.mark .plus, ⟨9, 10⟩⟩,
    ⟨.intLiteral "1", ⟨11, 12⟩⟩, ⟨.mark .rParen, ⟨12, 13⟩⟩, ⟨.mark .eq, ⟨14, 15⟩⟩,
    ⟨.intLiteral "2", ⟨16, 17⟩⟩, ⟨.eof, ⟨17, 17⟩⟩]

/-- The sum that they assign to, of which one part is not declared. -/
def missingSum : Expr :=
  .binary .add (.var "missing" none ⟨⟨1, 8⟩, none⟩) (.int "1" ⟨⟨11, 12⟩, none⟩) ⟨⟨0, 13⟩, none⟩

def missingAssignment : Expr :=
  .assign .plain missingSum (.int "2" ⟨⟨16, 17⟩, none⟩) ⟨⟨0, 17⟩, none⟩

theorem missingAssignment_contained :
    tokenize "(missing + 1) = 2" = .ok sumTokens ∧ (missingSum.checked .any).ty = none ∧
      (Check.ruleProblems .any (missingAssignment.checked .any)).map (fun d => (d.span, d.code)) =
        [(missingSum.span, .notAnLvalue)] ∧
      ∀ d ∈ Check.ruleProblems .any (missingAssignment.checked .any),
        (d.span = (missingSum.checked .any).span → d.code = .notAnLvalue ∨
          (missingAssignment.checked .any).AsksConstant .any (missingSum.checked .any)) ∧
        (d.code ∈ mismatchCodes → d.code = .typeMismatch ∧
          (missingAssignment.checked .any).ComparesBranches) := by
  have htokens : tokenize "(missing + 1) = 2" = .ok sumTokens := by decide +kernel
  have hread : Parse.expression 64 (.ofTokens ⟨.mark .lParen, ⟨0, 1⟩⟩ sumTokens.tail) =
      .ok (missingAssignment, ⟨⟨16, 17⟩, ⟨.eof, ⟨17, 17⟩⟩, []⟩) := rfl
  have hty : (missingSum.checked .any).ty = none := rfl
  refine ⟨htokens, hty, rfl, ?_⟩
  exact (unknown_operand_contained htokens (List.suffix_refl _) List.mem_cons_self hread
    ⟨.new none, 0, []⟩ .any).2 _ List.mem_cons_self _ List.mem_cons_self hty

end Shader
