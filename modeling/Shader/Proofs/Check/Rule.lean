import Shader.Proofs.Bind.Resolved
import Shader.Proofs.Fold.Select
import Shader.Proofs.Silence

/-! The rule of each kind of expression. A check without a problem has found none at any node that
it visits, and each type that it records is the one that the rule gives. -/

namespace Shader

namespace Check

/-- What checking finds at a node whose operands are checked. -/
def rule (stage : Stage) : Expr → Checked (Option Ty)
  | .int text n =>
    match Literal.int text with
    | .ok s => pure (some (.scalar s.kind))
    | .error e => do
      report (.expr (.literal e)) n.span
      return none
  | .float _ _ => pure (some .float)
  | .bool _ _ => pure (some .bool)
  | .var _ binding _ => pure (binding.bind Variable.ty)
  | .unary op e n => ofTy e.ty fun t => unaryTy op t n.span
  | .update op _ e n => do
    requireAssignable e op.text
    ofTy e.ty fun t => updateTy op t n.span
  | .binary op l r n => ofTy l.ty fun a => ofTy r.ty fun b => binaryTy op a b n.span
  | .assign op t v n => do
    requireAssignable t op.text
    ofTy t.ty fun a => ofTy v.ty fun b => assignTy op a b n.span
  | .ternary c t e n => do
    requireBool c
    ofTy t.ty fun a => ofTy e.ty fun b => branchTy a b n.span
  | .comma _ r _ => pure r.ty
  | .call _ _ args target n => targetTy stage target args n.span
  | .field e x n => ofTy e.ty fun t => fieldTy t x n.span
  | .index a i n => indexTy stage a i n.span
  | .length e n => ofTy e.ty fun t => lengthTy t n.span

end Check

/-- The rule for the node finds no problem, and gives the type that is recorded. -/
structure Expr.Passes (stage : Stage) (e : Expr) : Prop where
  problems : (Check.rule stage e).problems = []
  ty : e.ty = (Check.rule stage e).value

namespace Check

open Shader.Expr

variable {stage : Stage}

theorem passes_node {e : Expr} {ds : List Expr} (hvisited : e.visited = e :: ds)
    (he : e.Passes stage) (hds : ∀ d ∈ ds, d.Passes stage) : ∀ d ∈ e.visited, d.Passes stage := by
  rw [hvisited]
  exact List.forall_mem_cons.mpr ⟨he, hds⟩

/-- A check without a problem passes every node that it visits. -/
theorem passes_expr {e : Expr} (hok : (expr stage e).problems = []) :
    ∀ d ∈ (e.checked stage).visited, d.Passes stage := by
  -- What is reported for an expression is what its operands report and then its own rule.
  induction e using Expr.induction with
  | int text n =>
    rw [checked_int]
    unfold expr at hok
    refine passes_node rfl ?_ (by simp)
    cases hread : Literal.int text with
    | ok s => exact ⟨by simp only [rule, hread]; rfl, by simp only [rule, hread]; rfl⟩
    | error e =>
      simp only [hread] at hok
      cases hok
  | float text n =>
    rw [checked_float]
    exact passes_node rfl ⟨rfl, rfl⟩ (by simp)
  | bool b n =>
    rw [checked_bool]
    exact passes_node rfl ⟨rfl, rfl⟩ (by simp)
  | var x binding n =>
    rw [checked_var]
    exact passes_node rfl ⟨rfl, rfl⟩ (by simp)
  | unary op e n ih =>
    simp only [expr_unary, Checked.problems_bind, List.append_eq_nil_iff] at hok
    rw [checked_unary]
    exact passes_node rfl ⟨hok.2.1, (value_ofTy ..).symm⟩ (ih hok.1)
  | update op before e n ih =>
    simp only [expr_update, Checked.problems_bind, List.append_eq_nil_iff] at hok
    rw [checked_update]
    refine passes_node rfl ⟨?_, (value_ofTy ..).symm⟩ (ih hok.1)
    exact List.append_eq_nil_iff.mpr ⟨hok.2.1, hok.2.2.1⟩
  | binary op l r n ihl ihr =>
    simp only [expr_binary, Checked.problems_bind, List.append_eq_nil_iff] at hok
    rw [checked_binary]
    refine passes_node rfl ⟨hok.2.2.1, ?_⟩ (List.forall_mem_append.mpr ⟨ihl hok.1, ihr hok.2.1⟩)
    simp only [rule, value_ofTy]
    rfl
  | assign op t v n iht ihv =>
    simp only [expr_assign, Checked.problems_bind, List.append_eq_nil_iff] at hok
    rw [checked_assign]
    refine passes_node rfl ⟨?_, ?_⟩ (List.forall_mem_append.mpr ⟨iht hok.1, ihv hok.2.1⟩)
    · exact List.append_eq_nil_iff.mpr ⟨hok.2.2.1, hok.2.2.2.1⟩
    · simp only [rule, Checked.value_bind, value_ofTy]
      rfl
  | ternary c t e n ihc iht ihe =>
    simp only [expr_ternary, Checked.problems_bind, List.append_eq_nil_iff] at hok
    rw [checked_ternary]
    refine passes_node rfl ⟨?_, ?_⟩ (List.forall_mem_append.mpr ⟨?_, ihe hok.2.2.2.1⟩)
    · exact List.append_eq_nil_iff.mpr ⟨hok.2.1, hok.2.2.2.2.1⟩
    · simp only [rule, Checked.value_bind, value_ofTy]
      rfl
    · exact List.forall_mem_append.mpr ⟨ihc hok.1, iht hok.2.2.1⟩
  | comma l r n ihl ihr =>
    unfold expr at hok
    simp only [Checked.problems_bind, List.append_eq_nil_iff] at hok
    rw [checked_comma]
    exact passes_node rfl ⟨rfl, rfl⟩ (List.forall_mem_append.mpr ⟨ihl hok.1, ihr hok.2.1⟩)
  | call callee suffix args target n ihsuffix ihargs =>
    simp only [expr_call, Checked.problems_bind, List.append_eq_nil_iff, exprs_problems,
      List.flatMap_eq_nil_iff, exprs_value] at hok
    rw [checked_call]
    refine passes_node rfl ⟨hok.2.1, (value_targetTy ..).symm⟩ fun d hd => ?_
    obtain ⟨b, hb, hd⟩ := mem_allVisited.mp hd
    obtain ⟨a, ha, rfl⟩ := List.mem_map.mp hb
    exact ihargs a ha (hok.1 a ha) d hd
  | field e x n ih =>
    simp only [expr_field, Checked.problems_bind, List.append_eq_nil_iff] at hok
    rw [checked_field]
    exact passes_node rfl ⟨hok.2.1, (value_ofTy ..).symm⟩ (ih hok.1)
  | index a i n iha ihi =>
    unfold expr at hok
    simp only [Checked.problems_bind, List.append_eq_nil_iff] at hok
    rw [checked_index]
    exact passes_node rfl ⟨hok.2.2.1, (value_indexTy ..).symm⟩
      (List.forall_mem_append.mpr ⟨iha hok.1, ihi hok.2.1⟩)
  | length e n ih =>
    simp only [expr_length, Checked.problems_bind, List.append_eq_nil_iff] at hok
    rw [checked_length]
    exact passes_node rfl ⟨hok.2.1, (value_ofTy ..).symm⟩ (ih hok.1)

end Check

/-- An array is made of as many arguments as its size says. -/
def Target.Takes (count : Nat) : Target → Prop
  | .constructor (.array _ (some n)) => count = n
  | _ => True

def Expr.Counted : Expr → Prop
  | .call _ _ args target _ => target.Takes args.length
  | _ => True

theorem Expr.args_mem_visited {e : Expr} {callee : Callee} {suffix : Option (ArraySuffix Expr)}
    {args : List Expr} {target : Target} {n : Note}
    (h : .call callee suffix args target n ∈ e.visited) : ∀ a ∈ args, a ∈ e.visited := by
  induction e using Expr.induction with
  | int | float | bool | var =>
    obtain heq := List.mem_singleton.mp h
    cases heq
  | unary op e n ih | update op before e n ih | field e x n ih | length e n ih =>
    rcases List.mem_cons.mp h with heq | h
    · cases heq
    · exact fun a ha => List.mem_cons_of_mem _ (ih h a ha)
  | binary op l r n ihl ihr | comma l r n ihl ihr | assign op l r n ihl ihr | index l r n ihl ihr =>
    rcases List.mem_cons.mp h with heq | h
    · cases heq
    · intro a ha
      refine List.mem_cons_of_mem _ (List.mem_append.mpr ?_)
      exact (List.mem_append.mp h).imp (fun h => ihl h a ha) fun h => ihr h a ha
  | ternary c t e n ihc iht ihe =>
    rcases List.mem_cons.mp h with heq | h
    · cases heq
    · intro a ha
      refine List.mem_cons_of_mem _ (List.mem_append.mpr ?_)
      refine (List.mem_append.mp h).imp (fun h => List.mem_append.mpr ?_) fun h => ihe h a ha
      exact (List.mem_append.mp h).imp (fun h => ihc h a ha) fun h => iht h a ha
  | call callee' suffix' args' target' n' ihsuffix ihargs =>
    rcases List.mem_cons.mp h with heq | h
    · cases heq
      exact fun a ha => List.mem_cons_of_mem _ (mem_allVisited.mpr ⟨a, ha, a.self_mem_visited⟩)
    · obtain ⟨b, hb, h⟩ := mem_allVisited.mp h
      exact fun a ha => List.mem_cons_of_mem _ (mem_allVisited.mpr ⟨b, hb, ihargs b hb h a ha⟩)

theorem Expr.Passes.counted {stage : Stage} {e r : Expr} (h : e.Passes stage) (hr : r.Typed)
    (he : e ∈ r.visited) : e.Counted := by
  cases e with
  | call callee suffix args target note =>
    obtain ⟨types, htypes, hlength⟩ :=
      Check.exists_types fun a ha => hr a (Expr.args_mem_visited he a ha)
    rw [Expr.Counted, Target.Takes.eq_def]
    split
    · have hok := Check.constructTy_of_ok h.problems htypes
      simp only [Check.constructorProblem?] at hok
      split at hok
      · exact hlength.symm.trans ‹_›
      · cases hok
    · trivial
  | int | float | bool | var | unary | update | binary | assign | ternary | comma | field | index
  | length => trivial

/-- The expression has no types yet, and is a constant or a variable. -/
def Expr.Settled (e : Expr) : Prop :=
  Part.All Part.Bound e.parts ∧ (e.binding?.isSome = true ∨ ∃ c, e.fold = .value c)

theorem Expr.Settled.counted {e : Expr} (h : e.Settled) : e.Counted := by
  cases e with
  | call callee suffix args target note =>
    obtain ⟨c, hc⟩ := h.2.resolve_left (by simp [Expr.binding?])
    simp only [Expr.fold] at hc
    obtain ⟨cs, hcs, hc⟩ := Outcome.bind_eq_value hc
    have hlength : args.length = cs.length := by
      simpa using congrArg List.length (Expr.foldAll_eq_value_iff.mp hcs)
    rw [Expr.Counted, Target.Takes.eq_def]
    split
    · obtain ⟨v, hv, -⟩ := Outcome.bind_eq_value hc
      simp only [Fold.constructValue] at hv
      split at hv
      · rename_i hfits
        simp only [Bool.and_eq_true, decide_eq_true_eq] at hfits
        exact hlength.trans hfits.1
      · cases hv
    · trivial
  | int | float | bool | var | unary | update | binary | assign | ternary | comma | field | index
  | length => trivial

section Unvisited

open Shader.Expr

variable {B : Binding → Prop} {P : Expr → Prop} {e : Expr}

theorem fold_of_suffixExtent {size : Expr} {span : Span}
    (h : suffixExtent (some ⟨some size, span⟩) ≠ .invalid) : ∃ c, size.fold = .value c := by
  cases hc : size.constant? with
  | none => simp [suffixExtent, hc] at h
  | some c => exact ⟨c, Outcome.value?_eq_some_iff.mp hc⟩

theorem Calls.valid {args : List Expr} {name : CalleeName} {suffix : Option (ArraySuffix Expr)}
    {target : Target} (h : Calls B args name suffix target) : suffixExtent suffix ≠ .invalid := by
  cases h with
  | function x hf | struct x ht => simp [suffixExtent]
  | array x ht hs | basic b hs => exact hs

theorem settled_of_fold (hbound : Part.All Part.Bound e.parts)
    (hres : Part.All (Part.Resolved B) e.parts) {c : Constant} (hc : e.fold = .value c) :
    Part.All (Part.Holds Settled) e.parts := by
  induction e using Expr.induction generalizing c with
  | int | float | bool | var => exact holds_node rfl ⟨hbound, .inr ⟨c, hc⟩⟩ Part.all_nil
  | update | assign | comma =>
    simp only [fold] at hc
    cases hc
  | unary op e n ih | field e x n ih =>
    refine holds_node rfl ⟨hbound, .inr ⟨c, hc⟩⟩ ?_
    simp only [fold] at hc
    obtain ⟨k, hk, -⟩ := Outcome.bind_eq_value hc
    exact ih (Part.all_cons.mp hbound).2 (Part.all_cons.mp hres).2 hk
  | binary op l r n ihl ihr | index l r n ihl ihr =>
    refine holds_node rfl ⟨hbound, .inr ⟨c, hc⟩⟩ ?_
    obtain ⟨hl, hr⟩ := Part.all_append.mp (Part.all_cons.mp hbound).2
    obtain ⟨hl', hr'⟩ := Part.all_append.mp (Part.all_cons.mp hres).2
    simp only [fold] at hc
    obtain ⟨j, hj, hc⟩ := Outcome.bind_eq_value hc
    obtain ⟨k, hk, -⟩ := Outcome.bind_eq_value hc
    exact Part.all_append.mpr ⟨ihl hl hl' hj, ihr hr hr' hk⟩
  | ternary c t e n ihc iht ihe =>
    refine holds_node rfl ⟨hbound, .inr ⟨_, hc⟩⟩ ?_
    obtain ⟨hct, he⟩ := Part.all_append.mp (Part.all_cons.mp hbound).2
    obtain ⟨hct', he'⟩ := Part.all_append.mp (Part.all_cons.mp hres).2
    obtain ⟨hc', ht'⟩ := Part.all_append.mp hct'
    obtain ⟨hcond, ht⟩ := Part.all_append.mp hct
    simp only [fold] at hc
    obtain ⟨i, hi, hc⟩ := Outcome.bind_eq_value hc
    obtain ⟨j, hj, hc⟩ := Outcome.bind_eq_value hc
    obtain ⟨k, hk, -⟩ := Outcome.bind_eq_value hc
    refine Part.all_append.mpr ⟨Part.all_append.mpr ⟨ihc hcond hc' hi, iht ht ht' hj⟩, ?_⟩
    exact ihe he he' hk
  | call callee suffix args target n ihsuffix ihargs =>
    refine holds_node rfl ⟨hbound, .inr ⟨c, hc⟩⟩ ?_
    obtain ⟨hsuffix, hargs⟩ := Part.all_append.mp (Part.all_cons.mp hbound).2
    obtain ⟨hcalls, hres⟩ := Part.all_cons.mp hres
    obtain ⟨hsuffix', hargs'⟩ := Part.all_append.mp hres
    simp only [fold] at hc
    obtain ⟨ks, hks, -⟩ := Outcome.bind_eq_value hc
    refine Part.all_append.mpr ⟨?_, all_allParts.mpr fun a ha => ?_⟩
    · rcases suffix with _ | ⟨_ | size, span⟩
      · exact Part.all_nil
      · exact Part.all_nil
      -- The size in the brackets was folded already when the call was bound.
      · obtain ⟨k, hk⟩ := fold_of_suffixExtent hcalls.valid
        exact ihsuffix size span rfl hsuffix hsuffix' hk
    · obtain ⟨k, hk⟩ := foldAll_value_of_mem hks ha
      exact ihargs a ha (all_allParts.mp hargs a ha) (all_allParts.mp hargs' a ha) hk
  | length e n ih =>
    refine holds_node rfl ⟨hbound, .inr ⟨c, hc⟩⟩ ?_
    have he := (Part.all_cons.mp hbound).2
    cases hb : e.binding? with
    | some v =>
      obtain ⟨x, k, rfl⟩ := exists_var_of_binding? hb
      exact holds_node rfl ⟨he, .inl rfl⟩ Part.all_nil
    | none =>
      have hknown : e.knownTy = none := by
        rw [knownTy_of_bound he, hb]
        rfl
      simp only [fold, hknown] at hc
      obtain ⟨k, hk, -⟩ := Outcome.bind_eq_value hc
      exact ih he (Part.all_cons.mp hres).2 hk

/-- What holds of all visited nodes and of all that is settled holds everywhere. -/
theorem holds_checked {stage : Stage} (hsettled : ∀ d, Settled d → P d)
    (hbound : Part.All Part.Bound e.parts) (hres : Part.All (Part.Resolved B) e.parts)
    (h : ∀ d ∈ (e.checked stage).visited, P d) :
    Part.All (Part.Holds P) (e.checked stage).parts := by
  induction e using Expr.induction with
  | int | float | bool | var =>
    simp only [checked_int, checked_float, checked_bool, checked_var] at h ⊢
    exact holds_node rfl (List.forall_mem_cons.mp h).1 Part.all_nil
  | unary op e n ih | update op before e n ih | length e n ih | field e x n ih =>
    simp only [checked_unary, checked_update, checked_length, checked_field] at h ⊢
    obtain ⟨hnode, h⟩ := List.forall_mem_cons.mp h
    exact holds_node rfl hnode (ih (Part.all_cons.mp hbound).2 (Part.all_cons.mp hres).2 h)
  | binary op l r n ihl ihr | comma l r n ihl ihr | assign op l r n ihl ihr | index l r n ihl ihr =>
    obtain ⟨hl, hr⟩ := Part.all_append.mp (Part.all_cons.mp hbound).2
    obtain ⟨hl', hr'⟩ := Part.all_append.mp (Part.all_cons.mp hres).2
    simp only [checked_binary, checked_comma, checked_assign, checked_index] at h ⊢
    obtain ⟨hnode, h⟩ := List.forall_mem_cons.mp h
    obtain ⟨hvisited, hvisited'⟩ := List.forall_mem_append.mp h
    exact holds_node rfl hnode (Part.all_append.mpr ⟨ihl hl hl' hvisited, ihr hr hr' hvisited'⟩)
  | ternary c t e n ihc iht ihe =>
    obtain ⟨hct, he⟩ := Part.all_append.mp (Part.all_cons.mp hbound).2
    obtain ⟨hc, ht⟩ := Part.all_append.mp hct
    obtain ⟨hct', he'⟩ := Part.all_append.mp (Part.all_cons.mp hres).2
    obtain ⟨hc', ht'⟩ := Part.all_append.mp hct'
    rw [checked_ternary] at h ⊢
    obtain ⟨hnode, h⟩ := List.forall_mem_cons.mp h
    obtain ⟨h, hvisited⟩ := List.forall_mem_append.mp h
    obtain ⟨h, h'⟩ := List.forall_mem_append.mp h
    refine holds_node rfl hnode (Part.all_append.mpr ⟨?_, ihe he he' hvisited⟩)
    exact Part.all_append.mpr ⟨ihc hc hc' h, iht ht ht' h'⟩
  | call callee suffix args target n ihsuffix ihargs =>
    obtain ⟨hsuffix, hargs⟩ := Part.all_append.mp (Part.all_cons.mp hbound).2
    obtain ⟨hcalls, hres⟩ := Part.all_cons.mp hres
    obtain ⟨hsuffix', hargs'⟩ := Part.all_append.mp hres
    rw [checked_call] at h ⊢
    obtain ⟨hnode, h⟩ := List.forall_mem_cons.mp h
    refine holds_node rfl hnode (Part.all_append.mpr ⟨?_, all_allParts.mpr fun b hb => ?_⟩)
    · rcases suffix with _ | ⟨_ | size, span⟩
      · exact Part.all_nil
      · exact Part.all_nil
      · obtain ⟨c, hc⟩ := fold_of_suffixExtent hcalls.valid
        refine (settled_of_fold hsuffix hsuffix' hc).mono fun p hp => ?_
        cases p with
        | node d => exact hsettled d hp
        | binding v => trivial
        | tag x => trivial
    · obtain ⟨a, ha, rfl⟩ := List.mem_map.mp hb
      refine ihargs a ha (all_allParts.mp hargs a ha) (all_allParts.mp hargs' a ha) fun d hd => ?_
      exact h d (mem_allVisited.mpr ⟨_, hb, hd⟩)

theorem Calls.of_function {B : Binding → Prop} {args : List Expr} {name : CalleeName}
    {suffix : Option (ArraySuffix Expr)} {g : Function}
    (h : Calls B args name suffix (.function g)) : B (.function g) := by
  generalize htarget : Target.function g = target at h
  cases h with
  | function x hf =>
    obtain rfl := Target.function.inj htarget
    exact hf
  | struct x ht => cases htarget
  | array x ht hs | basic b hs =>
    unfold Bind.constructorTarget at htarget
    split at htarget <;> cases htarget

theorem Calls.congr_args {as bs : List Expr} {name : CalleeName}
    {suffix : Option (ArraySuffix Expr)} {target : Target} (h : Calls B as name suffix target)
    (hlength : as.length = bs.length) : Calls B bs name suffix target := by
  have htarget : ∀ ty, Bind.constructorTarget ty as = Bind.constructorTarget ty bs := fun ty => by
    rw [Bind.constructorTarget, hlength, ← Bind.constructorTarget]
  cases h with
  | function x hf => exact .function x hf
  | struct x ht => exact .struct x ht
  | array x ht hs =>
    rw [htarget]
    exact .array x ht hs
  | basic b hs =>
    rw [htarget]
    exact .basic b hs

theorem resolved_checked (stage : Stage) (h : Part.All (Part.Resolved B) e.parts) :
    Part.All (Part.Resolved B) (e.checked stage).parts := by
  induction e using Expr.induction with
  | int | float | bool | var =>
    simp only [checked_int, checked_float, checked_bool, checked_var]
    exact holds_node rfl (Part.all_cons.mp h).1 Part.all_nil
  | unary op e n ih | update op before e n ih | length e n ih | field e x n ih =>
    simp only [checked_unary, checked_update, checked_length, checked_field]
    exact holds_node rfl trivial (ih (Part.all_cons.mp h).2)
  | binary op l r n ihl ihr | comma l r n ihl ihr | assign op l r n ihl ihr | index l r n ihl ihr =>
    obtain ⟨hl, hr⟩ := Part.all_append.mp (Part.all_cons.mp h).2
    simp only [checked_binary, checked_comma, checked_assign, checked_index]
    exact holds_node rfl trivial (Part.all_append.mpr ⟨ihl hl, ihr hr⟩)
  | ternary c t e n ihc iht ihe =>
    obtain ⟨hct, he⟩ := Part.all_append.mp (Part.all_cons.mp h).2
    obtain ⟨hc, ht⟩ := Part.all_append.mp hct
    rw [checked_ternary]
    refine holds_node rfl trivial (Part.all_append.mpr ⟨?_, ihe he⟩)
    exact Part.all_append.mpr ⟨ihc hc, iht ht⟩
  | call callee suffix args target n ihsuffix ihargs =>
    obtain ⟨hcalls, h⟩ := Part.all_cons.mp h
    obtain ⟨hsuffix, hargs⟩ := Part.all_append.mp h
    rw [checked_call]
    refine holds_node rfl (hcalls.congr_args (List.length_map _).symm) ?_
    refine Part.all_append.mpr ⟨hsuffix, all_allParts.mpr fun b hb => ?_⟩
    obtain ⟨a, ha, rfl⟩ := List.mem_map.mp hb
    exact ihargs a ha (all_allParts.mp hargs a ha)

end Unvisited

section Types

variable {stage : Stage}

theorem suffixExtent_checked {suffix : Option (ArraySuffix Expr)}
    (hbound : Part.All Part.Bound (suffixParts suffix)) (hvalid : suffixExtent suffix ≠ .invalid) :
    suffixExtent (suffix.map (.map (Expr.checked stage))) = suffixExtent suffix := by
  rcases suffix with _ | ⟨_ | size, span⟩
  · rfl
  · rfl
  · obtain ⟨c, hc⟩ := fold_of_suffixExtent hvalid
    have hchecked := Expr.foldsAs_checked stage hbound c hc
    simp only [Option.map_some, ArraySuffix.map, suffixExtent, Expr.constant?, hc, hchecked]

theorem MemberName.ty_checked {x : MemberName} (hbound : Part.All Part.Bound x.parts)
    (hvalid : suffixExtent x.array ≠ .invalid) (base : Option Ty) :
    (x.mapExprs (Expr.checked stage)).ty base = x.ty base := by
  simp only [MemberName.ty, MemberName.mapExprs, suffixExtent_checked hbound hvalid]

theorem ParamDecl.ty_checked {p : ParamDecl} (hbound : Part.All Part.Bound (suffixParts p.array))
    (hvalid : suffixExtent p.array ≠ .invalid) : (p.mapExprs (Expr.checked stage)).ty = p.ty := by
  simp only [ParamDecl.ty, ParamDecl.mapExprs, TypeSpec.ty_mapExprs,
    suffixExtent_checked hbound hvalid]

end Types

namespace CleanRun

variable {source : String} {stage : Stage} {unit : TranslationUnit}

theorem resolved (h : CleanRun source stage unit) :
    Resolution (fun _ => True) (TranslationUnit.parts (bind unit).unit)
      (TranslationUnit.entries (bind unit).unit) :=
  bind_resolved (F := fun _ => True) (parse_allPlain h.parsed) (parse_bare h.parsed) h.bound
    (fun _ _ => trivial) ⟨fun _ _ _ _ => trivial, fun _ _ => trivial, fun _ _ _ _ => trivial⟩
    (fun _ _ _ _ _ => trivial) (fun _ _ _ => trivial) fun _ _ _ _ _ _ _ => trivial

theorem exists_root (h : CleanRun source stage unit) {d : Expr}
    (hd : d ∈ TranslationUnit.nodes (check stage (bind unit).unit).value) :
    ∃ r ∈ TranslationUnit.nodes (bind unit).unit, (Check.expr stage r).problems = [] ∧
      Part.All Part.Known r.parts ∧ d ∈ (r.checked stage).nodes := by
  rw [TranslationUnit.nodes_eq_sites] at hd ⊢
  obtain ⟨s', hs', hd⟩ := List.mem_flatMap.mp hd
  obtain ⟨s, hs, rfl⟩ := exists_site hs'
  have hok := h.problems_eq_nil hs
  cases s with
  | root r => exact ⟨r, List.mem_flatMap.mpr ⟨_, hs, r.self_mem_nodes⟩, hok, h.allKnown _ hs, hd⟩
  | «variable» q x =>
    obtain ⟨r', hr', hd⟩ := List.mem_flatMap.mp hd
    obtain ⟨r, hr, rfl⟩ := Option.map_eq_some_iff.mp (Option.mem_toList.mp hr')
    have hknown : Part.All Part.Known r.parts := (h.allKnown _ hs).1 r hr
    refine ⟨r, List.mem_flatMap.mpr ⟨_, hs, ?_⟩, Check.init_of_ok hok hr, hknown, hd⟩
    exact List.mem_flatMap.mpr ⟨r, Option.mem_toList.mpr hr, r.self_mem_nodes⟩
  | blockInstance x =>
    have hinit : x.init = none := (h.allKnown _ hs).1
    simp [Site.mapExprs, Site.nodes, Declarator.mapSize, hinit] at hd
  | parameter p => simp [Site.mapExprs, Site.nodes] at hd

/-- Where nothing is reported, every expression passes the rule for it, or is a constant that the
check did not visit. -/
theorem passes_or_settled (h : CleanRun source stage unit) :
    ∀ d ∈ TranslationUnit.nodes (check stage (bind unit).unit).value,
      d.Passes stage ∨ d.Settled := by
  intro d hd
  obtain ⟨r, hr, hok, -, hd⟩ := h.exists_root hd
  have hbound := TranslationUnit.bound_of_mem_nodes h.parts_bound hr
  have hres := (TranslationUnit.closed_parts _).all_parts h.resolved.parts
    (TranslationUnit.mem_nodes.mp hr)
  refine Part.all_holds.mp (holds_checked (P := fun d => d.Passes stage ∨ d.Settled)
    (fun _ h => .inr h) hbound hres fun d hd => ?_) d hd
  exact .inl (Check.passes_expr hok d hd)

/-- Checking counts the arguments of what it visits, and folding those of the rest. -/
theorem counted (h : CleanRun source stage unit) :
    ∀ d ∈ TranslationUnit.nodes (check stage (bind unit).unit).value, d.Counted := by
  intro d hd
  obtain ⟨r, hr, hok, hknown, hd⟩ := h.exists_root hd
  have hbound := TranslationUnit.bound_of_mem_nodes h.parts_bound hr
  have hres := (TranslationUnit.closed_parts _).all_parts h.resolved.parts
    (TranslationUnit.mem_nodes.mp hr)
  refine Part.all_holds.mp (holds_checked (P := Expr.Counted) (fun _ h => h.counted) hbound hres
    fun d hd => ?_) d hd
  exact (Check.passes_expr hok d hd).counted (Check.typed_expr stage hknown hok) hd

theorem resolved_nodes (h : CleanRun source stage unit) {B : Binding → Prop}
    (hres : Part.All (Part.Resolved B) (TranslationUnit.parts (bind unit).unit)) :
    ∀ d ∈ TranslationUnit.nodes (check stage (bind unit).unit).value, d.Resolved B := by
  intro d hd
  obtain ⟨r, hr, -, -, hd⟩ := h.exists_root hd
  have hroot := (TranslationUnit.closed_parts _).all_parts hres (TranslationUnit.mem_nodes.mp hr)
  exact Part.all_holds.mp (resolved_checked stage hroot) d hd

end CleanRun

end Shader
