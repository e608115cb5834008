import Shader.Proofs.Check.Rule

/-! Writing. Where nothing is reported, whatever is written is a place that may be written: a chain
of fields and elements of a variable that is not only to be read. -/

namespace Shader

namespace Expr

/-- A place that may be written. -/
inductive Assignable : Expr → Prop where
  | var (x : String) (n : Note) {v : Variable} (hconst : v.storage ≠ some .constant)
    (huniform : v.storage ≠ some .uniform)
    (hinput : v.storage = some .input ∨ v.storage = some .centroidInput → v.kind = .parameter) :
    Assignable (.var x (some v) n)
  | field {e : Expr} (x : String) (n : Note) (he : e.Assignable)
    (hx : ∀ kind size indices, e.ty = some (.basic (.vector kind size)) →
      Swizzle.indices x size.toNat = .ok indices → indices.Nodup) : Assignable (.field e x n)
  | index {a : Expr} (i : Expr) (n : Note) (ha : a.Assignable) : Assignable (.index a i n)

def selected? (f : Function) (args : List Expr) : Option Overload :=
  (args.mapM Expr.ty).bind fun types => f.overload? (types.map some)

def outputs (params : List Parameter) (args : List Expr) : List Expr :=
  (params.zip args).filterMap fun (p, a) => if p.direction.isOutput then some a else none

/-- What is written at this node. -/
def written : Expr → List Expr
  | .update _ _ e _ => [e]
  | .assign _ t _ _ => [t]
  | .call _ _ args (.function f) _ =>
    ((selected? f args).map fun o => outputs o.params args).getD []
  | _ => []

end Expr

theorem Swizzle.nodup_of_not_repeats {is : List Nat} (h : repeats is = false) : is.Nodup := by
  induction is with
  | nil => exact List.nodup_nil
  | cons i is ih =>
    obtain ⟨hi, his⟩ := Bool.or_eq_false_iff.mp h
    exact List.nodup_cons.mpr ⟨by simpa using hi, ih his⟩

theorem Variable.storage_of_isWritable {v : Variable} (h : v.isWritable = true) :
    v.storage ≠ some .constant ∧ v.storage ≠ some .uniform ∧
      (v.storage = some .input ∨ v.storage = some .centroidInput → v.kind = .parameter) := by
  unfold Variable.isWritable at h
  split at h <;> simp_all

namespace Expr

variable {stage : Stage} {e t : Expr}

theorem assignable_of_assignProblem? (hknown : Part.All Part.Known e.parts)
    (h : e.assignProblem? = none) : e.Assignable := by
  induction e using Expr.induction with
  | int | float | bool | unary | update | binary | assign | ternary | comma | call | length =>
    simp [assignProblem?] at h
  | var x binding n =>
    obtain ⟨v, rfl, -⟩ := (Part.all_cons.mp hknown).1
    have hv : v.isWritable = true := by
      by_contra hv
      simp only [assignProblem?, if_neg hv] at h
      split at h <;> cases h
    obtain ⟨hconst, huniform, hinput⟩ := v.storage_of_isWritable hv
    exact .var x n hconst huniform hinput
  | field e x n ih =>
    simp only [assignProblem?] at h
    split at h
    · cases h
    · rename_i hrepeats
      refine .field x n (ih (Part.all_cons.mp hknown).2 h) fun kind size indices hty hindices => ?_
      refine Swizzle.nodup_of_not_repeats ?_
      have hvector : (some (Ty.basic (.vector kind size))).any Ty.isVector = true := rfl
      simpa [hty, hvector, Ty.vectorSize, hindices, Except.toOption] using hrepeats
  | index a i n iha ihi =>
    simp only [assignProblem?] at h
    exact .index i n (iha (Part.all_append.mp (Part.all_cons.mp hknown).2).1 h)

theorem assignProblem?_of_requireAssignable {operation : String}
    (h : (Check.requireAssignable e operation).problems = []) : e.assignProblem? = none := by
  unfold Check.requireAssignable at h
  split at h
  · cases h
  · assumption

theorem assignProblem?_of_outArguments {function : String} {params : List Parameter}
    {args : List Expr} (h : (Check.outArguments function params args).problems = []) :
    ∀ a ∈ outputs params args, a.assignProblem? = none := by
  induction params generalizing args with
  | nil => simp [outputs]
  | cons p params ih =>
    cases args with
    | nil => simp [outputs]
    | cons a args =>
      unfold Check.outArguments at h
      cases hp : p.direction.isOutput with
      | false =>
        simp only [hp] at h
        simpa [outputs, hp] using ih h
      | true =>
        simp only [hp] at h
        cases ha : a.assignProblem? with
        | none =>
          simp only [ha] at h
          simpa [outputs, hp, ha] using ih h
        | some why =>
          simp only [ha] at h
          cases h

theorem assignProblem?_of_callTy {f : Function} {args : List Expr} {span : Span} {o : Overload}
    (h : (Check.callTy stage f args span).problems = []) (ho : selected? f args = some o) :
    ∀ a ∈ outputs o.params args, a.assignProblem? = none := by
  obtain ⟨types, htypes, ho⟩ := Option.bind_eq_some_iff.mp ho
  simp only [Check.callTy, htypes, ho, Checked.problems_bind, List.append_eq_nil_iff] at h
  exact assignProblem?_of_outArguments h.1

theorem Passes.written (h : e.Passes stage) : ∀ t ∈ e.written, t.assignProblem? = none := by
  cases e with
  | int | float | bool | var | unary | binary | ternary | comma | field | index | length =>
    simp [Expr.written]
  | update op before e n =>
    have hok := (List.append_eq_nil_iff.mp h.problems).1
    simpa [Expr.written] using assignProblem?_of_requireAssignable hok
  | assign op t v n =>
    have hok := (List.append_eq_nil_iff.mp h.problems).1
    simpa [Expr.written] using assignProblem?_of_requireAssignable hok
  | call callee suffix args target n =>
    cases target with
    | unresolved => simp [Expr.written]
    | constructor ty => simp [Expr.written]
    | function f =>
      cases ho : selected? f args with
      | none => simp [Expr.written, ho]
      | some o => simpa [Expr.written, ho] using assignProblem?_of_callTy h.problems ho

theorem Settled.written (h : e.Settled) : e.written = [] := by
  obtain ⟨hbound, hcase⟩ := h
  cases e with
  | int | float | bool | var | unary | binary | ternary | comma | field | index | length => rfl
  | update | assign => simp [binding?, fold] at hcase
  | call callee suffix args target n =>
    cases target with
    | unresolved => rfl
    | constructor ty => rfl
    | function f =>
      cases args with
      | nil => cases hf : selected? f [] <;> simp [Expr.written, hf, outputs]
      | cons a args =>
        have ha : a.ty = none := by
          have hparts := Part.all_append.mp (Part.all_cons.mp hbound).2
          exact ty_eq_none_of_bound (all_allParts.mp hparts.2 a (by simp))
        have hselected : selected? f (a :: args) = none := by simp [selected?, List.mapM_cons, ha]
        simp [Expr.written, hselected]

theorem mem_of_mem_outputs {params : List Parameter} {args : List Expr} {a : Expr}
    (h : a ∈ outputs params args) : a ∈ args := by
  obtain ⟨⟨p, b⟩, hb, ha⟩ := List.mem_filterMap.mp h
  dsimp only at ha
  split at ha
  · exact Option.some.inj ha ▸ (List.of_mem_zip hb).2
  · cases ha

theorem parts_subset_of_mem_written (h : t ∈ e.written) : t.parts ⊆ e.parts := by
  cases e with
  | int | float | bool | var | unary | binary | ternary | comma | field | index | length =>
    simp [Expr.written] at h
  | update op before e n =>
    obtain rfl := List.mem_singleton.mp h
    exact List.subset_cons_self _ _
  | assign op l r n =>
    obtain rfl := List.mem_singleton.mp h
    exact List.Subset.trans (List.subset_append_left _ _) (List.subset_cons_self _ _)
  | call callee suffix args target n =>
    have hmem : t ∈ args := by
      cases target with
      | unresolved => simp [Expr.written] at h
      | constructor ty => simp [Expr.written] at h
      | function f =>
        cases ho : selected? f args with
        | none => simp [Expr.written, ho] at h
        | some o =>
          simp only [Expr.written, ho, Option.map_some, Option.getD_some] at h
          exact mem_of_mem_outputs h
    have hargs := all_allParts (P := (· ∈ allParts args)).mp fun _ hp => hp
    refine List.Subset.trans (hargs t hmem) ?_
    exact List.Subset.trans (List.subset_append_right _ _) (List.subset_cons_self _ _)

end Expr

theorem CleanRun.assignProblem?_of_mem_written {source : String} {stage : Stage}
    {unit : TranslationUnit} (h : CleanRun source stage unit) {e : Expr}
    (he : e ∈ TranslationUnit.nodes (check stage (bind unit).unit).value) :
    ∀ t ∈ e.written, t.assignProblem? = none := by
  rcases h.passes_or_settled e he with hpasses | hsettled
  · exact hpasses.written
  · simp [hsettled.written]

/-- In an analysis without a problem everything that is assigned to, updated or passed to be written
back is a place that may be written. -/
theorem written_assignable {source : String} {stage : Stage} {a : Analysis}
    (h : analyze source stage = .ok a) (hclean : a.isClean = true) :
    ∀ e ∈ TranslationUnit.nodes a.unit, ∀ t ∈ e.written, t.Assignable := by
  obtain ⟨unit, hrun, hunit⟩ := exists_cleanRun h hclean
  rw [hunit]
  intro e he t ht
  refine Expr.assignable_of_assignProblem? (fun p hp => ?_)
    (hrun.assignProblem?_of_mem_written he t ht)
  have hmem := TranslationUnit.closed_parts _ e (TranslationUnit.mem_nodes.mp he)
    (Expr.parts_subset_of_mem_written ht hp)
  cases p with
  | node d =>
    exact known_nodes_check stage hrun.parts_bound hrun.allKnown d
      (TranslationUnit.mem_nodes.mpr hmem)
  | binding v => trivial
  | tag x => trivial

/-- An output array, a swizzle in another order and arguments that are written back. -/
def writingSource : String :=
  "out vec4 c[2]; void f(out float x, inout vec2 y) { x = 1.0; y.yx += y; }
  void main() { vec3 v; f(v.z, v.yx); v.y++; c[1].wz = v.xy; }"

theorem written_assignable_writingSource :
    ∃ a, analyze writingSource .fragment = .ok a ∧ a.isClean = true ∧
      ((TranslationUnit.nodes a.unit).flatMap Expr.written).length = 6 ∧
      ∀ e ∈ TranslationUnit.nodes a.unit, ∀ t ∈ e.written, t.Assignable := by
  have hany : ((analyze writingSource .fragment).toOption.any fun a =>
      a.isClean && ((TranslationUnit.nodes a.unit).flatMap Expr.written).length == 6) = true := by
    decide +kernel
  obtain ⟨a, ha, hclean⟩ := exists_ok_of_any hany
  obtain ⟨hclean, hlength⟩ := Bool.and_eq_true_iff.mp hclean
  exact ⟨a, ha, hclean, beq_iff_eq.mp hlength, written_assignable ha hclean⟩

end Shader
