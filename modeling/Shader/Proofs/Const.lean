import Shader.Proofs.Silence

/-! The constants of `const` variables. A declaration is accepted if its initializer folds in the
checked tree, but the variable holds what the initializer folded to in the bound tree. In an
analysis without problems the two are one constant, except where the initializer asks for the length
of something that is no constant: then the variable holds none. -/

namespace Shader

theorem Qualifiers.storage_of_isConst {q : Qualifiers} (h : q.isConst = true) :
    q.storage = some .constant := by
  simpa [Qualifiers.isConst] using h

def Site.const? : Site → Option Declarator
  | .variable q d => if q.isConst then some d else none
  | _ => none

/-- The declarators of constants, global and local ones. -/
def TranslationUnit.consts (unit : TranslationUnit) : List Declarator :=
  (TranslationUnit.sites unit).filterMap Site.const?

theorem Site.exists_of_const? {s : Site} {d : Declarator} (h : s.const? = some d) :
    ∃ q, s = .variable q d ∧ q.isConst = true := by
  cases s with
  | «variable» q b =>
    obtain ⟨hq, hb⟩ := Option.ite_none_right_eq_some.mp h
    exact ⟨q, Option.some.inj hb ▸ rfl, hq⟩
  | root e => cases h
  | blockInstance b => cases h
  | parameter p => cases h

namespace Check

variable {stage : Stage} {d : Declarator} {t : Ty}

/-- What is accepted as a constant has an initializer, and if the type of the initializer is known
it is the declared one and the initializer folds. -/
theorem initialization_of_ok
    (hok : (initialization (some .constant) (some t) d).problems = []) :
    ∃ init, d.init = some init ∧
      (init.ty.isSome = true → init.ty = some t ∧ init.constant?.isSome = true) := by
  unfold initialization at hok
  split at hok
  · rename_i init hinit
    refine ⟨init, hinit, fun hty => ?_⟩
    obtain ⟨actual, hactual⟩ := Option.isSome_iff_exists.mp hty
    simp only [initializer, hactual, Checked.problems_bind, List.append_eq_nil_iff] at hok
    split at hok
    · cases hok.2
    · rename_i heq
      obtain rfl : t = actual := Decidable.not_not.mp heq
      have hconst := require_of_ok hok.2
      exact ⟨hactual, by simpa [Option.isSome_iff_ne_none] using hconst⟩
  · exact absurd (require_of_ok hok) (by simp)

theorem const_of_ok {v : Variable} (hok : (declarator stage (some .constant) d).problems = [])
    (hv : d.binding = some v) (ht : v.ty = some t) :
    ∃ e, d.init = some e ∧ ((e.checked stage).ty.isSome = true →
      (e.checked stage).ty = some t ∧ (e.checked stage).constant?.isSome = true) := by
  unfold declarator at hok
  simp only [hv, Option.bind_some, ht, Checked.problems_bind, List.append_eq_nil_iff] at hok
  obtain ⟨-, -, hok⟩ := hok
  split at hok
  · cases hok
  · simp only [Checked.problems_bind, List.append_eq_nil_iff] at hok
    obtain ⟨init, hinit, hfolds⟩ := initialization_of_ok hok.2.1
    rw [value_optionExpr] at hinit
    obtain ⟨e, he, rfl⟩ := Option.map_eq_some_iff.mp hinit
    exact ⟨e, he, hfolds⟩

end Check

/-- The bound initializer of a constant folds, to what the checked one folds to, exactly if there is
no open length in it. -/
theorem Expr.constant?_eq_ite {stage : Stage} {e : Expr} (h : Part.All Part.Bound e.parts)
    {c : Constant} (hc : (e.checked stage).constant? = some c) :
    e.constant? = if (e.checked stage).visited.any Expr.isOpenLength then none else some c := by
  have hfold := Outcome.value?_eq_some_iff.mp hc
  split
  · rename_i hopen
    obtain ⟨d, hd, hopen⟩ := List.any_eq_true.mp hopen
    cases hconst : e.constant? with
    | none => rfl
    | some k =>
      have hclosed := Expr.not_isOpenLength_of_fold h (Outcome.value?_eq_some_iff.mp hconst) d hd
      rw [hclosed] at hopen
      cases hopen
  · rename_i hclosed
    have hclosed : ∀ d ∈ (e.checked stage).visited, d.isOpenLength = false := by
      simpa using hclosed
    exact Outcome.value?_eq_some_iff.mpr (Expr.foldsAs_of_checked h hclosed c hfold)

/-- In an analysis without a problem a constant has an initializer that folds, to a value of the
declared type. The variable holds that value, unless the initializer takes the length of something
that only the check finds a type for. -/
theorem const_constant_of_isClean {source : String} {stage : Stage} {a : Analysis}
    (h : analyze source stage = .ok a) (hclean : a.isClean = true) {d : Declarator}
    (hd : d ∈ TranslationUnit.consts a.unit) :
    ∃ v init c, d.binding = some v ∧ d.init = some init ∧ init.constant? = some c ∧
      v.ty = some c.ty ∧
      v.constant = if init.visited.any Expr.isOpenLength then none else some c := by
  obtain ⟨unit, hrun, hunit⟩ := exists_cleanRun h hclean
  obtain ⟨s, hs, hd⟩ := List.mem_filterMap.mp hd
  obtain ⟨q, rfl, hq⟩ := Site.exists_of_const? hd
  rw [hunit] at hs
  obtain ⟨r, hr, hrd⟩ := CleanRun.exists_site hs
  cases r with
  | root e => cases hrd
  | blockInstance d => cases hrd
  | parameter p => cases hrd
  | «variable» q' b =>
    obtain ⟨rfl, rfl⟩ := Site.variable.inj hrd
    obtain ⟨hinit, v, hv, hty, hconstant⟩ := hrun.allKnown _ hr
    obtain ⟨t, ht⟩ := Option.isSome_iff_exists.mp hty
    have hok := hrun.problems_eq_nil hr
    rw [Site.problems, Qualifiers.storage_of_isConst hq] at hok
    obtain ⟨e, he, hfolds⟩ := Check.const_of_ok hok hv ht
    have htyped := Check.typed_expr stage (hinit e he) (Check.init_of_ok hok he)
    obtain ⟨hchecked, hsome⟩ := hfolds htyped.isSome_ty
    obtain ⟨c, hc⟩ := Option.isSome_iff_exists.mp hsome
    have hbound := hrun.init_bound hr he
    -- The check has compared the types, and folding agrees with the recorded one.
    have hct : c.ty = t := (Check.right_expr stage hbound).agrees t c hchecked
      (Outcome.value?_eq_some_iff.mp hc)
    refine ⟨v, e.checked stage, c, hv, by simp [Declarator.mapExprs, he], hc, hct ▸ ht, ?_⟩
    rw [hconstant, Bind.constantOf, if_pos hq, he, Option.bind_some,
      Expr.constant?_eq_ite hbound hc]
    split
    · rfl
    · simp [ht, hct]

/-- The length of a sum that is no constant, though its length is. -/
def openLengthSource : String :=
  "uniform vec3 a; const int n = (a + a).length();"

theorem analyze_openLengthSource :
    ∃ a, analyze openLengthSource .any = .ok a ∧ a.isClean = true ∧
      ∃ d ∈ TranslationUnit.consts a.unit,
        (d.binding.any fun v => v.constant.isNone) = true := by
  have hany : ((analyze openLengthSource .any).toOption.any fun a => a.isClean &&
      (TranslationUnit.consts a.unit).any fun d =>
        d.binding.any fun v => v.constant.isNone) = true := by decide +kernel
  obtain ⟨a, ha, hboth⟩ := exists_ok_of_any hany
  obtain ⟨hclean, hconsts⟩ := Bool.and_eq_true_iff.mp hboth
  exact ⟨a, ha, hclean, List.any_eq_true.mp hconsts⟩

theorem const_constant_openLengthSource :
    ∃ a, analyze openLengthSource .any = .ok a ∧ a.isClean = true ∧
      ∃ d ∈ TranslationUnit.consts a.unit,
        ∃ v init c, d.binding = some v ∧ d.init = some init ∧ init.constant? = some c ∧
          v.ty = some c.ty ∧
          v.constant = if init.visited.any Expr.isOpenLength then none else some c := by
  obtain ⟨a, ha, hclean, d, hd, -⟩ := analyze_openLengthSource
  exact ⟨a, ha, hclean, d, hd, const_constant_of_isClean ha hclean hd⟩

theorem const_unfolded_openLengthSource :
    ∃ a, analyze openLengthSource .any = .ok a ∧ a.isClean = true ∧
      ∃ d ∈ TranslationUnit.consts a.unit, ∃ v, d.binding = some v ∧ v.constant.isNone = true := by
  obtain ⟨a, ha, hclean, d, hd, hnone⟩ := analyze_openLengthSource
  cases hv : d.binding with
  | none => simp [hv] at hnone
  | some v => exact ⟨a, ha, hclean, d, hd, v, hv, by simpa [hv] using hnone⟩

end Shader
