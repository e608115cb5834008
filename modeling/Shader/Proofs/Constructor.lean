import Shader.Proofs.Fold.Construct

/-! The two rules for constructors. Folding goes by the values of the arguments and checking by
their types. Both take the same arguments, except that folding a vector or a matrix ignores
arguments of which nothing is used. -/

namespace Shader

namespace Check

variable {ty : Ty} {needed : Nat} {tys : List Ty}

/-- Enough components are refused only if the last argument adds nothing to them. -/
theorem componentsProblem?_of_enough
    (h : totalComponents tys = 1 ∨ needed ≤ totalComponents tys) :
    componentsProblem? ty needed tys = none ∨
      needed ≤ totalComponents tys.dropLast ∧
        componentsProblem? ty needed tys = some (.tooMany ty) := by
  unfold componentsProblem?
  by_cases hone : totalComponents tys = 1
  · simp [hone]
  · have henough : ¬totalComponents tys < needed := Nat.not_lt.mpr (h.resolve_left hone)
    by_cases hmany : needed ≤ totalComponents tys.dropLast
    · exact .inr ⟨hmany, by simp [hone, henough, hmany]⟩
    · exact .inl (by simp [hone, henough, hmany])

theorem compositeProblem?_of_enough (hpos : 0 < needed)
    (hcounts : ∀ t ∈ tys, t.componentCount ≠ 0)
    (hplain : (ty.isMatrix && tys.any Ty.isMatrix) = false)
    (h : totalComponents tys = 1 ∨ needed ≤ totalComponents tys) :
    compositeProblem? ty needed tys = none ∨
      needed ≤ totalComponents tys.dropLast ∧
        compositeProblem? ty needed tys = some (.tooMany ty) := by
  have hne : tys ≠ [] := by
    rintro rfl
    simp only [totalComponents, List.foldr_nil] at h
    omega
  have hfind : (tys.find? fun t => t.componentCount = 0) = none := by simpa using hcounts
  have hrule : compositeProblem? ty needed tys = componentsProblem? ty needed tys := by
    simp only [compositeProblem?, List.isEmpty_iff, hne, if_false, hfind, hplain,
      Bool.false_eq_true]
  rw [hrule]
  exact componentsProblem?_of_enough h

theorem compositeProblem?_matrix {t : Ty} (hty : ty.isMatrix = true) (ht : t.isMatrix = true)
    (hcount : t.componentCount ≠ 0) : compositeProblem? ty needed [t] = none := by
  simp [compositeProblem?, hty, ht, hcount]

theorem fieldProblem?_self (ty : Ty) (fields : List (String × Ty)) :
    fieldProblem? ty fields (fields.map Prod.snd) = none := by
  induction fields with
  | nil => rfl
  | cons f fields ih => simpa [fieldProblem?] using ih

end Check

namespace Fold

variable {kind : ScalarKind} {args : List Constant} {cs : List Scalar}

/-- Flattening counts components as checking does, and refuses what has none. -/
theorem flatten_counts (hargs : ∀ a ∈ args, a.WellShaped) (h : flatten kind args = some cs) :
    (∀ t ∈ args.map Constant.ty, t.componentCount ≠ 0) ∧
      cs.length = Check.totalComponents (args.map Constant.ty) := by
  have hcounts : ∀ a ∈ args, a.ty.componentCount ≠ 0 := by
    intro a ha hzero
    have hany : (args.any fun a => a.ty.componentCount = 0) = true :=
      List.any_eq_true.mpr ⟨a, ha, by simpa using hzero⟩
    simp [flatten, hany] at h
  obtain ⟨ds, hds, hlen⟩ := @flatten_eq_some kind _ hargs hcounts
  obtain rfl : cs = ds := Option.some.inj (h.symm.trans hds)
  exact ⟨by simpa using hcounts, hlen⟩

theorem vectorOf_enough {n : Nat} {v : Value} (hf : flatten kind args = some cs)
    (h : vectorOf kind n args = some v) : cs.length = 1 ∨ n ≤ cs.length := by
  simp only [vectorOf, hf, Option.bind_eq_bind, Option.bind_some] at h
  split at h
  · exact .inl rfl
  · split at h
    · simp at h
    · exact .inr (by omega)

theorem isMatrix_of_wellShaped {t : Ty} {cols rows : Nat} {data : List Binary32}
    (h : Constant.WellShaped ⟨t, .matrix cols rows data⟩) :
    t.isMatrix = true ∧ t.componentCount ≠ 0 := by
  cases t with
  | basic b =>
    cases b with
    | matrix c r => exact ⟨rfl, by cases c <;> cases r <;> decide⟩
    | _ => simp [Constant.WellShaped, Value.Fits] at h
  | _ => simp [Constant.WellShaped, Value.Fits] at h

theorem isScalar_of_wellShaped {t : Ty} {s : Scalar} (h : Constant.WellShaped ⟨t, .scalar s⟩) :
    t.isMatrix = false ∧ t.componentCount = 1 := by
  cases t with
  | basic b =>
    cases b with
    | scalar k => exact ⟨rfl, rfl⟩
    | _ => simp [Constant.WellShaped, Value.Fits] at h
  | _ => simp [Constant.WellShaped, Value.Fits] at h

theorem matrixOf_supplied {cols rows : Nat} {v : Value} (hargs : ∀ a ∈ args, a.WellShaped)
    (h : matrixOf cols rows args = .value v) :
    (∀ t ∈ args.map Constant.ty, t.componentCount ≠ 0) ∧
      ((∃ a, args = [a] ∧ a.ty.isMatrix = true) ∨
        (args.map Constant.ty).any Ty.isMatrix = false ∧
          (Check.totalComponents (args.map Constant.ty) = 1 ∨
            cols * rows ≤ Check.totalComponents (args.map Constant.ty))) := by
  unfold matrixOf at h
  dsimp only at h
  split at h
  · rename_i t c r data
    obtain ⟨hmatrix, hcount⟩ := isMatrix_of_wellShaped (hargs _ List.mem_cons_self)
    exact ⟨by simpa using hcount, .inl ⟨_, rfl, hmatrix⟩⟩
  · rename_i t s
    obtain ⟨hplain, hone⟩ := isScalar_of_wellShaped (hargs _ List.mem_cons_self)
    refine ⟨by simp [hone], .inr ⟨by simpa using hplain, .inl ?_⟩⟩
    simp [Check.totalComponents, hone]
  · split at h
    · cases h
    · rename_i hany
      cases hcs : flatten .float args with
      | none => simp [hcs] at h
      | some cs =>
        obtain ⟨hcounts, hlen⟩ := flatten_counts hargs hcs
        rw [hcs] at h
        simp only [Outcome.ofOption_some, Outcome.value_bind] at h
        split at h
        · cases h
        · refine ⟨hcounts, .inr ⟨by simpa using hany, .inr ?_⟩⟩
          omega

/-- Arguments that give a value pass the checking rule, unless the last one is not used. -/
theorem constructorProblem?_of_value {ty : Ty} {v : Value} (hargs : ∀ a ∈ args, a.WellShaped)
    (h : constructValue ty args = .value v) :
    Check.constructorProblem? ty (args.map Constant.ty) = none ∨
      (ty.isVector || ty.isMatrix) = true ∧
        ty.componentCount ≤ Check.totalComponents (args.map Constant.ty).dropLast ∧
        Check.constructorProblem? ty (args.map Constant.ty) = some (.tooMany ty) := by
  unfold constructValue at h
  split at h
  · rename_i kind
    split at h
    · rename_i arg
      cases hcs : flatten kind [arg] with
      | none => simp [hcs] at h
      | some cs =>
        have hcount := (flatten_counts hargs hcs).1 arg.ty (by simp)
        exact .inl (by simp [Check.constructorProblem?, Nat.pos_of_ne_zero hcount])
    · cases h
  · rename_i kind n
    obtain ⟨cs, hcs, henough⟩ : ∃ cs, flatten kind args = some cs ∧
        (cs.length = 1 ∨ n.toNat ≤ cs.length) := by
      cases hcs : flatten kind args with
      | none => simp [vectorOf, hcs] at h
      | some cs =>
        cases hv : vectorOf kind n.toNat args with
        | none => simp [hv] at h
        | some w => exact ⟨cs, rfl, vectorOf_enough hcs hv⟩
    obtain ⟨hcounts, hlen⟩ := flatten_counts hargs hcs
    -- Folding drops components that are left over, the check refuses an argument of which nothing
    -- is used.
    exact (Check.compositeProblem?_of_enough (Nat.lt_of_lt_of_le Nat.two_pos n.two_le_toNat)
      hcounts rfl (hlen ▸ henough)).imp_right fun hmany => ⟨rfl, hmany⟩
  · rename_i c r
    obtain ⟨hcounts, ⟨a, rfl, hmatrix⟩ | ⟨hplain, henough⟩⟩ := matrixOf_supplied hargs h
    · exact .inl (Check.compositeProblem?_matrix rfl hmatrix (hcounts a.ty (by simp)))
    · have hpos : 0 < c.toNat * r.toNat := by cases c <;> cases r <;> decide
      exact (Check.compositeProblem?_of_enough hpos hcounts (by rw [hplain, Bool.and_false])
        henough).imp_right fun hmany => ⟨rfl, hmany⟩
  · rename_i id name fields
    split at h
    · rename_i htys
      rw [← htys]
      exact .inl (by simp [Check.constructorProblem?, Check.fieldProblem?_self])
    · cases h
  · rename_i element n
    split at h
    · rename_i hboth
      simp only [Bool.and_eq_true, decide_eq_true_eq, List.all_eq_true] at hboth
      exact .inl (by simpa [Check.constructorProblem?, hboth.1] using hboth.2)
    · cases h
  · cases h

/-- For constant arguments checking and folding agree on constructors: what the check accepts has a
value of the type, and what has a value is accepted, unless a vector or a matrix is full before its
last argument. That argument is then one too many for the check alone. -/
theorem constructor_rules_agree (ty : Ty) (args : List Constant)
    (hargs : ∀ a ∈ args, a.WellShaped) :
    (Check.constructorProblem? ty (args.map Constant.ty) = none →
      ∃ c, construct ty args = .value c ∧ c.ty = ty) ∧
    (∀ c, construct ty args = .value c →
      Check.constructorProblem? ty (args.map Constant.ty) = none ∨
      (ty.isVector || ty.isMatrix) = true ∧
        ty.componentCount ≤ Check.totalComponents (args.dropLast.map Constant.ty) ∧
        Check.constructorProblem? ty (args.map Constant.ty) = some (.tooMany ty)) := by
  constructor
  · intro hok
    obtain ⟨c, hc, hty, -⟩ := (construct_meets hargs hok).exists_value
    exact ⟨c, hc, hty⟩
  · intro c hc
    cases hv : constructValue ty args with
    | value v =>
      rw [List.map_dropLast]
      exact constructorProblem?_of_value hargs hv
    | notConstant => simp [construct, hv] at hc
    | fault f => simp [construct, hv] at hc

/-- Three integers and a bool, which fill a square of floats. -/
def mixedArgs : List Constant :=
  [⟨.basic (.vector .int .three), .vector [.int 1, .int 2, .int 3]⟩, .ofBool true]

/-- The same with one argument more. -/
def surplusArgs : List Constant :=
  mixedArgs ++ [.ofBool false]

theorem surplusArgs_wellShaped : ∀ a ∈ surplusArgs, a.WellShaped := by
  simp [surplusArgs, mixedArgs, Constant.WellShaped, Constant.ofBool, Constant.ofScalar, Ty.scalar,
    Value.Fits, Dim.toNat]

/-- The arguments are accepted; with one more there still is a matrix, but it is refused. -/
theorem constructor_rules_agree_mixedArgs :
    (∀ a ∈ surplusArgs, a.WellShaped) ∧
      (∃ c, construct (.basic (.matrix .two .two)) mixedArgs = .value c ∧
        c.ty = .basic (.matrix .two .two)) ∧
      (∃ c, construct (.basic (.matrix .two .two)) surplusArgs = .value c) ∧
      Check.constructorProblem? (.basic (.matrix .two .two)) (surplusArgs.map Constant.ty) =
        some (.tooMany (.basic (.matrix .two .two))) := by
  have hshaped := surplusArgs_wellShaped
  refine ⟨hshaped, ?_, ⟨_, rfl⟩, ?_⟩
  · exact (constructor_rules_agree (.basic (.matrix .two .two)) mixedArgs
      fun a ha => hshaped a (List.mem_append_left _ ha)).1 rfl
  · exact ((constructor_rules_agree (.basic (.matrix .two .two)) surplusArgs hshaped).2 _ rfl).elim
      (fun hnone => absurd hnone (by decide)) fun hmany => hmany.2.2

end Fold

end Shader
