import Shader.Check.Expr
import Shader.Fold.Access
import Shader.Proofs.Fold.Operator

/-! Fields, swizzles and indices of constants. What the checking rules accept has a value of the
type that they give. -/

namespace Shader

namespace Swizzle

theorem length_le_utf8ByteSize (cs : List Char) :
    cs.length ≤ (String.ofList cs).utf8ByteSize := by
  induction cs with
  | nil => simp
  | cons c cs ih =>
    have hc := c.utf8Size_pos
    rw [← List.singleton_append, String.ofList_append, String.utf8ByteSize_append]
    have hone : (String.ofList [c]).utf8ByteSize = c.utf8Size := by simp
    simp only [List.length_append, List.length_singleton, hone]
    omega

theorem select_cons {field : String} {size : Nat} {set : Option Nat} {c : Char} {cs : List Char}
    {is : List Nat} :
    select field size set (c :: cs) = .ok is ↔ ∃ s i js, letter? c = some (s, i) ∧
      (∀ t ∈ set, t = s) ∧ i < size ∧ select field size (some s) cs = .ok js ∧ is = i :: js := by
  have hmixed : ∀ s, set.any (· ≠ s) = true ↔ ¬ ∀ t ∈ set, t = s := by
    intro s
    cases set <;> simp
  rw [select]
  cases hc : letter? c with
  | none => simp
  | some p =>
    obtain ⟨s, i⟩ := p
    simp only [hmixed, Option.some.injEq, Prod.mk.injEq]
    constructor
    · intro h
      split at h
      · cases h
      · rename_i hset
        split at h
        · cases h
        · rename_i hi
          cases hrest : select field size (some s) cs with
          | error p => simp [hrest, Except.map] at h
          | ok js =>
            simp only [hrest, Except.map, Except.ok.injEq] at h
            exact ⟨s, i, js, ⟨rfl, rfl⟩, Classical.not_not.mp hset, Nat.not_le.mp hi, hrest, h.symm⟩
    · rintro ⟨s, i, js, ⟨rfl, rfl⟩, hset, hi, hrest, rfl⟩
      rw [if_neg (Classical.not_not.mpr hset), if_neg (Nat.not_le.mpr hi), hrest, Except.map]

theorem select_length {field : String} {size : Nat} {set : Option Nat} {cs : List Char}
    {is : List Nat} (h : select field size set cs = .ok is) : is.length = cs.length := by
  induction cs generalizing set is with
  | nil =>
    cases h
    rfl
  | cons c cs ih =>
    obtain ⟨s, i, js, -, -, -, hrest, rfl⟩ := select_cons.mp h
    simp [ih hrest]

theorem select_lt {field : String} {size : Nat} {set : Option Nat} {cs : List Char}
    {is : List Nat} (h : select field size set cs = .ok is) : ∀ i ∈ is, i < size := by
  induction cs generalizing set is with
  | nil =>
    cases h
    simp
  | cons c cs ih =>
    obtain ⟨s, i, js, -, -, hi, hrest, rfl⟩ := select_cons.mp h
    exact List.forall_mem_cons.mpr ⟨hi, ih hrest⟩

theorem indices_length {field : String} {size : Nat} {is : List Nat}
    (h : indices field size = .ok is) : 1 ≤ is.length ∧ is.length ≤ 4 := by
  unfold indices at h
  split at h
  · cases h
  · rename_i hbytes
    simp only [Bool.or_eq_true, decide_eq_true_eq, not_or, Nat.not_lt] at hbytes
    have hne : field.toList ≠ [] := by simpa using hbytes.1
    have hle := length_le_utf8ByteSize field.toList
    rw [String.ofList_toList] at hle
    rw [select_length h]
    exact ⟨List.length_pos_iff.mpr hne, Nat.le_trans hle hbytes.2⟩

theorem indices_lt {field : String} {size : Nat} {is : List Nat}
    (h : indices field size = .ok is) : ∀ i ∈ is, i < size := by
  unfold indices at h
  split at h
  · cases h
  · exact select_lt h

end Swizzle

theorem BasicTy.componentKind?_ofComponents (k : ScalarKind) (n : Nat) :
    (BasicTy.ofComponents k n).componentKind? = some k := by
  unfold BasicTy.ofComponents
  split <;> rfl

theorem BasicTy.componentCount_ofComponents {k : ScalarKind} {n : Nat} (h1 : 1 ≤ n) (h4 : n ≤ 4) :
    (BasicTy.ofComponents k n).componentCount = n := by
  obtain rfl | rfl | rfl | rfl : n = 1 ∨ n = 2 ∨ n = 3 ∨ n = 4 := by omega
  all_goals rfl

namespace Fold

theorem component_meets {cs : List Scalar} {i : Nat} (h : i < cs.length) :
    (Outcome.ofExcept (component cs i)).Meets False (· ∈ cs) := by
  simp [component, List.getElem?_eq_getElem h]

theorem field_typed {c : Constant} (hc : c.WellShaped) (name : String) (span : Span) :
    (field c name).Meets ((Check.fieldTy c.ty name span).value = none) fun r =>
      (Check.fieldTy c.ty name span).value = some r.ty ∧ r.WellShaped := by
  obtain ⟨ty, v⟩ := c
  change v.Fits ty at hc
  cases ty with
  | array element size => simp [field, Check.fieldTy, Check.untyped]
  | struct id tag fields =>
    obtain ⟨values, rfl, hfields⟩ := Value.fits_struct_iff.mp hc
    cases hlookup : fields.lookup name with
    | none => simp [field, Check.fieldTy, Check.untyped, hlookup]
    | some t =>
      obtain ⟨w, hw, hfits⟩ := hfields.lookup hlookup
      simp only [field, Check.fieldTy, hlookup, hw, Outcome.ofOption_some, Outcome.value_bind]
      exact ⟨rfl, hfits⟩
  | basic b =>
    cases b with
    | vector k n =>
      obtain ⟨cs, rfl, hlen, hkind⟩ := Value.fits_vector_iff.mp hc
      cases hindices : Swizzle.indices name n.toNat with
      | error p => simp [field, Check.fieldTy, Check.untyped, hindices, Except.toOption]
      | ok is =>
        obtain ⟨hone, hfour⟩ := Swizzle.indices_length hindices
        have hlt : ∀ i ∈ is, i < cs.length := hlen ▸ Swizzle.indices_lt hindices
        have hcs := Outcome.Meets.mapM fun i hi => component_meets (hlt i hi)
        simp only [field, Check.fieldTy, hindices, Except.toOption, Outcome.ofOption_some,
          Outcome.value_bind]
        refine (hcs.mono False.elim fun _ h => h).bind fun rs hrs => ?_
        rw [hrs.1]
        refine (ofComponents_meets (BasicTy.componentKind?_ofComponents k _) ?_ ?_).mono
          False.elim fun r hr => ⟨congrArg some hr.1.symm, hr.2⟩
        · rw [BasicTy.componentCount_ofComponents hone hfour, hrs.1]
        · exact fun s hs => hkind s (hrs.2 s hs)
    | scalar k =>
      simp only [field, Check.fieldTy, Outcome.meets_notConstant]
      split <;> rfl
    | void => simp [field, Check.fieldTy, Check.untyped]
    | matrix c r => simp [field, Check.fieldTy, Check.untyped]
    | sampler s => simp [field, Check.fieldTy, Check.untyped]

theorem column_meets {c r : Dim} {v : Value} (hv : v.Fits (.basic (.matrix c r))) (i : Nat) :
    (Outcome.ofExcept (v.column? i)).Meets False fun column =>
      (column = none ↔ c.toNat ≤ i) ∧ ∀ w ∈ column, w.Fits (.basic (.vector .float r)) := by
  obtain ⟨data, rfl, hlen⟩ := Value.fits_matrix_iff.mp hv
  by_cases hi : c.toNat ≤ i
  · simp [Value.column?, hi]
  · have hstop : (i + 1) * r.toNat ≤ data.length :=
      hlen ▸ Nat.mul_le_mul_right _ (Nat.lt_of_not_le hi)
    rw [Nat.add_one_mul] at hstop
    simp only [Value.column?, hi, if_false, Nat.add_one_mul, Nat.not_lt.mpr hstop,
      Outcome.ofExcept_ok, Outcome.meets_value, reduceCtorEq, Option.mem_def, Option.some.injEq,
      forall_eq']
    refine ⟨trivial, Value.fits_vector_iff.mpr ⟨_, rfl, ?_, ?_⟩⟩
    · simp only [List.length_map, List.length_take, List.length_drop]
      omega
    · simp only [List.mem_map]
      rintro s ⟨x, _, rfl⟩
      rfl

theorem index_place {a i : Constant} {p : Nat} (ha : a.WellShaped) (hp : place? i = some p) :
    (index a i).Meets (∀ t bound, Check.elementOf? a.ty = some (t, bound) → ∃ n ∈ bound, n ≤ p)
      fun r => (Check.elementOf? a.ty).map Prod.fst = some r.ty ∧ r.WellShaped := by
  obtain ⟨ty, v⟩ := a
  change v.Fits ty at ha
  simp only [index, hp, Outcome.ofOption_some, Outcome.value_bind]
  cases ty with
  | struct id tag fields => simp [Check.elementOf?]
  | array element size =>
    obtain ⟨values, rfl, rfl, hvalues⟩ := Value.fits_array_iff.mp ha
    by_cases hlt : p < values.length
    · simp only [List.getElem?_eq_getElem hlt, Outcome.ofOption_some, Outcome.value_bind]
      exact ⟨rfl, hvalues _ (List.getElem_mem hlt)⟩
    -- Beyond the end the check has its own complaint.
    · have hle := Nat.le_of_not_lt hlt
      simp [Check.elementOf?, hle]
  | basic b =>
    cases b with
    | vector k n =>
      obtain ⟨cs, rfl, hlen, hkind⟩ := Value.fits_vector_iff.mp ha
      by_cases hlt : p < cs.length
      · simp only [List.getElem?_eq_getElem hlt, Outcome.ofOption_some, Outcome.value_bind]
        have hk := hkind _ (List.getElem_mem hlt)
        exact ⟨by simp [Check.elementOf?, Constant.ofScalar, hk], Value.fits_ofScalar _⟩
      · have hle := Nat.le_of_not_lt hlt
        simp [Check.elementOf?, ← hlen, hle]
    | matrix c r =>
      refine ((column_meets ha p).mono False.elim fun _ h => h).bind fun column hcolumn => ?_
      cases column with
      | none => simpa [Check.elementOf?] using hcolumn.1
      | some w => exact ⟨rfl, hcolumn.2 w rfl⟩
    | void => simp [Check.elementOf?]
    | scalar k => simp [Check.elementOf?]
    | sampler s => simp [Check.elementOf?]

theorem index_typed {a i : Constant} (ha : a.WellShaped) :
    (index a i).Meets True fun r => (Check.elementOf? a.ty).map Prod.fst = some r.ty ∧
      r.WellShaped := by
  cases hp : place? i with
  | none => simp [index, hp]
  | some p => exact (index_place ha hp).mono (fun _ => trivial) fun _ h => h

theorem index_meets {a i : Constant} {t : Ty} {bound : Option Nat} {n : Nat} (ha : a.WellShaped)
    (hi : i.ty.isInteger = true) (hn : i.index? = some (n : Int))
    (ht : Check.elementOf? a.ty = some (t, bound)) (hbound : ∀ m ∈ bound, n < m) :
    (index a i).Meets False (Has t) := by
  have hp : place? i = some n := by
    simp only [place?, hi, hn, if_true]
  refine (index_place ha hp).mono (fun hout => ?_) fun r hr => ⟨?_, hr.2⟩
  · obtain ⟨m, hm, hle⟩ := hout t bound ht
    exact Nat.lt_irrefl m (Nat.lt_of_le_of_lt hle (hbound m hm))
  · simpa [ht, eq_comm] using hr.1

end Fold

end Shader
