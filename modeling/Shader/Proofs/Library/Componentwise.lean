import Shader.Library.Componentwise
import Shader.Proofs.Outcome
import Shader.Proofs.Shape

/-! Functions that work component by component. The kinds of the arguments decide the kind of the
result, and only NaN in an order comparison keeps a value away. -/

namespace Shader

namespace ScalarFunction

def isOrder : ScalarFunction → Bool
  | lessThan | lessThanEqual | greaterThan | greaterThanEqual => true
  | _ => false

def unaryKind? : ScalarFunction → ScalarKind → Option ScalarKind
  | abs, .int | sign, .int | floatBitsToInt, .float => some .int
  | floatBitsToUint, .float => some .uint
  | isnan, .float | isinf, .float => some .bool
  | intBitsToFloat, .int | uintBitsToFloat, .uint => some .float
  | f, .float => (Library.unaryFloat? f).map fun _ => .float
  | _, _ => none

def binaryKind? (f : ScalarFunction) (k : ScalarKind) : Option ScalarKind :=
  match f with
  | lessThan | lessThanEqual | greaterThan | greaterThanEqual =>
    if k.isNumeric then some .bool else none
  | equal | notEqual => some .bool
  | min | max => if k.isNumeric then some k else none
  | f => if k = .float then (Library.binaryFloat? f).map fun _ => .float else none

def ternaryKind? : ScalarFunction → ScalarKind → ScalarKind → ScalarKind → Option ScalarKind
  | mix, a, b, .bool => if a = b then some a else none
  | clamp, .int, .int, .int => some .int
  | clamp, .uint, .uint, .uint => some .uint
  | f, .float, .float, .float => (Library.ternaryFloat? f).map fun _ => .float
  | _, _, _, _ => none

/-- The kind of what a function gives for scalars of the given kinds. -/
def resultKind? (f : ScalarFunction) : List ScalarKind → Option ScalarKind
  | [a] => f.unaryKind? a
  | [a, b] => if a = b then f.binaryKind? a else none
  | [a, b, c] => f.ternaryKind? a b c
  | _ => none

/-- The type of what a function gives for arguments of the given types: scalars, and vectors of one
size. -/
def resultTy? (f : ScalarFunction) (tys : List BasicTy) : Option BasicTy := do
  let k ← f.resultKind? (← tys.mapM BasicTy.componentKind?)
  match tys.find? fun t => !t.isScalar with
  | none => some (.scalar k)
  | some (.vector _ n) =>
    if tys.all fun t => t.componentCount = 1 || t.componentCount = n.toNat then some (.vector k n)
    else none
  | some _ => none

end ScalarFunction

namespace Library

/-- NaN is to be put in order. -/
def Unordered (f : ScalarFunction) (args : List Scalar) : Prop :=
  f.isOrder = true ∧ ∃ x, .float x ∈ args ∧ x.isNaN = true

theorem unary_meets {f : ScalarFunction} {s : Scalar} {k : ScalarKind}
    (h : f.unaryKind? s.kind = some k) :
    (Outcome.ofOption (scalarFunction f [s])).Meets False fun r => r.kind = k := by
  cases s <;> unfold ScalarFunction.unaryKind? at h <;> split at h <;>
    simp_all [scalarFunction, mixedScalar, floatScalar]
  -- What is left are the functions of one float.
  obtain ⟨⟨g, hg⟩, rfl⟩ := h
  simp [hg]

theorem compare_meets {a b : Scalar} (hab : a.kind = b.kind) (hk : a.kind.isNumeric = true)
    (answer : Ordering → Bool) :
    (Outcome.ofOption ((a.compare? b).map fun o => Scalar.bool (answer o))).Meets
      (∃ x, .float x ∈ [a, b] ∧ x.isNaN = true) fun r => r.kind = .bool := by
  cases a with
  | bool p => simp [ScalarKind.isNumeric] at hk
  | int i =>
    obtain ⟨j, rfl⟩ := Scalar.kind_eq_int.mp hab.symm
    simp [Scalar.compare?]
  | uint u =>
    obtain ⟨w, rfl⟩ := Scalar.kind_eq_uint.mp hab.symm
    simp [Scalar.compare?]
  | float x =>
    obtain ⟨y, rfl⟩ := Scalar.kind_eq_float.mp hab.symm
    cases hxy : x.compare? y with
    | some o => simp [Scalar.compare?, hxy]
    | none =>
      have hnan : x.isNaN = true ∨ y.isNaN = true := by
        simpa [Binary32.compare?, Decidable.or_iff_not_imp_left] using hxy
      simpa [Scalar.compare?, hxy, or_and_right, exists_or] using hnan

theorem scalarFunction_order {f : ScalarFunction} (hf : f.isOrder = true) (a b : Scalar) :
    ∃ answer : Ordering → Bool,
      scalarFunction f [a, b] = (a.compare? b).map fun o => .bool (answer o) := by
  have hfloat : floatScalar f [a, b] = none := by
    cases f <;> simp [ScalarFunction.isOrder] at hf <;> cases a <;> cases b <;> rfl
  cases f <;> simp [ScalarFunction.isOrder] at hf <;>
    simp only [scalarFunction, mixedScalar, hfloat]
  · exact ⟨Ordering.isLT, by simp⟩
  · exact ⟨Ordering.isLE, by simp⟩
  · exact ⟨Ordering.isGT, by simp⟩
  · exact ⟨Ordering.isGE, by simp⟩

theorem binary_meets {f : ScalarFunction} {a b : Scalar} {k : ScalarKind} (hab : a.kind = b.kind)
    (h : f.binaryKind? a.kind = some k) :
    (Outcome.ofOption (scalarFunction f [a, b])).Meets (Unordered f [a, b]) fun r =>
      r.kind = k := by
  by_cases hf : f.isOrder = true
  · obtain ⟨hk, rfl⟩ : a.kind.isNumeric = true ∧ .bool = k := by
      cases f <;> simp_all [ScalarFunction.isOrder, ScalarFunction.binaryKind?]
    obtain ⟨answer, heq⟩ := scalarFunction_order hf a b
    rw [heq]
    exact (compare_meets hab hk answer).mono (fun h => ⟨hf, h⟩) fun _ h => h
  · cases a <;> cases b <;> cases hab
    all_goals
      cases f <;> simp_all [ScalarFunction.binaryKind?, ScalarFunction.isOrder,
        ScalarKind.isNumeric, scalarFunction, mixedScalar, floatScalar, binaryFloat?]

theorem ternary_meets {f : ScalarFunction} {a b c : Scalar} {k : ScalarKind}
    (h : f.ternaryKind? a.kind b.kind c.kind = some k) :
    (Outcome.ofOption (scalarFunction f [a, b, c])).Meets False fun r => r.kind = k := by
  unfold ScalarFunction.ternaryKind? at h
  split at h
  · rename_i hc
    obtain ⟨p, rfl⟩ := Scalar.kind_eq_bool.mp hc
    obtain ⟨hab, rfl⟩ : _ ∧ _ := by simpa using h
    cases p <;> simp [scalarFunction, mixedScalar, hab]
  · rename_i ha hb hc
    obtain ⟨_, rfl⟩ := Scalar.kind_eq_int.mp ha
    obtain ⟨_, rfl⟩ := Scalar.kind_eq_int.mp hb
    obtain ⟨_, rfl⟩ := Scalar.kind_eq_int.mp hc
    cases h
    simp [scalarFunction, mixedScalar]
  · rename_i ha hb hc
    obtain ⟨_, rfl⟩ := Scalar.kind_eq_uint.mp ha
    obtain ⟨_, rfl⟩ := Scalar.kind_eq_uint.mp hb
    obtain ⟨_, rfl⟩ := Scalar.kind_eq_uint.mp hc
    cases h
    simp [scalarFunction, mixedScalar]
  · rename_i ha hb hc
    obtain ⟨_, rfl⟩ := Scalar.kind_eq_float.mp ha
    obtain ⟨_, rfl⟩ := Scalar.kind_eq_float.mp hb
    obtain ⟨_, rfl⟩ := Scalar.kind_eq_float.mp hc
    obtain ⟨g, hg, rfl⟩ := Option.map_eq_some_iff.mp h
    simp [scalarFunction, mixedScalar, floatScalar, hg]
  · cases h

theorem scalarFunction_meets {f : ScalarFunction} {args : List Scalar} {k : ScalarKind}
    (h : f.resultKind? (args.map Scalar.kind) = some k) :
    (Outcome.ofOption (scalarFunction f args)).Meets (Unordered f args) fun r => r.kind = k := by
  match args, h with
  | [a], h => exact (unary_meets h).mono False.elim fun _ h => h
  | [a, b], h =>
    obtain ⟨hab, h⟩ : _ ∧ _ := by simpa [ScalarFunction.resultKind?] using h
    exact binary_meets hab h
  | [a, b, c], h => exact (ternary_meets h).mono False.elim fun _ h => h

theorem mapM_pick {g : Value → Option Scalar} {args : List Value} {tys : List BasicTy}
    (hargs : Value.AllFit args tys)
    (hg : ∀ v, ∀ t ∈ tys, v.Fits (.basic t) → ∃ s ∈ v.components, g v = some s) :
    ∃ ss, args.mapM g = some ss ∧ tys.mapM BasicTy.componentKind? = some (ss.map Scalar.kind) ∧
      ∀ s ∈ ss, ∃ a ∈ args, s ∈ a.components := by
  induction tys generalizing args with
  | nil =>
    obtain rfl := Value.allFit_nil_iff.mp hargs
    exact ⟨[], rfl, rfl, by simp⟩
  | cons t tys ih =>
    obtain ⟨v, vs, rfl, hv, hvs⟩ := Value.allFit_cons_iff.mp hargs
    obtain ⟨s, hs, hgv⟩ := hg v t (by simp) hv
    obtain ⟨k, hk, -, hkinds⟩ := hv.components
    obtain ⟨ss, hss, hks, hmem⟩ := ih hvs fun w u hu => hg w u (by simp [hu])
    refine ⟨s :: ss, ?_, ?_, ?_⟩
    · simp [hgv, hss]
    · simp [hk, hks, hkinds s hs]
    · simp only [List.mem_cons, forall_eq_or_imp, exists_eq_or_imp]
      exact ⟨.inl hs, fun r hr => .inr (hmem r hr)⟩

theorem find_shape {args : List Value} {tys : List BasicTy} (hargs : Value.AllFit args tys) :
    match tys.find? fun t => !t.isScalar with
    | none => args.find? (fun a => !isScalarValue a) = none
    | some t => ∃ v, args.find? (fun a => !isScalarValue a) = some v ∧ v.Fits (.basic t) := by
  induction tys generalizing args with
  | nil =>
    obtain rfl := Value.allFit_nil_iff.mp hargs
    simp
  | cons t tys ih =>
    obtain ⟨v, vs, rfl, hv, hvs⟩ := Value.allFit_cons_iff.mp hargs
    cases t with
    | scalar k =>
      obtain ⟨s, rfl, -⟩ := Value.fits_scalar_iff.mp hv
      simpa [BasicTy.isScalar, isScalarValue] using ih hvs
    | vector k n =>
      obtain ⟨cs, rfl, -⟩ := Value.fits_vector_iff.mp hv
      simpa [BasicTy.isScalar, isScalarValue] using hv
    | matrix c r =>
      obtain ⟨data, rfl, -⟩ := Value.fits_matrix_iff.mp hv
      simpa [BasicTy.isScalar, isScalarValue] using hv
    | void => exact (Value.not_fits_void hv).elim
    | sampler s => exact (Value.not_fits_sampler hv).elim

theorem broadcast?_eq_some {cs : List Scalar} {n i : Nat} (hi : i < n)
    (hlen : cs.length = 1 ∨ cs.length = n) : ∃ s ∈ cs, broadcast? cs i = some s := by
  unfold broadcast?
  split
  · simp
  · rename_i hone
    have hn : cs.length = n := by
      refine hlen.resolve_left fun hl => ?_
      obtain ⟨s, rfl⟩ := List.length_eq_one_iff.mp hl
      exact hone s rfl
    exact ⟨_, List.getElem_mem (hn ▸ hi), List.getElem?_eq_getElem _⟩

/-- A component of an argument is NaN, and it is to be put in order. -/
def UnorderedIn (f : ScalarFunction) (args : List Value) : Prop :=
  f.isOrder = true ∧ ∃ a ∈ args, ∃ x, .float x ∈ a.components ∧ x.isNaN = true

theorem Unordered.mono {f : ScalarFunction} {ss : List Scalar} {args : List Value}
    (h : Unordered f ss) (hss : ∀ s ∈ ss, ∃ a ∈ args, s ∈ a.components) : UnorderedIn f args := by
  obtain ⟨hf, x, hx, hnan⟩ := h
  obtain ⟨a, ha, hxa⟩ := hss _ hx
  exact ⟨hf, a, ha, x, hxa, hnan⟩

theorem perComponent_meets {f : ScalarFunction} {args : List Value} {tys : List BasicTy}
    {kinds : List ScalarKind} {k : ScalarKind} {n : Nat} (hargs : Value.AllFit args tys)
    (hkinds : tys.mapM BasicTy.componentKind? = some kinds) (hk : f.resultKind? kinds = some k)
    (hcount : ∀ t ∈ tys, t.componentCount = 1 ∨ t.componentCount = n) :
    (Outcome.ofOption (perComponent f args n)).Meets (UnorderedIn f args) fun rs =>
      rs.length = n ∧ ∀ r ∈ rs, r.kind = k := by
  rw [perComponent, Outcome.ofOption_mapM]
  have hstep : ∀ i ∈ List.range n, (Outcome.ofOption do
      let scalars ← args.mapM fun a => broadcast? a.components i
      scalarFunction f scalars).Meets (UnorderedIn f args) fun r => r.kind = k := by
    intro i hi
    obtain ⟨ss, hss, hks, hmem⟩ := mapM_pick (g := fun a => broadcast? a.components i) hargs
      fun v t ht hv => by
        obtain ⟨-, -, hlen, -⟩ := hv.components
        exact broadcast?_eq_some (List.mem_range.mp hi) (hlen ▸ hcount t ht)
    obtain rfl := Option.some.inj (hkinds.symm.trans hks)
    simp only [hss, Option.bind_eq_bind, Option.bind_some]
    exact (scalarFunction_meets hk).mono (fun h => h.mono hmem) fun _ h => h
  refine (Outcome.Meets.mapM hstep).mono id fun rs hrs => ⟨?_, hrs.2⟩
  rw [hrs.1, List.length_range]

/-- Arguments of the types have a value of the result type, unless NaN is to be put in order. -/
theorem componentwise_meets {f : ScalarFunction} {args : List Value} {tys : List BasicTy}
    {t : BasicTy} (hargs : Value.AllFit args tys) (ht : f.resultTy? tys = some t) :
    (Outcome.ofOption (componentwise f args)).Meets (UnorderedIn f args) fun v =>
      v.Fits (.basic t) := by
  simp only [ScalarFunction.resultTy?, Option.bind_eq_bind, Option.bind_eq_some_iff] at ht
  obtain ⟨kinds, hkinds, k, hk, ht⟩ := ht
  have hshape := find_shape hargs
  split at ht
  · rename_i hnone
    simp only [hnone] at hshape
    have hscalar : ∀ t ∈ tys, t.isScalar = true := by simpa using hnone
    obtain ⟨ss, hss, hks, hmem⟩ := mapM_pick (g := Value.scalar?) hargs fun v t ht hv => by
      obtain ⟨k, rfl⟩ : ∃ k, t = .scalar k := by
        have := hscalar t ht
        cases t <;> simp_all [BasicTy.isScalar]
      obtain ⟨s, rfl, -⟩ := Value.fits_scalar_iff.mp hv
      exact ⟨s, List.mem_singleton_self s, rfl⟩
    obtain rfl := Option.some.inj (hkinds.symm.trans hks)
    obtain rfl := Option.some.inj ht
    simp only [componentwise, hshape, hss, Option.bind_eq_bind, Option.bind_some]
    rw [← Option.bind_eq_bind, Outcome.ofOption_bind]
    refine ((scalarFunction_meets hk).mono (fun h => h.mono hmem) fun _ h => h).bind fun r hr => ?_
    exact Value.fits_scalar_iff.mpr ⟨r, rfl, hr⟩
  · rename_i kind n hsome
    obtain ⟨hall, rfl⟩ : _ ∧ _ := by simpa using ht
    simp only [hsome] at hshape
    obtain ⟨v, hv, hfits⟩ := hshape
    obtain ⟨cs, rfl, hlen, -⟩ := Value.fits_vector_iff.mp hfits
    have hcount : ∀ t ∈ tys, t.componentCount = 1 ∨ t.componentCount = n.toNat := by
      simpa using hall
    simp only [componentwise, hv, Value.components, hlen]
    rw [Outcome.ofOption_bind]
    refine (perComponent_meets hargs hkinds hk hcount).bind fun rs hrs => ?_
    exact Value.fits_vector_iff.mpr ⟨rs, rfl, hrs⟩
  · cases ht

end Library

end Shader
