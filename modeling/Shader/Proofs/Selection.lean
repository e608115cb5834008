import Mathlib.Data.List.Forall2
import Shader.Proofs.Comparison

/-! Components of folded operations. A component of what an operator or a builtin function gives is
what the same operation gives for the components of the operands at that place, where a scalar goes
with every place. Products of linear algebra and functions of whole vectors are left out. -/

namespace Shader

theorem mapM_eq_some_iff {α β : Type} {f : α → Option β} {as : List α} {bs : List β} :
    as.mapM f = some bs ↔ List.Forall₂ (fun a b => f a = some b) as bs := by
  induction as generalizing bs with
  | nil => simp [eq_comm]
  | cons a as ih =>
    simp only [List.mapM_cons, Option.bind_eq_bind, Option.bind_eq_some_iff, ih,
      List.forall₂_cons_left_iff, Option.pure_def, Option.some.injEq]
    simp only [exists_and_left, eq_comm]

/-- The extents of a type: none for a scalar, and columns before rows for a matrix. -/
def BasicTy.extents : BasicTy → List Dim
  | vector _ n => [n]
  | matrix c r => [c, r]
  | _ => []

/-- One component goes with all those of the other type, or each with its own. -/
def BasicTy.Spreads (b t : BasicTy) : Prop :=
  b.extents = [] ∨ b.extents = t.extents

namespace Fold

/-- The component of a constant to which the indices lead; a scalar goes with every place. -/
def componentAt (place : List Constant) (c : Constant) : Outcome Constant :=
  if c.ty.isScalar then .value c else place.foldlM index c

/-- The indices lead to a component in constants of the type. -/
def Reaches (place : List Constant) (t : BasicTy) : Prop :=
  List.Forall₂ (fun p n => ∃ i < n.toNat, place? p = some i) place t.extents

/-- The scalars that the values bring to lane `i`. -/
def InLane (i : Nat) (values : List Value) (ss : List Scalar) : Prop :=
  List.Forall₂ (fun v s => lane v.components i = some s) values ss

variable {a : Constant} {b t : BasicTy} {s : Scalar} {i : Nat} {p : Constant}

theorem Has.fits {ty : Ty} (h : Has ty a) : a.value.Fits ty :=
  h.1 ▸ h.2

theorem lane_eq_getElem? {cs : List Scalar} (hi : i < cs.length) : lane cs i = cs[i]? := by
  unfold lane
  split
  · rw [show i = 0 by omega]
  · rfl

theorem Has.eq_ofScalar (ha : Has (.basic b) a) (hb : b.extents = [])
    (hs : lane a.value.components i = some s) : a = .ofScalar s := by
  obtain ⟨ty, v⟩ := a
  obtain ⟨rfl, hv⟩ := ha
  cases b with
  | scalar k =>
    obtain ⟨x, rfl, rfl⟩ := Value.fits_scalar_iff.mp hv
    obtain rfl : x = s := Option.some.inj hs
    rfl
  | vector k n => cases hb
  | matrix c r => cases hb
  | void => exact (Value.not_fits_void hv).elim
  | sampler s => exact (Value.not_fits_sampler hv).elim

theorem componentAt_ofScalar (place : List Constant) (s : Scalar) :
    componentAt place (.ofScalar s) = .value (.ofScalar s) := rfl

theorem componentAt_vector {k : ScalarKind} {n : Dim} (ha : Has (.basic (.vector k n)) a)
    (hp : place? p = some i) (hi : i < n.toNat) (hs : lane a.value.components i = some s) :
    componentAt [p] a = .value (.ofScalar s) := by
  obtain ⟨ty, v⟩ := a
  obtain ⟨rfl, hv⟩ := ha
  obtain ⟨cs, rfl, hlen, -⟩ := Value.fits_vector_iff.mp hv
  rw [Value.components, lane_eq_getElem? (hlen ▸ hi)] at hs
  rw [componentAt, if_neg (by simp [Ty.isScalar, Ty.basic?, BasicTy.isScalar]), List.foldlM_cons,
    index_vector hp hs]
  rfl

theorem componentAt_matrix {c r : Dim} {q : Constant} {j : Nat} (ha : Has (.basic (.matrix c r)) a)
    (hp : place? p = some i) (hi : i < c.toNat) (hq : place? q = some j) (hj : j < r.toNat)
    (hs : lane a.value.components (i * r.toNat + j) = some s) :
    componentAt [p, q] a = .value (.ofScalar s) := by
  obtain ⟨m, rfl⟩ := exists_grid ha
  have hentry := Grid.getElem?_toList (m := m) hi hj
  have hplace := (List.getElem?_eq_some_iff.mp hentry).1
  rw [ofGrid, Value.components, lane_eq_getElem? (by rwa [List.length_map]), List.getElem?_map,
    hentry] at hs
  obtain rfl : .float (m i j) = s := Option.some.inj hs
  have hcolumn : ((List.range r.toNat).map fun j => Scalar.float (m i j))[j]? =
      some (.float (m i j)) := by
    rw [List.getElem?_map, List.getElem?_range hj, Option.map_some]
  rw [componentAt, if_neg (by simp [ofGrid, Ty.isScalar, Ty.basic?, BasicTy.isScalar]),
    List.foldlM_cons, index_ofGrid hp hi, Outcome.value_bind, List.foldlM_cons, ofColumn,
    index_vector hq hcolumn]
  rfl

theorem Reaches.exists_lane {place : List Constant} {k : ScalarKind} (h : Reaches place t)
    (ht : t.componentKind? = some k) :
    ∃ i < t.componentCount, ∀ a b s, Has (.basic b) a → b.Spreads t →
      lane a.value.components i = some s → componentAt place a = .value (.ofScalar s) := by
  have hscalar : ∀ {i a b s}, Has (.basic b) a → b.extents = [] →
      lane a.value.components i = some s → componentAt place a = .value (.ofScalar s) := by
    intro i a b s ha hb hs
    rw [ha.eq_ofScalar hb hs, componentAt_ofScalar]
  cases t with
  | scalar k' => exact ⟨0, Nat.zero_lt_one, fun a b s ha hb hs => hscalar ha (hb.elim id id) hs⟩
  | vector k' n =>
    obtain ⟨p, _, ⟨i, hi, hp⟩, hnil, rfl⟩ := List.forall₂_cons_right_iff.mp h
    obtain rfl := List.forall₂_nil_right_iff.mp hnil
    refine ⟨i, hi, fun a b s ha hb hs => hb.elim (hscalar ha · hs) fun hsame => ?_⟩
    cases b <;> cases hsame
    exact componentAt_vector ha hp hi hs
  | matrix c r =>
    obtain ⟨p, _, ⟨i, hi, hp⟩, hrest, rfl⟩ := List.forall₂_cons_right_iff.mp h
    obtain ⟨q, _, ⟨j, hj, hq⟩, hnil, rfl⟩ := List.forall₂_cons_right_iff.mp hrest
    obtain rfl := List.forall₂_nil_right_iff.mp hnil
    -- The components go column by column, so `i` whole columns stand before the entry.
    refine ⟨i * r.toNat + j, ?_, fun a b s ha hb hs => hb.elim (hscalar ha · hs) fun hsame => ?_⟩
    · calc i * r.toNat + j < i * r.toNat + r.toNat := Nat.add_lt_add_left hj _
        _ = (i + 1) * r.toNat := (Nat.add_one_mul _ _).symm
        _ ≤ c.toNat * r.toNat := Nat.mul_le_mul_right _ hi
    · cases b <;> cases hsame
      exact componentAt_matrix ha hp hi hq hj hs
  | void => cases ht
  | sampler s => cases ht

end Fold

/-- An operator, or a call of a function. -/
inductive Operation where
  | unary (op : UnaryOp)
  | binary (op : BinaryOp)
  | call (g : Function)

namespace Operation

/-- The operation folded on constant operands. -/
def fold : Operation → List Constant → Outcome Constant
  | unary op, [a] => Fold.unary op a
  | binary op, [a, b] => Fold.binary op a b
  | call g, args => Fold.builtinCall g args
  | _, _ => .notConstant

/-- The operands spread over the type of the result, and each component of the result is what the
operation gives for the components in its lane. -/
structure Lanewise (o : Operation) (args : List Constant) (r : Constant) (t : BasicTy) : Prop where
  result : Fold.Has (.basic t) r
  operands : ∀ a ∈ args, ∃ b, Fold.Has (.basic b) a ∧ b.Spreads t
  lanes : ∀ i < t.componentCount, ∃ z ss, r.value.components[i]? = some z ∧
    Fold.InLane i (args.map Constant.value) ss ∧ o.fold (ss.map .ofScalar) = .value (.ofScalar z)

variable {o : Operation} {args : List Constant} {r : Constant} {t : BasicTy}

theorem mapM_componentAt {place : List Constant} {i : Nat} {ss : List Scalar}
    (hss : Fold.InLane i (args.map Constant.value) ss)
    (hselect : ∀ a ∈ args, ∀ s, Fold.lane a.value.components i = some s →
      Fold.componentAt place a = .value (.ofScalar s)) :
    args.mapM (Fold.componentAt place) = .value (ss.map .ofScalar) := by
  replace hss := List.forall₂_map_left_iff.mp hss
  induction hss with
  | nil => rfl
  | cons hs _ ih =>
    have hargs := ih fun a ha => hselect a (List.mem_cons_of_mem _ ha)
    simp [List.mapM_cons, hselect _ List.mem_cons_self _ hs, hargs]

theorem Lanewise.commutes (h : o.Lanewise args r t) {place : List Constant}
    (hplace : Fold.Reaches place t) :
    ∃ z, Fold.componentAt place r = .value (.ofScalar z) ∧
      args.mapM (Fold.componentAt place) >>= o.fold = .value (.ofScalar z) := by
  obtain ⟨k, hk, hlen, -⟩ := h.result.fits.components
  obtain ⟨i, hi, hselect⟩ := hplace.exists_lane hk
  obtain ⟨z, ss, hz, hss, hfold⟩ := h.lanes i hi
  refine ⟨z, ?_, ?_⟩
  · refine hselect r t z h.result (.inr rfl) ?_
    rw [Fold.lane_eq_getElem? (hlen ▸ hi), hz]
  · rw [mapM_componentAt hss, Outcome.value_bind, hfold]
    intro a ha s hs
    obtain ⟨b, hab, hb⟩ := h.operands a ha
    exact hselect a b s hab hb hs

end Operation

namespace Fold

variable {a b c : Constant} {l r t : BasicTy} {k : ScalarKind} {x y z : Scalar}

theorem unary_rule_scalar {op : UnaryOp} (hk : t.componentKind? = some k)
    (hop : op.accepts t k = true) : op.rule (.scalar k) = some (.scalar k) := by
  have haccepts : op.accepts (.scalar k) k = true := by
    cases op with
    | plus | neg => exact hop
    | not =>
      obtain rfl : t = .scalar .bool := by simpa [UnaryOp.accepts] using hop
      cases hk
      rfl
    | bitNot =>
      simp only [UnaryOp.accepts, Bool.and_eq_true] at hop
      simp [UnaryOp.accepts, hop.1, BasicTy.isMatrix]
  simp [UnaryOp.rule, BasicTy.componentKind?, haccepts]

theorem unary_ofScalar {op : UnaryOp} (hrule : op.rule (.scalar x.kind) = some (.scalar z.kind))
    (h : unaryScalar op x = .value z) : unary op (.ofScalar x) = .value (.ofScalar z) := by
  simp [unary, Constant.ofScalar, Ty.scalar, Ty.basic?, hrule, Value.components, h, ofComponents,
    Value.ofComponents]

theorem unary_eq_value {op : UnaryOp} (h : unary op a = .value c) :
    ∃ l t, a.ty = .basic l ∧ op.rule l = some t := by
  cases hl : a.ty.basic? with
  | none => simp [unary, hl] at h
  | some l =>
    cases hrule : op.rule l with
    | none => simp [unary, hl, hrule] at h
    | some t => exact ⟨l, t, eq_basic_of_basic? hl, hrule⟩

theorem unary_lanewise {op : UnaryOp} (ha : Has (.basic l) a) (hrule : op.rule l = some t)
    (h : unary op a = .value c) : (Operation.unary op).Lanewise [a] c t := by
  have hc := (unary_meets ha hrule).of_value h
  obtain ⟨k, hk, hlen, hkind⟩ := ha.fits.components
  obtain ⟨hop, rfl⟩ : op.accepts l k = true ∧ l = t := by simpa [UnaryOp.rule, hk] using hrule
  simp only [unary, ha.1, Ty.basic?, hrule, Outcome.ofOption_some, Outcome.value_bind] at h
  obtain ⟨cs, hcs, h⟩ := Outcome.bind_eq_value h
  obtain ⟨hlength, hkinds⟩ :=
    (Outcome.Meets.mapM fun s hs => unaryScalar_meets hk hop (hkind s hs)).of_value hcs
  obtain ⟨v, hv, -⟩ := Value.ofComponents_fits hk (hlength.trans hlen) hkinds
  obtain rfl : ⟨.basic l, v⟩ = c := by simpa [ofComponents, hv] using h
  have hcomponents := Value.components_ofComponents hk (hlength.trans hlen) hkinds hv
  refine ⟨hc, by simpa using ⟨l, ha, .inr rfl⟩, fun i hi => ?_⟩
  have hx := List.getElem?_eq_getElem (hlen ▸ hi)
  obtain ⟨z, hz, hscalar⟩ := Outcome.getElem?_of_mapM hcs hx
  refine ⟨z, [_], by rw [hcomponents, hz], ?_, unary_ofScalar ?_ hscalar⟩
  · exact .cons (by rw [lane_eq_getElem? (hlen ▸ hi), hx]) .nil
  · rw [hkind _ (List.mem_of_getElem? hx), hkinds z (List.mem_of_getElem? hz)]
    exact unary_rule_scalar hk hop

/-- Outside of products an operator takes its operands by one of three rules. -/
theorem rule_cases {op : BinaryOp} (hop : isComponentwise op = true)
    (hp : ¬ (op = .mul ∧ isProduct l r = true)) (h : op.rule l r = some t) :
    (∃ accepts, componentRule accepts l r = some t) ∨ matrixRule op l r = some t ∨
      shiftRule l r = some t := by
  have harith : arithmeticRule op l r = some t →
      (∃ accepts, componentRule accepts l r = some t) ∨ matrixRule op l r = some t :=
    fun h => (arithmeticRule_cases hp h).imp_left fun hc => ⟨_, hc⟩
  cases op with
  | add | sub | mul | div => exact (harith h).imp_right .inl
  | mod | bitAnd | bitOr | bitXor => exact .inl ⟨_, h⟩
  | shl | shr => exact .inr (.inr h)
  | _ => cases hop

theorem rule_spreads {op : BinaryOp} (hop : isComponentwise op = true)
    (hp : ¬ (op = .mul ∧ isProduct l r = true)) (h : op.rule l r = some t) :
    l.Spreads t ∧ r.Spreads t := by
  rcases rule_cases hop hp h with ⟨accepts, h⟩ | h | h
  · unfold componentRule at h
    split at h <;> grind [BasicTy.Spreads, BasicTy.extents]
  · unfold matrixRule at h
    split at h <;> grind [BasicTy.Spreads, BasicTy.extents]
  · unfold shiftRule at h
    split at h <;> grind [BasicTy.Spreads, BasicTy.extents]

theorem rule_scalar {op : BinaryOp} (hop : isComponentwise op = true)
    (hp : ¬ (op = .mul ∧ isProduct l r = true)) (h : op.rule l r = some t) :
    ∃ ka kb, Lanes l r t ka kb ∧ op.rule (.scalar ka) (.scalar kb) = some (.scalar ka) := by
  by_cases hs : op = .shl ∨ op = .shr
  · have hshift : shiftRule l r = some t := by
      rcases hs with rfl | rfl <;> exact h
    obtain ⟨ka, kb, ha, hb, lanes⟩ := shiftRule_lanes hshift
    refine ⟨ka, kb, lanes, ?_⟩
    rcases hs with rfl | rfl <;> simp [BinaryOp.rule, shiftRule, ha, hb]
  · obtain ⟨k, ⟨-, hl, hr, hnum, hfloat⟩, lanes⟩ := rule_arithmetical hop (not_or.mp hs) hp h
    refine ⟨k, k, lanes, ?_⟩
    cases op <;> cases k <;> first | rfl | simp_all [isComponentwise, ScalarKind.isNumeric]

theorem binary_ofScalar {op : BinaryOp} (hop : isComponentwise op = true)
    (hrule : op.rule (.scalar x.kind) (.scalar y.kind) = some (.scalar z.kind))
    (h : binaryScalar op x y = .value z) :
    binary op (.ofScalar x) (.ofScalar y) = .value (.ofScalar z) := by
  have hcomponents : binaryComponents op [x] [y] = .value [z] := by
    simp [binaryComponents, broadcast, h, List.range_succ]
  simp [binary, Constant.ofScalar, Ty.scalar, Ty.basic?, hrule, binaryBasic_componentwise hop,
    isProduct, BasicTy.isMatrix, Value.components, hcomponents, Value.ofComponents]

theorem binary_eq_value {op : BinaryOp} (hop : isComponentwise op = true)
    (h : binary op a b = .value c) :
    ∃ l r t, a.ty = .basic l ∧ b.ty = .basic r ∧ op.rule l r = some t := by
  have hwhole : compareWhole op a b = .notConstant := by
    cases op <;> first | rfl | cases hop
  cases hl : a.ty.basic? with
  | none => simp [binary, hl, hwhole] at h
  | some l =>
    cases hr : b.ty.basic? with
    | none => simp [binary, hl, hr, hwhole] at h
    | some r =>
      cases hrule : op.rule l r with
      | none => simp [binary, hl, hr, hrule] at h
      | some t => exact ⟨l, r, t, eq_basic_of_basic? hl, eq_basic_of_basic? hr, hrule⟩

theorem binary_lanewise {op : BinaryOp} (hop : isComponentwise op = true)
    (hp : ¬ (op = .mul ∧ isProduct l r = true)) (ha : Has (.basic l) a) (hb : Has (.basic r) b)
    (hrule : op.rule l r = some t) (h : binary op a b = .value c) :
    (Operation.binary op).Lanewise [a, b] c t := by
  have hc := (binary_meets ha hb hrule).of_value h
  obtain ⟨hleft, hright⟩ := rule_spreads hop hp hrule
  refine ⟨hc, by simpa using ⟨⟨l, ha, hleft⟩, r, hb, hright⟩, fun i hi => ?_⟩
  obtain ⟨x, y, z, hx, hy, hz, hscalar⟩ := binary_lane hop hp ha hb hrule h hi
  obtain ⟨ka, kb, lanes, hkinds⟩ := rule_scalar hop hp hrule
  refine ⟨z, [x, y], hz, .cons hx (.cons hy .nil), binary_ofScalar hop ?_ hscalar⟩
  obtain ⟨k, hk, -, hkind⟩ := hc.fits.components
  obtain rfl : k = ka := Option.some.inj (hk.symm.trans lanes.resultKind)
  rwa [ha.kind_of_lane lanes.leftKind hx, hb.kind_of_lane lanes.rightKind hy,
    hkind z (List.mem_of_getElem? hz)]

end Fold

namespace Library

/-- The library has the function component by component. A derivative counts: it is 0 in each
component. -/
def isLanewise (name : String) : Bool :=
  match WholeFunction.ofName? name with
  | some f => f = .dFdx || f = .dFdy || f = .fwidth
  | none => (ScalarFunction.ofName? name).isSome

variable {f : ScalarFunction} {name : String} {args : List Value} {w : Value} {i : Nat} {z : Scalar}

theorem broadcast?_eq_lane (cs : List Scalar) (i : Nat) : broadcast? cs i = Fold.lane cs i := by
  unfold broadcast?
  split
  · rfl
  · rename_i hmany
    have hlen : cs.length ≠ 1 := fun hone => by
      obtain ⟨c, rfl⟩ := List.length_eq_one_iff.mp hone
      exact hmany c rfl
    rw [Fold.lane, if_neg hlen]

theorem componentwise_scalars (f : ScalarFunction) (ss : List Scalar) :
    componentwise f (ss.map .scalar) = (scalarFunction f ss).map .scalar := by
  have hnone : (ss.map Value.scalar).find? (fun a => !isScalarValue a) = none := by
    simp [isScalarValue]
  have hscalars : (ss.map Value.scalar).mapM Value.scalar? = some ss := by
    rw [mapM_eq_some_iff, List.forall₂_map_left_iff]
    exact List.forall₂_same.mpr fun _ _ => rfl
  rw [componentwise, hnone]
  simp only [hscalars, Option.bind_eq_bind, Option.bind_some]
  cases scalarFunction f ss <;> rfl

theorem perComponent_lane {rs : List Scalar} {n : Nat} (h : perComponent f args n = some rs)
    (hz : rs[i]? = some z) : ∃ ss, Fold.InLane i args ss ∧ scalarFunction f ss = some z := by
  have hplaces := mapM_eq_some_iff.mp h
  obtain ⟨hi, hz⟩ := List.getElem?_eq_some_iff.mp hz
  have hplace := hplaces.get (hplaces.length_eq ▸ hi) hi
  simp only [List.get_eq_getElem, List.getElem_range, hz, Option.bind_eq_bind,
    Option.bind_eq_some_iff, broadcast?_eq_lane] at hplace
  obtain ⟨ss, hss, hscalar⟩ := hplace
  exact ⟨ss, mapM_eq_some_iff.mp hss, hscalar⟩

theorem componentwise_lane (h : componentwise f args = some w)
    (hw : ∀ cols rows data, w ≠ .matrix cols rows data) (hz : w.components[i]? = some z) :
    ∃ ss, Fold.InLane i args ss ∧ scalarFunction f ss = some z := by
  unfold componentwise at h
  split at h
  · simp only [Option.bind_eq_bind, Option.bind_eq_some_iff] at h
    obtain ⟨ss, hss, s, hs, h⟩ := h
    cases h
    obtain rfl : s = z := List.mem_singleton.mp (List.mem_of_getElem? hz) |>.symm
    refine ⟨ss, (mapM_eq_some_iff.mp hss).imp fun a b hb => ?_, hs⟩
    cases a <;> cases hb
    rfl
  · simp only [Option.bind_eq_bind, Option.bind_eq_some_iff] at h
    obtain ⟨rs, hrs, h⟩ := h
    split at h
    · exact (hw _ _ _ (Option.some.inj h).symm).elim
    · cases h
      exact perComponent_lane hrs hz

theorem whole_lane {f : WholeFunction} (hf : f = .dFdx ∨ f = .dFdy ∨ f = .fwidth)
    (h : whole f args = .value w) (hz : w.components[i]? = some z) :
    ∃ ss, Fold.InLane i args ss ∧ whole f (ss.map .scalar) = .value (.scalar z) := by
  obtain ⟨x, rfl⟩ : ∃ x, args = [x] := by
    rcases args with _ | ⟨x, _ | ⟨y, rest⟩⟩
    · rcases hf with rfl | rfl | rfl <;> cases h
    · exact ⟨x, rfl⟩
    · rcases hf with rfl | rfl | rfl <;> cases h
  have hwhole : ∀ y, whole f [y] = shaped y (y.components.map fun _ => .float .zero) := by
    rcases hf with rfl | rfl | rfl <;> exact fun _ => rfl
  have hlane : ∃ s, Fold.lane x.components i = some s ∧ z = .float .zero := by
    rw [hwhole] at h
    cases x with
    | scalar s =>
      cases h
      exact ⟨s, rfl, List.mem_singleton.mp (List.mem_of_getElem? hz)⟩
    | _ =>
      cases h
      rw [Value.components, List.getElem?_map, Option.map_eq_some_iff] at hz
      obtain ⟨s, hs, hz⟩ := hz
      exact ⟨s, by rw [Fold.lane_eq_getElem? (List.getElem?_eq_some_iff.mp hs).1, hs], hz.symm⟩
  obtain ⟨s, hs, rfl⟩ := hlane
  exact ⟨[s], .cons hs .nil, hwhole (.scalar s)⟩

theorem call_lane (hname : isLanewise name = true) (h : call name args = .value w)
    (hw : ∀ cols rows data, w ≠ .matrix cols rows data) (hz : w.components[i]? = some z) :
    ∃ ss, Fold.InLane i args ss ∧ call name (ss.map .scalar) = .value (.scalar z) := by
  unfold isLanewise at hname
  split at hname
  · rename_i f hf
    simp only [call, hf] at h ⊢
    exact whole_lane (by simpa [or_assoc] using hname) h hz
  · rename_i hwhole
    obtain ⟨f, hf⟩ := Option.isSome_iff_exists.mp hname
    simp only [call, hwhole, hf] at h ⊢
    cases hv : componentwise f args with
    | none => simp [hv] at h
    | some v =>
      obtain rfl : v = w := by simpa [hv] using h
      obtain ⟨ss, hss, hscalar⟩ := componentwise_lane hv hw hz
      exact ⟨ss, hss, by rw [componentwise_scalars, hscalar]; rfl⟩

end Library

namespace Slot

def isGeneric : Slot → Bool
  | family (.generic _) => true
  | _ => false

def isScalar : Slot → Bool
  | exact b => b.isScalar
  | family _ => false

variable {s u : Slot} {i : Nat} {k : ScalarKind}

theorem isGeneric_iff : s.isGeneric = true ↔ ∃ k, s = family (.generic k) := by
  cases s with
  | exact b => simp [isGeneric]
  | family f => cases f <;> simp [isGeneric]

theorem extents_member (hs : s.isGeneric = true) (hu : u.isGeneric = true) (i : Nat) :
    (s.member i).extents = (u.member i).extents := by
  obtain ⟨k, rfl⟩ := isGeneric_iff.mp hs
  obtain ⟨l, rfl⟩ := isGeneric_iff.mp hu
  rcases i with _ | _ | _ | _ | i <;> rfl

theorem isMatrix_member (hs : s.isGeneric = true) (i : Nat) : (s.member i).isMatrix = false := by
  obtain ⟨k, rfl⟩ := isGeneric_iff.mp hs
  rcases i with _ | _ | _ | _ | i <;> rfl

theorem spreads_member (hs : s.isGeneric = true ∨ s.isScalar = true) (hu : u.isGeneric = true)
    (i : Nat) : (s.member i).Spreads (u.member i) := by
  rcases hs with hs | hs
  · exact .inr (extents_member hs hu i)
  · cases s with
    | exact b => cases b <;> first | exact .inl rfl | cases hs
    | family f => cases hs

theorem member_zero (hs : s.isGeneric = true ∨ s.isScalar = true)
    (hk : (s.member i).componentKind? = some k) : s.member 0 = .scalar k := by
  rcases hs with hs | hs
  · obtain ⟨l, rfl⟩ := isGeneric_iff.mp hs
    rcases i with _ | _ | _ | _ | i <;> cases hk <;> rfl
  · cases s with
    | exact b => cases b <;> first | cases hk; rfl | cases hs
    | family f => cases hs

end Slot

namespace Prototype

/-- The function is declared over a family of scalars and vectors. -/
def isGeneric (p : Prototype) : Bool :=
  p.slots.any Slot.isGeneric

/-- The result is of a generic family, and so is every parameter that is not a scalar. -/
def isUniform (p : Prototype) : Bool :=
  p.result.isGeneric && p.params.all fun q => q.1.isGeneric || q.1.isScalar

/-- Of the functions that the library has component by component, only the comparisons are not
declared over generic families. -/
theorem all_isUniform : (Prelude.prototypes.all fun p => !Library.isLanewise p.name ||
    if (Prelude.relational.map name).contains p.name then !p.isGeneric
    else p.isUniform) = true := by
  decide +kernel

variable {p : Prototype} {args : List Constant} {ss : List Scalar} {i j : Nat}

theorem types_of_lane (hp : ∀ q ∈ p.params, q.1.isGeneric = true ∨ q.1.isScalar = true)
    (hty : args.map Constant.ty = p.params.map fun q => .basic (q.1.member i))
    (hargs : ∀ a ∈ args, a.WellShaped)
    (hss : Fold.InLane j (args.map Constant.value) ss) :
    (ss.map .ofScalar).map (fun c : Constant => some c.ty) = (p.overload 0).paramTypes := by
  obtain ⟨result, name, params⟩ := p
  simp only [Overload.paramTypes, overload, List.map_map]
  replace hss := List.forall₂_map_left_iff.mp hss
  induction hss generalizing params with
  | nil =>
    obtain rfl := List.map_eq_nil_iff.mp hty.symm
    rfl
  | @cons a s args ss hs _ ih =>
    obtain ⟨q, params, rfl, hq, hrest⟩ := List.map_eq_cons_iff.mp hty.symm
    have ha : Fold.Has (.basic (q.1.member i)) a := ⟨hq.symm, hargs a List.mem_cons_self⟩
    obtain ⟨k, hk, -⟩ := ha.fits.components
    have hzero := Slot.member_zero (hp q List.mem_cons_self) hk
    have hkind := ha.kind_of_lane hk hs
    rw [List.map_cons, List.map_cons, ih (fun b hb => hargs b (List.mem_cons_of_mem _ hb)) params
      (fun q hq => hp q (List.mem_cons_of_mem _ hq)) hrest.symm]
    simp [Constant.ofScalar, Ty.scalar, hzero, hkind]

end Prototype

/-- A builtin function over a generic family that the library has component by component. -/
structure Function.IsLanewise (g : Function) : Prop where
  lookup : Prelude.scope.lookup? g.name = some (.function g)
  lanewise : Library.isLanewise g.name = true
  generic : ∃ p ∈ Prelude.prototypes, p.name = g.name ∧ p.isGeneric = true

namespace Function.IsLanewise

variable {g : Function}

theorem isBuiltin (h : g.IsLanewise) : g.IsBuiltin g.name := by
  obtain ⟨hname, hbuiltin, hgenuine⟩ := Prelude.sound_scope.lookup h.lookup
  exact ⟨h.lookup, hname, hbuiltin, hgenuine⟩

theorem name_ne (h : g.IsLanewise) : g.name ≠ "modf" := by
  intro hname
  have hlanewise := h.lanewise
  rw [hname] at hlanewise
  exact absurd hlanewise (by decide)

theorem isUniform (h : g.IsLanewise) {q : Prototype} (hq : q ∈ Prelude.prototypes)
    (hname : q.name = g.name) : q.isUniform = true := by
  obtain ⟨p, hp, hpname, hgeneric⟩ := h.generic
  have hall := List.all_eq_true.mp Prototype.all_isUniform
  have hpq := hall p hp
  have hqq := hall q hq
  rw [hpname, h.lanewise, hgeneric] at hpq
  rw [hname, h.lanewise] at hqq
  cases hrelational : (Prelude.relational.map Prototype.name).contains g.name with
  | true => rw [hrelational] at hpq; cases hpq
  | false => rwa [hrelational] at hqq

end Function.IsLanewise

theorem Value.eq_scalar_of_fits {b : BasicTy} {s : Scalar}
    (h : (Value.scalar s).Fits (.basic b)) : b = .scalar s.kind := by
  cases b with
  | scalar k => exact congrArg _ h.symm
  | _ => exact h.elim

theorem Value.Fits.ne_matrix {v : Value} {b : BasicTy} (h : v.Fits (.basic b))
    (hb : b.isMatrix = false) (cols rows : Nat) (data : List Binary32) :
    v ≠ .matrix cols rows data := by
  rintro rfl
  cases b with
  | matrix c r => cases hb
  | _ => exact h.elim

namespace Fold

variable {g : Function} {args : List Constant} {c : Constant}

/-- The overload that takes the arguments is one of a prototype. -/
theorem exists_prototype (hg : g.IsLanewise) (hargs : ∀ a ∈ args, a.WellShaped)
    (h : builtinCall g args = .value c) :
    ∃ p ∈ Prelude.prototypes, p.name = g.name ∧ ∃ i < p.count,
      (args.map Constant.ty = p.params.map fun q => .basic (q.1.member i)) ∧
        Has (.basic (p.result.member i)) c ∧
          Library.call g.name (args.map Constant.value) = .value c.value := by
  obtain ⟨hc, -, o, ho, hresult⟩ := (builtinCall_typed hg.isBuiltin.genuine hargs).of_value h
  obtain ⟨hmem, haccepts⟩ := Function.overload?_eq_some ho
  obtain ⟨p, hp, hname, i, hi, hparams, hpresult⟩ :=
    hg.isBuiltin.genuine hg.isBuiltin.builtin o hmem
  have htypes : (args.map fun a => some a.ty) = (args.map Constant.ty).map some := by simp
  rw [htypes] at ho haccepts
  have hparam := Overload.accepts_map_some_iff.mp haccepts
  obtain ⟨b, hcall, -⟩ := builtinCall_eq hg.isBuiltin.builtin hg.isBuiltin.genuine hg.name_ne args
    (htypes ▸ ⟨o, ho, hparam⟩) hargs
  rw [hcall] at h
  obtain ⟨w, hw, h⟩ := Outcome.bind_eq_value h
  cases h
  refine ⟨p, hp, hname, i, hi, ?_, ⟨Option.some.inj (hresult.symm.trans hpresult), hc⟩, hw⟩
  refine ((List.map_inj_right fun _ _ => Option.some.inj).mp (hparam.symm.trans ?_))
  simp [Overload.paramTypes, hparams, Prototype.overload, Function.comp_def]

theorem builtinCall_ofScalar (hg : g.IsLanewise) {p : Prototype} (hp : p ∈ Prelude.prototypes)
    (hname : p.name = g.name) (hcount : 0 < p.count) {ss : List Scalar} {z : Scalar}
    (htypes : (ss.map .ofScalar).map (fun c : Constant => some c.ty) = (p.overload 0).paramTypes)
    (h : Library.call g.name (ss.map .scalar) = .value (.scalar z)) :
    builtinCall g (ss.map .ofScalar) = .value (.ofScalar z) := by
  have hfinds := hg.isBuiltin.finds hp hname (List.mem_map_of_mem (List.mem_range.mpr hcount))
  have hargs : ∀ a ∈ ss.map Constant.ofScalar, a.WellShaped := by
    intro a ha
    obtain ⟨s, -, rfl⟩ := List.mem_map.mp ha
    exact Value.fits_ofScalar s
  have hvalues : (ss.map Constant.ofScalar).map Constant.value = ss.map .scalar := by
    rw [List.map_map]
    rfl
  obtain ⟨b, hcall, hmeets⟩ := builtinCall_eq hg.isBuiltin.builtin hg.isBuiltin.genuine hg.name_ne
    (ss.map .ofScalar) (htypes ▸ hfinds) hargs
  rw [hvalues] at hcall hmeets
  rw [hcall, h, Outcome.value_bind, Value.eq_scalar_of_fits (hmeets.of_value h)]
  rfl

theorem builtinCall_lanewise (hg : g.IsLanewise) (hargs : ∀ a ∈ args, a.WellShaped)
    (h : builtinCall g args = .value c) : ∃ t, (Operation.call g).Lanewise args c t := by
  obtain ⟨p, hp, hname, i, hi, htypes, hc, hcall⟩ := exists_prototype hg hargs h
  obtain ⟨hresult, hparams⟩ : p.result.isGeneric = true ∧
      ∀ q ∈ p.params, q.1.isGeneric = true ∨ q.1.isScalar = true := by
    simpa [Prototype.isUniform] using hg.isUniform hp hname
  refine ⟨_, hc, fun a ha => ?_, fun j hj => ?_⟩
  · obtain ⟨q, hq, hty⟩ := List.mem_map.mp (htypes ▸ List.mem_map_of_mem ha)
    exact ⟨_, ⟨hty.symm, hargs a ha⟩, Slot.spreads_member (hparams q hq) hresult i⟩
  · -- The first members of the families are scalars, so there is an overload for the lane.
    obtain ⟨k, -, hlen, -⟩ := hc.fits.components
    have hz := List.getElem?_eq_getElem (hlen ▸ hj)
    have hmatrix := hc.fits.ne_matrix (Slot.isMatrix_member hresult i)
    obtain ⟨ss, hss, hscalar⟩ := Library.call_lane hg.lanewise hcall hmatrix hz
    exact ⟨_, ss, hz, hss, builtinCall_ofScalar hg hp hname (Nat.zero_lt_of_lt hi)
      (Prototype.types_of_lane hparams htypes hargs hss) hscalar⟩

end Fold

/-- The operation works component by component on such operands: a unary operator, an arithmetic,
bitwise or shift operator that is no product of linear algebra, or a function of that kind. -/
def Operation.IsComponentwise : Operation → List Constant → Prop
  | unary _, _ => True
  | binary op, args => Fold.isComponentwise op = true ∧ (op = .mul →
      (∃ a ∈ args, a.ty.isMatrix = true) → ∃ a ∈ args, a.ty.isScalar = true)
  | call g, _ => g.IsLanewise

theorem Operation.lanewise_of_fold {o : Operation} {args : List Constant} {c : Constant}
    (hargs : ∀ a ∈ args, a.WellShaped) (ho : o.IsComponentwise args)
    (h : o.fold args = .value c) : ∃ t, o.Lanewise args c t := by
  cases o with
  | unary op =>
    rcases args with _ | ⟨a, _ | ⟨b, rest⟩⟩
    · cases h
    · obtain ⟨l, t, ha, hrule⟩ := Fold.unary_eq_value h
      exact ⟨t, Fold.unary_lanewise ⟨ha, hargs a List.mem_cons_self⟩ hrule h⟩
    · cases h
  | binary op =>
    rcases args with _ | ⟨a, _ | ⟨b, _ | ⟨d, rest⟩⟩⟩
    · cases h
    · cases h
    · obtain ⟨hop, hproduct⟩ := ho
      obtain ⟨l, r, t, ha, hb, hrule⟩ := Fold.binary_eq_value hop h
      have hp : ¬ (op = .mul ∧ Fold.isProduct l r = true) := by
        rintro ⟨hmul, hq⟩
        have hscalar := hproduct hmul
        simp only [List.mem_cons, List.not_mem_nil, or_false, exists_eq_or_imp, exists_eq_left, ha,
          hb, Ty.isMatrix, Ty.isScalar, Ty.basic?, Option.any_some] at hscalar
        simp only [Fold.isProduct, Bool.and_eq_true, Bool.or_eq_true, Bool.not_eq_true'] at hq
        simpa [hq.1.2, hq.2] using hscalar hq.1.1
      exact ⟨t, Fold.binary_lanewise hop hp ⟨ha, hargs a (by simp)⟩ ⟨hb, hargs b (by simp)⟩ hrule h⟩
    · cases h
  | call g => exact Fold.builtinCall_lanewise ho hargs h

/-- If a componentwise operation on constants gives `r`, then the component of `r` at any place is
what the operation gives for the components of the operands there. -/
theorem selection_commutes_with_fold {o : Operation} {args : List Constant} {r : Constant}
    (hargs : ∀ a ∈ args, a.WellShaped) (ho : o.IsComponentwise args)
    (h : o.fold args = .value r) :
    ∃ t, Fold.Has (.basic t) r ∧ ∀ place, Fold.Reaches place t →
      ∃ z, Fold.componentAt place r = .value (.ofScalar z) ∧
        args.mapM (Fold.componentAt place) >>= o.fold = .value (.ofScalar z) := by
  obtain ⟨t, hlanewise⟩ := Operation.lanewise_of_fold hargs ho h
  exact ⟨t, hlanewise.result, fun place hplace => hlanewise.commutes hplace⟩

/-- Of three integers clamped between 0 and 3, the second is the second one clamped. -/
theorem selection_clamped :
    let v : Constant := ⟨.basic (.vector .int .three), .vector [.int (-5), .int 7, .int 2]⟩
    let low : Constant := .ofScalar (.int 0)
    let high : Constant := .ofScalar (.int 3)
    let r : Constant := ⟨.basic (.vector .int .three), .vector [.int 0, .int 3, .int 2]⟩
    ∃ g, Prelude.scope.lookup? "clamp" = some (.function g) ∧
      Fold.builtinCall g [v, low, high] = .value r ∧
      Fold.componentAt [.ofScalar (.uint 1)] r = .value high ∧
      Fold.builtinCall g [.ofScalar (.int 7), low, high] = .value high := by
  intro v low high r
  let p : Prototype := Prelude.function .genIType "clamp" [.genIType, .int, .int]
  have hp : p ∈ Prelude.prototypes := by
    simp [p, Prelude.prototypes, Prelude.common]
  have ho : p.overload 2 ∈ p.overloads := List.mem_map_of_mem (List.mem_range.mpr (by decide))
  obtain ⟨g, hg⟩ := Prelude.exists_isBuiltin hp ho
  have hname : g.name = "clamp" := hg.name_eq
  have hlanewise : g.IsLanewise :=
    ⟨by rw [hname]; exact hg.lookup, by rw [hname]; rfl, p, hp, hname.symm, rfl⟩
  have hargs : ∀ a ∈ [v, low, high], a.WellShaped := by
    intro a ha
    obtain rfl | rfl | rfl : a = v ∨ a = low ∨ a = high := by simpa using ha
    · exact ⟨rfl, by simp⟩
    · exact Value.fits_ofScalar _
    · exact Value.fits_ofScalar _
  have hcall : Fold.builtinCall g [v, low, high] = .value r := by
    obtain ⟨b, hcall, hmeets⟩ := Fold.builtinCall_eq hg.builtin hg.genuine hlanewise.name_ne
      [v, low, high] (hg.finds hp rfl ho) hargs
    have hvalue : Library.call g.name ([v, low, high].map Constant.value) = .value r.value := by
      rw [hname]
      rfl
    have hb : b = .vector .int .three :=
      Value.eq_vector_of_fits (hmeets.of_value hvalue) rfl (by simp)
    rw [hcall, hvalue, Outcome.value_bind, hb]
  obtain ⟨t, ht, hselect⟩ := selection_commutes_with_fold (o := .call g) hargs hlanewise hcall
  obtain rfl : .vector .int .three = t := Ty.basic.inj ht.1
  obtain ⟨z, hz, hfold⟩ := hselect [.ofScalar (.uint 1)] (.cons ⟨1, by decide, rfl⟩ .nil)
  have hentry : Fold.componentAt [.ofScalar (.uint 1)] r = .value high := rfl
  exact ⟨g, hg.lookup, hcall, hentry, hfold.trans (hz.symm.trans hentry)⟩

end Shader
