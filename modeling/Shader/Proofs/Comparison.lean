import Shader.Proofs.Builtin
import Shader.Proofs.Fold.Lane
import Shader.Proofs.Fold.Select

/-! Comparisons of vectors. Each builtin comparison has an operator that compares scalars, and gives
the answers of that operator component by component. Only NaN sets the two apart: no order relation
holds of it for the operator, whereas the comparison of vectors then has no value at all. -/

namespace Shader

/-- The operator that compares scalars as the function compares vectors. -/
def ScalarFunction.operator? : ScalarFunction → Option BinaryOp
  | lessThan => some .lt
  | lessThanEqual => some .le
  | greaterThan => some .gt
  | greaterThanEqual => some .ge
  | equal => some .eq
  | notEqual => some .ne
  | _ => none

/-- What a comparing operator answers for two scalars. -/
def Scalar.holds (op : BinaryOp) (x y : Scalar) : Bool :=
  match op with
  | .eq => x.sameValue y
  | .ne => !x.sameValue y
  | .lt => (x.compare? y).any Ordering.isLT
  | .le => (x.compare? y).any Ordering.isLE
  | .gt => (x.compare? y).any Ordering.isGT
  | _ => (x.compare? y).any Ordering.isGE

/-- The operator takes scalars of the kind: equality takes all of them, order only numbers. -/
def BinaryOp.Compares (op : BinaryOp) (k : ScalarKind) : Prop :=
  op.isEquality = true ∨ k.isNumeric = true

variable {f : ScalarFunction} {op : BinaryOp} {k : ScalarKind} {x y : Scalar}

theorem Fold.binary_holds (hop : f.operator? = some op) (hk : op.Compares k) (hx : x.kind = k)
    (hy : y.kind = k) :
    binary op (.ofScalar x) (.ofScalar y) = .value (.ofBool (x.holds op y)) := by
  subst hx
  cases f <;> cases hop
  case equal | notEqual =>
    simp [binary, Constant.ofScalar, Ty.scalar, Ty.basic?, hy, BinaryOp.rule, equalityRule,
      BasicTy.isSampler, binaryBasic, Value.sameValue, Constant.ofBool, Scalar.holds]
  all_goals
    have hnumeric : x.kind.isNumeric = true := hk.resolve_left (by decide)
    simp [binary, Constant.ofScalar, Ty.scalar, Ty.basic?, hy, hnumeric, BinaryOp.rule,
      relationalRule, binaryBasic, relation, order?, Constant.ofBool, Scalar.holds]

theorem Binary32.compare?_eq_none_iff {x y : Binary32} :
    x.compare? y = none ↔ x.isNaN = true ∨ y.isNaN = true := by
  simp [compare?, Decidable.or_iff_not_imp_left]

namespace Library

theorem compare?_eq_none_iff (hx : x.kind = k) (hy : y.kind = k) (hk : k.isNumeric = true) :
    x.compare? y = none ↔ ∃ z, .float z ∈ [x, y] ∧ z.isNaN = true := by
  subst hx
  cases x with
  | bool p => cases hk
  | int i =>
    obtain ⟨j, rfl⟩ := Scalar.kind_eq_int.mp hy
    simp [Scalar.compare?]
  | uint u =>
    obtain ⟨w, rfl⟩ := Scalar.kind_eq_uint.mp hy
    simp [Scalar.compare?]
  | float a =>
    obtain ⟨b, rfl⟩ := Scalar.kind_eq_float.mp hy
    rw [Scalar.compare?, Binary32.compare?_eq_none_iff]
    constructor
    · rintro (ha | hb)
      · exact ⟨a, by simp, ha⟩
      · exact ⟨b, by simp, hb⟩
    · rintro ⟨z, hz, hnan⟩
      obtain rfl | rfl : z = a ∨ z = b := by simpa using hz
      · exact .inl hnan
      · exact .inr hnan

/-- The function has the answer of its operator, except for NaN that is to be put in order. -/
theorem scalarFunction_holds (hop : f.operator? = some op) (hk : op.Compares k) (hx : x.kind = k)
    (hy : y.kind = k) :
    (Unordered f [x, y] → scalarFunction f [x, y] = none) ∧
      (¬ Unordered f [x, y] → scalarFunction f [x, y] = some (.bool (x.holds op y))) := by
  have hkinds : x.kind = y.kind := hx.trans hy.symm
  have hfloat : floatScalar f [x, y] = none := by
    cases f <;> cases hop <;> cases x <;> cases y <;> rfl
  cases f <;> cases hop
  case equal | notEqual =>
    simp [Unordered, ScalarFunction.isOrder, scalarFunction, mixedScalar, hkinds, Scalar.holds]
  all_goals
    have hnumeric : k.isNumeric = true := hk.resolve_left (by decide)
    have hnone := compare?_eq_none_iff hx hy hnumeric
    simp only [Unordered, ScalarFunction.isOrder, ← hnone, true_and]
    cases hxy : x.compare? y with
    | none => simp [scalarFunction, mixedScalar, hxy, hfloat]
    | some o => simp [scalarFunction, mixedScalar, hxy, Scalar.holds]

variable {xs ys : List Scalar} {n : Dim} {i : Nat}

/-- The answers of the operator, component by component. -/
def answers (op : BinaryOp) (xs ys : List Scalar) : List Bool :=
  xs.zipWith (Scalar.holds op) ys

/-- The components of two vectors of one type. -/
structure Aligned (k : ScalarKind) (n : Dim) (xs ys : List Scalar) : Prop where
  left : (Value.vector xs).Fits (.basic (.vector k n))
  right : (Value.vector ys).Fits (.basic (.vector k n))

theorem Aligned.length_answers (h : Aligned k n xs ys) : (answers op xs ys).length = n.toNat := by
  simp [answers, h.left.1, h.right.1]

theorem Aligned.place (h : Aligned k n xs ys) (op : BinaryOp) (hi : i < n.toNat) :
    ∃ x y, xs[i]? = some x ∧ ys[i]? = some y ∧ x.kind = k ∧ y.kind = k ∧
      (answers op xs ys)[i]? = some (x.holds op y) := by
  have hx := List.getElem?_eq_getElem (h.left.1.symm ▸ hi)
  have hy := List.getElem?_eq_getElem (h.right.1.symm ▸ hi)
  refine ⟨_, _, hx, hy, h.left.2 _ (List.mem_of_getElem? hx), h.right.2 _ (List.mem_of_getElem? hy),
    ?_⟩
  simp [answers, List.getElem?_zipWith, hx, hy]

theorem broadcast?_vector (h : (Value.vector xs).Fits (.basic (.vector k n))) :
    broadcast? xs i = xs[i]? := by
  have hlen : xs.length = n.toNat := h.1
  have htwo := n.two_le_toNat
  unfold broadcast?
  split
  · simp at hlen
    omega
  · rfl

theorem getElem?_perComponent {rs : List Scalar} (h : Aligned k n xs ys)
    (hrs : perComponent f [.vector xs, .vector ys] n.toNat = some rs) (hx : xs[i]? = some x)
    (hy : ys[i]? = some y) : ∃ r, rs[i]? = some r ∧ scalarFunction f [x, y] = some r := by
  have hi : i < n.toNat := h.left.1 ▸ (List.getElem?_eq_some_iff.mp hx).1
  have hmap := congrArg Outcome.ofOption hrs
  rw [perComponent, Outcome.ofOption_mapM] at hmap
  obtain ⟨r, hr, hplace⟩ := Outcome.getElem?_of_mapM hmap (List.getElem?_range hi)
  refine ⟨r, hr, ?_⟩
  simp only [List.mapM_cons, List.mapM_nil, Value.components, broadcast?_vector h.left,
    broadcast?_vector h.right, hx, hy] at hplace
  cases hxy : scalarFunction f [x, y] with
  | none => simp [hxy] at hplace
  | some z => simpa [hxy] using hplace

theorem resultKind?_comparison (hop : f.operator? = some op) (hk : op.Compares k) :
    f.resultKind? [k, k] = some .bool := by
  cases f <;> cases hop
  case equal | notEqual => simp [ScalarFunction.resultKind?, ScalarFunction.binaryKind?]
  all_goals
    have hnumeric : k.isNumeric = true := hk.resolve_left (by decide)
    simp [ScalarFunction.resultKind?, ScalarFunction.binaryKind?, hnumeric]

theorem perComponent_ordered (hop : f.operator? = some op) (hk : op.Compares k)
    (h : Aligned k n xs ys) (hordered : ¬ UnorderedIn f [.vector xs, .vector ys]) :
    perComponent f [.vector xs, .vector ys] n.toNat = some ((answers op xs ys).map .bool) := by
  have hfit : Value.AllFit [.vector xs, .vector ys] [.vector k n, .vector k n] :=
    ⟨h.left, h.right, trivial⟩
  have hmeets : (Outcome.ofOption (perComponent f [.vector xs, .vector ys] n.toNat)).Meets
      (UnorderedIn f [.vector xs, .vector ys]) fun rs =>
        rs.length = n.toNat ∧ ∀ r ∈ rs, r.kind = .bool :=
    perComponent_meets hfit rfl (resultKind?_comparison hop hk) (by simp [BasicTy.componentCount])
  cases hrs : perComponent f [.vector xs, .vector ys] n.toNat with
  | none =>
    rw [hrs] at hmeets
    exact (hordered hmeets).elim
  | some rs =>
    rw [hrs] at hmeets
    have hlen : rs.length = n.toNat := hmeets.1
    refine congrArg some (List.ext_getElem? fun i => ?_)
    by_cases hi : i < n.toNat
    · obtain ⟨x, y, hx, hy, hxk, hyk, hanswer⟩ := h.place op hi
      obtain ⟨r, hr, hplace⟩ := getElem?_perComponent h hrs hx hy
      have hpair : ¬ Unordered f [x, y] := fun hun => hordered (hun.mono (by
        simp [Value.components, List.mem_of_getElem? hx, List.mem_of_getElem? hy]))
      rw [(scalarFunction_holds hop hk hxk hyk).2 hpair] at hplace
      rw [hr, ← hplace, List.getElem?_map, hanswer, Option.map_some]
    · rw [List.getElem?_eq_none (by omega),
        List.getElem?_eq_none (by rw [List.length_map, h.length_answers]; omega)]

theorem perComponent_unordered (hop : f.operator? = some op) (hk : op.Compares k)
    (h : Aligned k n xs ys) (hun : UnorderedIn f [.vector xs, .vector ys]) :
    perComponent f [.vector xs, .vector ys] n.toNat = none := by
  obtain ⟨horder, a, ha, z, hz, hnan⟩ := hun
  -- NaN stands at some place of one of the vectors.
  obtain ⟨i, hi, hmem⟩ : ∃ i < n.toNat, xs[i]? = some (.float z) ∨ ys[i]? = some (.float z) := by
    obtain rfl | rfl : a = .vector xs ∨ a = .vector ys := by simpa using ha
    · obtain ⟨i, hi⟩ := List.mem_iff_getElem?.mp hz
      exact ⟨i, h.left.1 ▸ (List.getElem?_eq_some_iff.mp hi).1, .inl hi⟩
    · obtain ⟨i, hi⟩ := List.mem_iff_getElem?.mp hz
      exact ⟨i, h.right.1 ▸ (List.getElem?_eq_some_iff.mp hi).1, .inr hi⟩
  obtain ⟨x, y, hx, hy, hxk, hyk, -⟩ := h.place op hi
  have hpair : Unordered f [x, y] := by
    refine ⟨horder, z, ?_, hnan⟩
    simpa [hx, hy, eq_comm] using hmem
  cases hrs : perComponent f [.vector xs, .vector ys] n.toNat with
  | none => rfl
  | some rs =>
    obtain ⟨r, -, hplace⟩ := getElem?_perComponent h hrs hx hy
    rw [(scalarFunction_holds hop hk hxk hyk).1 hpair] at hplace
    cases hplace

theorem call_comparison (hop : f.operator? = some op) (h : Aligned k n xs ys) :
    call f.name [.vector xs, .vector ys] =
      .ofOption ((perComponent f [.vector xs, .vector ys] n.toNat).map .vector) := by
  have hwhole : WholeFunction.ofName? f.name = none := by
    cases f <;> cases hop <;> rfl
  have hscalar : ScalarFunction.ofName? f.name = some f := by
    cases f <;> cases hop <;> rfl
  cases hrs : perComponent f [.vector xs, .vector ys] n.toNat <;>
    simp [call, hwhole, hscalar, componentwise, isScalarValue, Value.components, h.left.1, hrs]

end Library

namespace Prelude

theorem mem_prototypes_comparison (hop : f.operator? = some op) (hk : op.Compares k) :
    function .bvec f.name [.family (.vectors k), .family (.vectors k)] ∈ prototypes := by
  have hmem : function .bvec f.name [.family (.vectors k), .family (.vectors k)] ∈ relational := by
    cases f <;> cases hop
    case equal | notEqual =>
      cases k <;> simp [relational, ScalarFunction.name, Slot.vec, Slot.ivec, Slot.uvec, Slot.bvec]
    all_goals
      have hnumeric : k.isNumeric = true := hk.resolve_left (by decide)
      cases k with
      | bool => cases hnumeric
      | _ => simp [relational, ScalarFunction.name, Slot.vec, Slot.ivec, Slot.uvec]
  simp only [prototypes, List.mem_append, hmem, true_or, or_true]

/-- The builtin comparison takes two vectors of every type whose components its operator takes. -/
theorem comparison_function (hop : f.operator? = some op) :
    ∃ g, scope.lookup? f.name = some (.function g) ∧ g.name = f.name ∧ g.builtin = true ∧
      g.Genuine ∧ ∀ k n, op.Compares k →
        g.Finds [some (.basic (.vector k n)), some (.basic (.vector k n))] := by
  have hplace : ∀ n : Dim, ∃ i < 3, ∀ k, (Slot.family (.vectors k)).member i = .vector k n := by
    intro n
    cases n with
    | two => exact ⟨0, by decide, fun _ => rfl⟩
    | three => exact ⟨1, by decide, fun _ => rfl⟩
    | four => exact ⟨2, by decide, fun _ => rfl⟩
  have hfloat := mem_prototypes_comparison (k := .float) hop (.inr rfl)
  obtain ⟨g, hg⟩ := exists_isBuiltin hfloat
    (List.mem_map_of_mem (List.mem_range.mpr (Nat.zero_lt_succ 2)))
  refine ⟨g, hg.lookup, hg.name_eq, hg.builtin, hg.genuine, fun k n hk => ?_⟩
  obtain ⟨i, hi, hmember⟩ := hplace n
  have hfound := hg.finds (mem_prototypes_comparison hop hk) rfl
    (List.mem_map_of_mem (List.mem_range.mpr hi))
  simpa [Overload.paramTypes, Prototype.overload, function, hmember] using hfound

end Prelude

theorem Dim.toNat_injective {m n : Dim} (h : m.toNat = n.toNat) : m = n := by
  cases m <;> cases n <;> first | rfl | exact absurd h (by decide)

theorem Value.eq_vector_of_fits {b : BasicTy} {cs : List Scalar} {n : Dim}
    (h : (Value.vector cs).Fits (.basic b)) (hlen : cs.length = n.toNat)
    (hkind : ∀ s ∈ cs, s.kind = k) : b = .vector k n := by
  cases b with
  | vector k' n' =>
    obtain ⟨hlen', hkind'⟩ := h
    have htwo := n.two_le_toNat
    have hmem : cs[0] ∈ cs := List.getElem_mem (by omega)
    obtain rfl : n' = n := Dim.toNat_injective (hlen'.symm.trans hlen)
    rw [← hkind' _ hmem, hkind _ hmem]
  | _ => exact h.elim

namespace Fold

variable {g : Function} {xs ys : List Scalar} {n : Dim}

theorem builtinCall_comparison (hname : g.name = f.name) (hbuiltin : g.builtin = true)
    (hgenuine : g.Genuine)
    (hfinds : g.Finds [some (.basic (.vector k n)), some (.basic (.vector k n))])
    (hop : f.operator? = some op) (hk : op.Compares k) (h : Library.Aligned k n xs ys) :
    let u : Constant := ⟨.basic (.vector k n), .vector xs⟩
    let v : Constant := ⟨.basic (.vector k n), .vector ys⟩
    (Library.UnorderedIn f [u.value, v.value] → builtinCall g [u, v] = .notConstant) ∧
      (¬ Library.UnorderedIn f [u.value, v.value] → builtinCall g [u, v] =
        .value ⟨.basic (.vector .bool n), .vector ((Library.answers op xs ys).map .bool)⟩) := by
  intro u v
  have hargs : ∀ a ∈ [u, v], a.WellShaped := by
    intro a ha
    obtain rfl | rfl : a = u ∨ a = v := by simpa using ha
    · exact h.left
    · exact h.right
  obtain ⟨b, hcall, hmeets⟩ := builtinCall_eq hbuiltin hgenuine
    (by rw [hname]; cases f <;> decide) [u, v] hfinds hargs
  simp only [hname, List.map_cons, List.map_nil, u, v] at hcall hmeets
  rw [hcall, Library.call_comparison hop h]
  constructor
  · intro hun
    rw [Library.perComponent_unordered hop hk h hun]
    rfl
  · intro hordered
    have hvalue := Library.perComponent_ordered hop hk h hordered
    have hfits := hmeets.of_value ((Library.call_comparison hop h).trans (by rw [hvalue]; rfl))
    have hkind : ∀ s ∈ (Library.answers op xs ys).map Scalar.bool, s.kind = .bool := by
      intro s hs
      obtain ⟨z, -, rfl⟩ := List.mem_map.mp hs
      rfl
    rw [hvalue, Value.eq_vector_of_fits hfits (by rw [List.length_map, h.length_answers]) hkind]
    rfl

theorem fold_binary_index {i : Nat} {a b ix jx : Expr} {l r note : Note}
    (ha : a.fold = .value ⟨.basic (.vector k n), .vector xs⟩)
    (hb : b.fold = .value ⟨.basic (.vector k n), .vector ys⟩) (hx : xs[i]? = some x)
    (hy : ys[i]? = some y) (hi : ix.Picks i) (hj : jx.Picks i) :
    (Expr.binary op (.index a ix l) (.index b jx r) note).fold =
      binary op (.ofScalar x) (.ofScalar y) := by
  obtain ⟨p, hp, hpi⟩ := hi.fold
  obtain ⟨q, hq, hqi⟩ := hj.fold
  simp only [Expr.fold, ha, hb, hp, hq, Outcome.value_bind, index_vector hpi hx,
    index_vector hqi hy]

end Fold

/-- For vectors of one type, the builtin comparison has in each component what the operator gives
for the components of the vectors there, unless NaN is to be put in order: then the operator still
answers, but the call has no value. -/
theorem comparison_agrees_iff_ordered (hop : f.operator? = some op) :
    ∃ g, Prelude.scope.lookup? f.name = some (.function g) ∧
      ∀ k n, op.Compares k → ∀ a b u v, Fold.Has (.basic (.vector k n)) u →
        Fold.Has (.basic (.vector k n)) v → a.fold = .value u → b.fold = .value v →
        ∃ bits : List Bool, bits.length = n.toNat ∧
          (∀ i < n.toNat, ∃ z, bits[i]? = some z ∧ ∀ ix jx l r note, ix.Picks i → jx.Picks i →
            (Expr.binary op (.index a ix l) (.index b jx r) note).fold = .value (.ofBool z)) ∧
          ∀ callee suffix note,
            (Library.UnorderedIn f [u.value, v.value] →
              (Expr.call callee suffix [a, b] (.function g) note).fold = .notConstant) ∧
            (¬ Library.UnorderedIn f [u.value, v.value] →
              (Expr.call callee suffix [a, b] (.function g) note).fold =
                .value ⟨.basic (.vector .bool n), .vector (bits.map .bool)⟩) := by
  obtain ⟨g, hlookup, hname, hbuiltin, hgenuine, hfinds⟩ := Prelude.comparison_function hop
  refine ⟨g, hlookup, ?_⟩
  rintro k n hk a b ⟨ty, w⟩ ⟨ty', w'⟩ ⟨rfl, hu⟩ ⟨rfl, hv⟩ ha hb
  obtain ⟨xs, rfl, -⟩ := Value.fits_vector_iff.mp hu
  obtain ⟨ys, rfl, -⟩ := Value.fits_vector_iff.mp hv
  have haligned : Library.Aligned k n xs ys := ⟨hu, hv⟩
  refine ⟨Library.answers op xs ys, haligned.length_answers, fun i hi => ?_,
    fun callee suffix note => ?_⟩
  · obtain ⟨x, y, hx, hy, hxk, hyk, hanswer⟩ := haligned.place op hi
    refine ⟨_, hanswer, fun ix jx l r note hix hjx => ?_⟩
    rw [Fold.fold_binary_index ha hb hx hy hix hjx, Fold.binary_holds hop hk hxk hyk]
  · have hargs := Expr.foldAll_eq_value_iff.mpr
      (show [a, b].map Expr.fold = [⟨_, .vector xs⟩, ⟨_, .vector ys⟩].map .value by
        rw [List.map_cons, List.map_singleton, ha, hb]; rfl)
    simp only [Expr.fold, hargs, Outcome.value_bind, Fold.call]
    exact Fold.builtinCall_comparison hname hbuiltin hgenuine (hfinds k n hk) hop hk haligned

def Expr.reference (name : String) (c : Constant) : Expr :=
  .var name (some ⟨name, some c.ty, .global, some .constant, some c, ⟨0, 0⟩⟩) ⟨⟨0, 0⟩, none⟩

def Expr.comparison (g : Function) (u v : Constant) : Expr :=
  .call ⟨.named g.name, ⟨0, 0⟩⟩ none [.reference "u" u, .reference "v" v] (.function g)
    ⟨⟨0, 0⟩, none⟩

/-- The operator on the components of the two constants at one place. -/
def Expr.comparisonAt (op : BinaryOp) (u v : Constant) (place : String) : Expr :=
  let note : Note := ⟨⟨0, 0⟩, none⟩
  .binary op (.index (.reference "u" u) (.int place note) note)
    (.index (.reference "v" v) (.int place note) note) note

def Constant.vec2 (x y : Binary32) : Constant :=
  ⟨.basic (.vector .float .two), .vector [.float x, .float y]⟩

theorem Constant.has_vec2 (x y : Binary32) :
    Fold.Has (.basic (.vector .float .two)) (vec2 x y) :=
  ⟨rfl, Value.fits_vector_iff.mpr ⟨_, rfl, rfl, by simp⟩⟩

/-- With an infinity and 1.0 against 2.0, both sides say that only the second is less. -/
theorem comparison_infinity :
    let u := Constant.vec2 ⟨0x7f800000⟩ .one
    let v := Constant.vec2 ⟨0x40000000⟩ ⟨0x40000000⟩
    ∃ g, Prelude.scope.lookup? "lessThan" = some (.function g) ∧
      (Expr.comparison g u v).fold =
        .value ⟨.basic (.vector .bool .two), .vector [.bool false, .bool true]⟩ := by
  intro u v
  obtain ⟨g, hg, hcall⟩ := comparison_agrees_iff_ordered (f := .lessThan) rfl
  obtain ⟨bits, hlen, hbits, hfold⟩ := hcall .float .two (.inr rfl) (.reference "u" u)
    (.reference "v" v) u v (Constant.has_vec2 _ _) (Constant.has_vec2 _ _) rfl rfl
  have hanswer : ∀ place i z, i < 2 →
      (Expr.int place ⟨⟨0, 0⟩, none⟩).Picks i →
      (Expr.comparisonAt .lt u v place).fold = .value (.ofBool z) → bits[i]? = some z := by
    intro place i z hi hpicks hz
    obtain ⟨w, hw, hfold⟩ := hbits i hi
    have hsame := (hfold _ _ _ _ _ hpicks hpicks).symm.trans hz
    cases w <;> cases z <;> first | exact hw | cases hsame
  have hfalse := hanswer "0" 0 false (by decide) ⟨_, rfl, rfl, rfl⟩ rfl
  have htrue := hanswer "1" 1 true (by decide) ⟨_, rfl, rfl, rfl⟩ rfl
  have hordered : ¬ Library.UnorderedIn .lessThan [u.value, v.value] := by
    rintro ⟨-, a, ha, x, hx, hnan⟩
    obtain rfl | rfl : a = u.value ∨ a = v.value := by simpa using ha
    · obtain rfl | rfl : x = ⟨0x7f800000⟩ ∨ x = .one := by
        simpa [u, Constant.vec2, Value.components] using hx
      all_goals exact absurd hnan (by decide)
    · obtain rfl : x = ⟨0x40000000⟩ := by simpa [v, Constant.vec2, Value.components] using hx
      exact absurd hnan (by decide)
  obtain rfl : bits = [false, true] := by
    refine List.ext_getElem? fun i => ?_
    rcases i with _ | _ | i
    · exact hfalse
    · exact htrue
    · exact List.getElem?_eq_none (by rw [hlen]; exact Nat.le_add_left 2 i)
  exact ⟨g, hg, (hfold _ _ _).2 hordered⟩

/-- With NaN in the place of the infinity the operator answers, and the call has no value. -/
theorem comparison_nan :
    let u := Constant.vec2 .nan .one
    let v := Constant.vec2 ⟨0x40000000⟩ ⟨0x40000000⟩
    (Expr.comparisonAt .lt u v "0").fold = .value (.ofBool false) ∧
      (Expr.comparisonAt .lt u v "1").fold = .value (.ofBool true) ∧
      ∃ g, Prelude.scope.lookup? "lessThan" = some (.function g) ∧
        (Expr.comparison g u v).fold = .notConstant := by
  intro u v
  obtain ⟨g, hg, hname, hbuiltin, hgenuine, hfinds⟩ :=
    Prelude.comparison_function (f := .lessThan) rfl
  have haligned : Library.Aligned .float .two [.float .nan, .float .one]
      [.float ⟨0x40000000⟩, .float ⟨0x40000000⟩] :=
    ⟨(Constant.has_vec2 .nan .one).2, (Constant.has_vec2 _ _).2⟩
  refine ⟨rfl, rfl, g, hg, ?_⟩
  refine (Fold.builtinCall_comparison hname hbuiltin hgenuine (hfinds .float .two (.inr rfl)) rfl
    (.inr rfl) haligned).1 ⟨rfl, _, List.mem_cons_self, .nan, List.mem_cons_self, ?_⟩
  decide

end Shader
