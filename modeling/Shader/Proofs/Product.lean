import Shader.Proofs.Comparison
import Shader.Proofs.Meaning

/-! Products and transposes of constants. Each factor of a product is a grid, a vector on the left a
row and a vector on the right a column. Transposing a product exchanges its factors: every entry is
the sum of the same multiplications in the same order, each with its operands exchanged. Only which
NaN an entry takes over may change. -/

namespace Shader

open Float.Model in
theorem unpackedMul_comm (format : Format) (x y : UnpackedFloat) :
    UnpackedFloat.mul format x y = UnpackedFloat.mul format y x := by
  have hsign : ∀ s t : UnpackedFloat.Sign, s * t = t * s := by
    intro s t
    cases s <;> cases t <;> rfl
  cases x with
  | notANumber => cases y <;> rfl
  | infinity s =>
    cases y with
    | notANumber => rfl
    | zero t => rfl
    | infinity t => exact congrArg UnpackedFloat.infinity (hsign s t)
    | finite t n f hn => exact congrArg UnpackedFloat.infinity (hsign s t)
  | zero s =>
    cases y with
    | notANumber => rfl
    | infinity t => rfl
    | zero t => exact congrArg UnpackedFloat.zero (hsign s t)
    | finite t n f hn => exact congrArg UnpackedFloat.zero (hsign s t)
  | finite s m e hm =>
    cases y with
    | notANumber => rfl
    | infinity t => exact congrArg UnpackedFloat.infinity (hsign s t)
    | zero t => exact congrArg UnpackedFloat.zero (hsign s t)
    | finite t n f hn =>
      show UnpackedFloat.roundWithAccuracy format (s * t) (m * n) (e + f) .exact =
        UnpackedFloat.roundWithAccuracy format (t * s) (n * m) (f + e) .exact
      rw [hsign, Nat.mul_comm, Int.add_comm]

theorem Double.mul_comm (x y : Float) : x * y = y * x :=
  congrArg (fun f => Float.ofModel (Float.Model.pack f))
    (unpackedMul_comm Float.Model.Format.binary64 x.toModel.unpack y.toModel.unpack)

namespace Binary32

theorem isNaN_quiet {x : Binary32} (h : x.isNaN = true) : x.quiet.isNaN = true := by
  have hle : x.magnitude ≤ x.quiet.magnitude := by
    have hor : (x.bits ||| 0x00400000).toNat % twoPow 31 =
        x.bits.toNat % twoPow 31 ||| 0x00400000 % twoPow 31 := by
      rw [UInt32.toNat_or]
      exact Nat.or_mod_two_pow
    rw [quiet, if_pos h, magnitude, magnitude, hor]
    exact Nat.left_le_or
  simp only [isNaN, decide_eq_true_eq] at h ⊢
  exact Nat.lt_of_lt_of_le h hle

/-- Up to the bits of NaN, a result does not depend on its operands beyond its value. -/
theorem canonical_viaDouble (operands : List Binary32) (x : Float) :
    (viaDouble operands x).canonical = if x.isNaN then nan else (narrow x).canonical := by
  unfold viaDouble
  split
  · split
    · rename_i y hy
      have hnan : y.isNaN = true := by simpa using List.find?_some hy
      simp [canonical, isNaN_quiet hnan]
    · rfl
  · rfl

end Binary32

namespace Grid

variable {K : Type} {cols rows c r : Nat} {m : Grid K}

theorem toList_column (n : Nat) (m : Grid K) : toList 1 n m = (List.range n).map (m 0) := by
  simp [toList]

theorem toList_row (n : Nat) (m : Grid K) :
    toList n 1 m = (List.range n).map (m.transpose 0) := by
  simp only [toList, List.range_one, List.map_singleton]
  exact List.map_eq_flatMap.symm

theorem product_congr {a a' b b' : Grid Float} {inner : Nat}
    (ha : ∀ k < inner, a k r = a' k r) (hb : ∀ k < inner, b c k = b' c k) :
    a.product b inner c r = a'.product b' inner c r := by
  refine congrArg Double.sum (List.map_congr_left fun k hk => ?_)
  rw [ha k (List.mem_range.mp hk), hb k (List.mem_range.mp hk)]

theorem transpose_product (a b : Grid Float) (inner : Nat) :
    (a.product b inner).transpose = b.transpose.product a.transpose inner := by
  funext c r
  refine congrArg Double.sum (List.map_congr_left fun k _ => ?_)
  exact Double.mul_comm _ _

end Grid

namespace Fold

open Library (floats entries grid widenedGrid)

/-- The entries of a product, each rounded once from double precision. -/
def productGrid (operands : List Binary32) (inner : Nat) (a b : Grid Binary32) : Grid Binary32 :=
  fun c r => .viaDouble operands
    (Grid.product (fun i j => (a i j).widen) (fun i j => (b i j).widen) inner c r)

theorem canonical_productGrid (operands operands' : List Binary32) (inner : Nat)
    (a b : Grid Binary32) (c r : Nat) :
    ((productGrid operands inner a b).transpose c r).canonical =
      (productGrid operands' inner b.transpose a.transpose c r).canonical := by
  have hsum := congrFun (congrFun (Grid.transpose_product (fun i j => (a i j).widen)
    (fun i j => (b i j).widen) inner) c) r
  rw [Grid.transpose] at hsum
  rw [Grid.transpose, productGrid, productGrid, Binary32.canonical_viaDouble,
    Binary32.canonical_viaDouble, hsum]
  rfl

theorem product_eq {a b : Value} {l r : BasicTy} {inner rows cols : Nat} {m n : Grid Binary32}
    (hl : leftDims l = .value (inner, rows)) (hr : rightDims r = .value (cols, inner))
    (ha : floats a = m.toList inner rows) (hb : floats b = n.toList cols inner) :
    product a l b r = .value
      (((productGrid (floats a ++ floats b) inner m n).toList cols rows).map .float) := by
  have hgrid : ∀ (c r : Nat) (g : Grid Binary32), widenedGrid c r (g.toList c r) =
      .value fun i j => (Grid.ofList .zero r (g.toList c r) i j).widen := by
    intro c r g
    simp [widenedGrid, grid, entries, Grid.length_toList]
  simp only [product, hl, hr, Outcome.value_bind]
  rw [ha, hb, hgrid, hgrid]
  simp only [Outcome.value_bind, Outcome.pure_eq, Grid.map_toList]
  refine congrArg Outcome.value (Grid.toList_congr fun i hi j hj => ?_)
  refine congrArg (fun x => Scalar.float (.viaDouble _ x)) (Grid.product_congr ?_ ?_)
  · intro k hk
    rw [Grid.ofList_toList _ hk hj]
  · intro k hk
    rw [Grid.ofList_toList _ hi hk]

theorem floats_ofGrid (c r : Dim) (m : Grid Binary32) :
    floats (ofGrid c r m).value = m.toList c.toNat r.toNat := by
  simp [floats, ofGrid, Value.components, Scalar.toBinary32, Function.comp_def]

theorem floats_ofColumn (n : Dim) (v : Grid Binary32) :
    floats (ofColumn n v 0).value = v.toList 1 n.toNat := by
  simp [floats, ofColumn, Value.components, Scalar.toBinary32, Grid.toList_column,
    Function.comp_def]

theorem binary_mul_eq {a b : Constant} {l r t : BasicTy} {cs : List Scalar}
    (hl : a.ty = .basic l) (hr : b.ty = .basic r) (hrule : productRule l r = some t)
    (hproduct : product a.value l b.value r = .value cs) :
    binary .mul a b = ofComponents t cs := by
  have hfactors : isProduct l r = true := by
    unfold productRule at hrule
    split at hrule
    · rfl
    · rfl
    · rfl
    · cases hrule
  simp [binary, hl, hr, Ty.basic?, BinaryOp.rule, arithmeticRule, hrule, binaryBasic, hfactors,
    hproduct, ofComponents]

theorem binary_mul_grids (k r c : Dim) (m n : Grid Binary32) :
    ∃ operands, binary .mul (ofGrid k r m) (ofGrid c k n) =
      .value (ofGrid c r (productGrid operands k.toNat m n)) := by
  have hrule : productRule (.matrix k r) (.matrix c k) = some (.matrix c r) := if_pos rfl
  have hproduct := product_eq (l := .matrix k r) (r := .matrix c k) rfl rfl
    (floats_ofGrid k r m) (floats_ofGrid c k n)
  refine ⟨floats (ofGrid k r m).value ++ floats (ofGrid c k n).value, ?_⟩
  rw [binary_mul_eq rfl rfl hrule hproduct]
  simp [ofComponents, Value.ofComponents, ofGrid, Scalar.toBinary32, Function.comp_def]

theorem binary_mul_row (c r : Dim) (v m : Grid Binary32) :
    ∃ operands, binary .mul (ofColumn r v 0) (ofGrid c r m) =
      .value (ofColumn c (productGrid operands r.toNat v.transpose m).transpose 0) := by
  have hrule : productRule (.vector .float r) (.matrix c r) = some (.vector .float c) := if_pos rfl
  have hrow : floats (ofColumn r v 0).value = v.transpose.toList r.toNat 1 := by
    rw [floats_ofColumn, Grid.toList_column, Grid.toList_row]
    rfl
  have hproduct := product_eq (l := .vector .float r) (r := .matrix c r) rfl rfl hrow
    (floats_ofGrid c r m)
  refine ⟨floats (ofColumn r v 0).value ++ floats (ofGrid c r m).value, ?_⟩
  rw [binary_mul_eq rfl rfl hrule hproduct]
  simp [ofComponents, Value.ofComponents, ofColumn, Grid.toList_row]

theorem binary_mul_column (c r : Dim) (m v : Grid Binary32) :
    ∃ operands, binary .mul (ofGrid c r m) (ofColumn c v 0) =
      .value (ofColumn r (productGrid operands c.toNat m v) 0) := by
  have hrule : productRule (.matrix c r) (.vector .float c) = some (.vector .float r) := if_pos rfl
  have hproduct := product_eq (l := .matrix c r) (r := .vector .float c) rfl rfl
    (floats_ofGrid c r m) (floats_ofColumn c v)
  refine ⟨floats (ofGrid c r m).value ++ floats (ofColumn c v 0).value, ?_⟩
  rw [binary_mul_eq rfl rfl hrule hproduct]
  simp [ofComponents, Value.ofComponents, ofColumn, Grid.toList_column]

theorem has_ofGrid (c r : Dim) (m : Grid Binary32) :
    Has (.basic (.matrix c r)) (ofGrid c r m) :=
  ⟨rfl, Value.fits_matrix_iff.mpr ⟨_, rfl, Grid.length_toList _ _ _⟩⟩

theorem has_ofColumn (n : Dim) (v : Grid Binary32) (i : Nat) :
    Has (.basic (.vector .float n)) (ofColumn n v i) := by
  refine ⟨rfl, Value.fits_vector_iff.mpr ⟨_, rfl, by simp, ?_⟩⟩
  intro s hs
  obtain ⟨j, -, rfl⟩ := List.mem_map.mp hs
  rfl

theorem exists_column {n : Dim} {a : Constant} (ha : Has (.basic (.vector .float n)) a) :
    ∃ v, a = ofColumn n v 0 := by
  obtain ⟨ty, w⟩ := a
  obtain ⟨rfl, hw⟩ := ha
  obtain ⟨cs, rfl, hlen, hkind⟩ := Value.fits_vector_iff.mp hw
  refine ⟨fun _ j => (cs.getD j (.float .zero)).toBinary32, ?_⟩
  simp only [ofColumn, Constant.mk.injEq, Value.vector.injEq, true_and]
  refine List.ext_getElem (by simp [hlen]) fun i hi _ => ?_
  obtain ⟨x, hx⟩ := Scalar.kind_eq_float.mp (hkind _ (List.getElem_mem hi))
  simp [List.getD_eq_getElem?_getD, hi, hx, Scalar.toBinary32]

end Fold

theorem Prelude.mem_prototypes_transpose (c r : Dim) :
    function (.exact (.matrix r c)) "transpose" [.exact (.matrix c r)] ∈ prototypes := by
  have hmem : function (.exact (.matrix r c)) "transpose" [.exact (.matrix c r)] ∈
      matrixFunctions := by
    cases c <;> cases r <;>
      simp [matrixFunctions, Slot.mat2, Slot.mat3, Slot.mat4, Slot.mat2x3, Slot.mat3x2,
        Slot.mat2x4, Slot.mat4x2, Slot.mat3x4, Slot.mat4x3]
  simp only [prototypes, List.mem_append, hmem, true_or, or_true]

theorem Value.eq_matrix_of_fits {b : BasicTy} {c r : Dim} {data : List Binary32}
    (h : (Value.matrix c.toNat r.toNat data).Fits (.basic b)) : b = .matrix c r := by
  cases b with
  | matrix c' r' =>
    obtain ⟨hc, hr, -⟩ := h
    rw [Dim.toNat_injective hc, Dim.toNat_injective hr]
  | _ => exact h.elim

theorem Library.call_transpose (c r : Dim) (m : Grid Binary32) :
    call "transpose" [(Fold.ofGrid c r m).value] = .value (Fold.ofGrid r c m.transpose).value := by
  have hname : WholeFunction.ofName? "transpose" = some .transpose := rfl
  simp only [call, hname, whole, Fold.ofGrid, grid, entries, Grid.length_toList, Nat.lt_irrefl,
    if_false, Outcome.value_bind, Outcome.pure_eq]
  refine congrArg (fun data => Outcome.value (Value.matrix r.toNat c.toNat data))
    (Grid.toList_congr fun i hi j hj => ?_)
  exact Grid.ofList_toList _ hj hi

theorem Fold.builtinCall_transpose {g : Function} (hg : g.IsBuiltin "transpose") (c r : Dim)
    (m : Grid Binary32) : builtinCall g [ofGrid c r m] = .value (ofGrid r c m.transpose) := by
  have hfinds : g.Finds [some (.basic (.matrix c r))] :=
    hg.finds (Prelude.mem_prototypes_transpose c r) rfl
      (List.mem_map_of_mem (List.mem_range.mpr Nat.zero_lt_one))
  have hargs : ∀ a ∈ [ofGrid c r m], a.WellShaped := by
    intro a ha
    obtain rfl := List.mem_singleton.mp ha
    exact (has_ofGrid c r m).2
  obtain ⟨b, hcall, hmeets⟩ := builtinCall_eq hg.builtin hg.genuine (by rw [hg.name_eq]; decide)
    [ofGrid c r m] hfinds hargs
  rw [hg.name_eq, List.map_singleton, Library.call_transpose] at hcall hmeets
  rw [hcall, Value.eq_matrix_of_fits hmeets]
  rfl

theorem Fold.canonical_ofGrid {c r : Dim} {m n : Grid Binary32}
    (h : ∀ i j, (m i j).canonical = (n i j).canonical) :
    (ofGrid c r m).value.canonical = (ofGrid c r n).value.canonical := by
  simp only [ofGrid, Value.canonical, Grid.map_toList, h]

theorem Fold.canonical_ofColumn {n : Dim} {v w : Grid Binary32}
    (h : ∀ i j, (v i j).canonical = (w i j).canonical) :
    (ofColumn n v 0).value.canonical = (ofColumn n w 0).value.canonical := by
  simp only [ofColumn, Value.canonical, List.map_map, Function.comp_def, Scalar.canonical, h]

namespace Expr

def Multiplies (e a b : Expr) : Prop :=
  ∃ note, e = .binary .mul a b note

def Applies (e : Expr) (g : Function) (a : Expr) : Prop :=
  ∃ callee suffix note, e = .call callee suffix [a] (.function g) note

/-- Both expressions are constants of the type, the same up to the bits of NaN. -/
def FoldAlike (t : Ty) (e f : Expr) : Prop :=
  ∃ x y, e.fold = .value x ∧ f.fold = .value y ∧ Fold.Has t x ∧ Fold.Has t y ∧
    x.value.canonical = y.value.canonical

variable {e a b : Expr} {g : Function} {x y : Constant}

theorem Multiplies.fold (h : e.Multiplies a b) (ha : a.fold = .value x) (hb : b.fold = .value y) :
    e.fold = Fold.binary .mul x y := by
  obtain ⟨note, rfl⟩ := h
  simp only [Expr.fold, ha, hb, Outcome.value_bind]

theorem Applies.fold (h : e.Applies g a) (ha : a.fold = .value x) :
    e.fold = Fold.builtinCall g [x] := by
  obtain ⟨callee, suffix, note, rfl⟩ := h
  simp only [Expr.fold, Expr.foldAll, ha, Outcome.value_bind, Outcome.pure_eq, Fold.call]

theorem Applies.fold_transpose (h : e.Applies g a) (hg : g.IsBuiltin "transpose") {c r : Dim}
    {m : Grid Binary32} (ha : a.fold = .value (Fold.ofGrid c r m)) :
    e.fold = .value (Fold.ofGrid r c m.transpose) :=
  (h.fold ha).trans (Fold.builtinCall_transpose hg c r m)

end Expr

/-- For constant matrices of all shapes, the transpose of a product is the product of the transposes
in the other order, and a row vector times a matrix is the transpose of the matrix times the column
vector. Both hold in each component up to the bits of NaN. -/
theorem transpose_exchanges_factors :
    ∃ g, Prelude.scope.lookup? "transpose" = some (.function g) ∧
      (∀ (k r c : Dim) (a b : Expr) (x y : Constant), Fold.Has (.basic (.matrix k r)) x →
        Fold.Has (.basic (.matrix c k)) y → a.fold = .value x → b.fold = .value y →
        ∀ ab abT aT bT bTaT : Expr, ab.Multiplies a b → abT.Applies g ab → aT.Applies g a →
          bT.Applies g b → bTaT.Multiplies bT aT → abT.FoldAlike (.basic (.matrix r c)) bTaT) ∧
      ∀ (c r : Dim) (a v : Expr) (x y : Constant), Fold.Has (.basic (.matrix c r)) x →
        Fold.Has (.basic (.vector .float r)) y → a.fold = .value x → v.fold = .value y →
        ∀ va aT aTv : Expr, va.Multiplies v a → aT.Applies g a → aTv.Multiplies aT v →
          va.FoldAlike (.basic (.vector .float c)) aTv := by
  obtain ⟨g, hg⟩ := Prelude.exists_isBuiltin (Prelude.mem_prototypes_transpose .two .two)
    (List.mem_map_of_mem (List.mem_range.mpr Nat.zero_lt_one))
  refine ⟨g, hg.lookup, ?_, ?_⟩
  · intro k r c a b x y hx hy ha hb ab abT aT bT bTaT hab habT haT hbT hbTaT
    obtain ⟨m, rfl⟩ := Fold.exists_grid hx
    obtain ⟨n, rfl⟩ := Fold.exists_grid hy
    obtain ⟨operands, hproduct⟩ := Fold.binary_mul_grids k r c m n
    obtain ⟨operands', hproduct'⟩ := Fold.binary_mul_grids k c r n.transpose m.transpose
    have hleft := habT.fold_transpose hg ((hab.fold ha hb).trans hproduct)
    have hright := (hbTaT.fold (hbT.fold_transpose hg hb) (haT.fold_transpose hg ha)).trans
      hproduct'
    exact ⟨_, _, hleft, hright, Fold.has_ofGrid r c _, Fold.has_ofGrid r c _,
      Fold.canonical_ofGrid (Fold.canonical_productGrid operands operands' k.toNat m n)⟩
  · intro c r a v x y hx hy ha hv va aT aTv hva haT haTv
    obtain ⟨m, rfl⟩ := Fold.exists_grid hx
    obtain ⟨w, rfl⟩ := Fold.exists_column hy
    obtain ⟨operands, hproduct⟩ := Fold.binary_mul_row c r w m
    obtain ⟨operands', hproduct'⟩ := Fold.binary_mul_column r c m.transpose w
    have hleft := (hva.fold hv ha).trans hproduct
    have hright := (haTv.fold (haT.fold_transpose hg ha) hv).trans hproduct'
    exact ⟨_, _, hleft, hright, Fold.has_ofColumn c _ 0, Fold.has_ofColumn c _ 0,
      Fold.canonical_ofColumn
        (Fold.canonical_productGrid operands operands' r.toNat w.transpose m)⟩

namespace Expr

def times (a b : Expr) : Expr :=
  .binary .mul a b ⟨⟨0, 0⟩, none⟩

def applied (g : Function) (a : Expr) : Expr :=
  .call ⟨.named g.name, ⟨0, 0⟩⟩ none [a] (.function g) ⟨⟨0, 0⟩, none⟩

end Expr

/-- Two columns of three numbers, among them an infinity and NaN. -/
def Constant.mat2x3 : Constant :=
  ⟨.basic (.matrix .two .three),
    .matrix 2 3 [.one, ⟨0x40000000⟩, ⟨0x7f800000⟩, .nan, ⟨0x80000000⟩, ⟨0x40400000⟩]⟩

def Constant.mat3x2 : Constant :=
  ⟨.basic (.matrix .three .two),
    .matrix 3 2 [.zero, ⟨0x40000000⟩, ⟨0xffc00001⟩, .one, ⟨0x3dcccccd⟩, ⟨0xff800000⟩]⟩

theorem transpose_exchanges_factors_mixed :
    let a : Expr := .reference "a" .mat2x3
    let b : Expr := .reference "b" .mat3x2
    let v : Expr := .reference "v" (.vec2 .one ⟨0x7f800000⟩)
    Fold.Has (.basic (.matrix .two .three)) .mat2x3 ∧
      Fold.Has (.basic (.matrix .three .two)) .mat3x2 ∧
      ∃ g, Prelude.scope.lookup? "transpose" = some (.function g) ∧
        ((a.times b).applied g).FoldAlike (.basic (.matrix .three .three))
          ((b.applied g).times (a.applied g)) ∧
        (v.times b).FoldAlike (.basic (.vector .float .three)) ((b.applied g).times v) := by
  intro a b v
  have ha : Fold.Has (.basic (.matrix .two .three)) .mat2x3 :=
    ⟨rfl, Value.fits_matrix_iff.mpr ⟨_, rfl, rfl⟩⟩
  have hb : Fold.Has (.basic (.matrix .three .two)) .mat3x2 :=
    ⟨rfl, Value.fits_matrix_iff.mpr ⟨_, rfl, rfl⟩⟩
  obtain ⟨g, hg, hmatrices, hvector⟩ := transpose_exchanges_factors
  refine ⟨ha, hb, g, hg, ?_, ?_⟩
  · exact hmatrices .two .three .three a b _ _ ha hb rfl rfl _ _ _ _ _ ⟨_, rfl⟩ ⟨_, _, _, rfl⟩
      ⟨_, _, _, rfl⟩ ⟨_, _, _, rfl⟩ ⟨_, rfl⟩
  · exact hvector .three .two b v _ _ hb (Constant.has_vec2 _ _) rfl rfl _ _ _ ⟨_, rfl⟩
      ⟨_, _, _, rfl⟩ ⟨_, rfl⟩

end Shader
