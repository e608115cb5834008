import Mathlib.LinearAlgebra.Matrix.Adjugate
import Shader.Proofs.Fold.Select

/-! Cofactor expansion without rounding. Over the rational numbers the determinant that the library
expands along the first row is the sum over permutations, and the transposed cofactors over it are
the inverse on both sides. The library runs the same expansion in double precision, on entries that
stand column after column; minors of such entries are the minors of their grids. -/

namespace Shader

open Matrix

/-- The grid without one column and one row. -/
def Grid.minor {K : Type} (m : Grid K) (col row : Nat) : Grid K :=
  fun c r => m (if c < col then c else c + 1) (if r < row then r else r + 1)

namespace Arithmetic

variable {K : Type} (A : Arithmetic K) {n : Nat}

/-- The determinant of the first `n` columns and rows, by expansion along the first row. -/
def determinant : (n : Nat) → Grid K → K
  | 0, _ => A.sum []
  | 1, m => m 0 0
  | 2, m => A.sub (A.mul (m 0 0) (m 1 1)) (A.mul (m 1 0) (m 0 1))
  | n + 3, m =>
    A.sum ((List.range (n + 3)).map fun c =>
      A.mul (m c 0) (A.alternate c 0 (determinant (n + 2) (m.minor c 0))))

def cofactor (n : Nat) (m : Grid K) (col row : Nat) : K :=
  A.alternate col row (A.determinant (n - 1) (m.minor col row))

/-- The inverse: transposed cofactors over the determinant. -/
def inverse (n : Nat) (m : Grid K) : Grid K :=
  fun c r => A.div (A.cofactor n m r c) (A.determinant n m)

theorem filter_range_ne {place : Nat} (h : place ≤ n) :
    (List.range (n + 1)).filter (· != place) =
      (List.range n).map fun i => if i < place then i else i + 1 := by
  induction n with
  | zero =>
    obtain rfl : place = 0 := by omega
    rfl
  | succ n ih =>
    rw [List.range_succ, List.filter_append]
    by_cases hlast : place = n + 1
    · have hkept : (List.range (n + 1)).filter (· != place) = List.range (n + 1) := by
        refine List.filter_eq_self.mpr fun i hi => bne_iff_ne.mpr ?_
        have hlt := List.mem_range.mp hi
        omega
      have hsame : (List.range (n + 1)).map (fun i => if i < place then i else i + 1) =
          List.range (n + 1) := by
        refine (List.map_congr_left fun i hi => if_pos ?_).trans (List.map_id _)
        have hlt := List.mem_range.mp hi
        omega
      rw [hkept, hsame]
      simp [hlast]
    · rw [ih (by omega), List.range_succ, List.map_append]
      simp [show n + 1 ≠ place by omega, show ¬n < place by omega]

/-- The entries of a minor are those of the grid's minor, with one row less in each column. -/
theorem flatMinor_eq (entries : List K) {col row : Nat} (hcol : col ≤ n) (hrow : row ≤ n) :
    A.flatMinor (n + 1) entries col row =
      ((Grid.ofList A.start (n + 1) entries).minor col row).toList n n := by
  rw [flatMinor, filter_range_ne hcol, filter_range_ne hrow, List.flatMap_map]
  simp only [List.map_map]
  rfl

theorem flatMinor_stores (entries : List K) {col row c r : Nat} (hcol : col ≤ n) (hrow : row ≤ n)
    (hc : c < n) (hr : r < n) :
    (A.flatMinor (n + 1) entries col row).getD (c * n + r) A.start =
      (Grid.ofList A.start (n + 1) entries).minor col row c r := by
  rw [A.flatMinor_eq entries hcol hrow]
  exact Grid.ofList_toList A.start hc hr

theorem determinant_congr {m m' : Grid K} (h : ∀ c < n, ∀ r < n, m c r = m' c r) :
    A.determinant n m = A.determinant n m' := by
  induction n generalizing m m' with
  | zero => rfl
  | succ n ih =>
    cases n with
    | zero => exact h 0 (by decide) 0 (by decide)
    | succ n =>
      cases n with
      | zero =>
        simp only [determinant, h 0 (by decide) 0 (by decide), h 0 (by decide) 1 (by decide),
          h 1 (by decide) 0 (by decide), h 1 (by decide) 1 (by decide)]
      | succ n =>
        refine congrArg A.sum (List.map_congr_left fun c hc => ?_)
        have hminor : ∀ i < n + 2, ∀ j < n + 2, m.minor c 0 i j = m'.minor c 0 i j :=
          fun i hi j hj => h _ (by split <;> omega) _ (by split <;> omega)
        rw [h c (List.mem_range.mp hc) 0 (Nat.succ_pos _), ih hminor]

theorem determinant_flatMinor (entries : List K) {col row : Nat} (hcol : col ≤ n) (hrow : row ≤ n) :
    A.determinant n (.ofList A.start n (A.flatMinor (n + 1) entries col row)) =
      A.determinant n ((Grid.ofList A.start (n + 1) entries).minor col row) :=
  A.determinant_congr fun _ hc _ hr => A.flatMinor_stores entries hcol hrow hc hr

theorem flatDeterminant_eq (entries : List K) :
    A.flatDeterminant n entries = A.determinant n (.ofList A.start n entries) := by
  induction n generalizing entries with
  | zero => rfl
  | succ n ih =>
    cases n with
    | zero => rfl
    | succ n =>
      cases n with
      | zero => rfl
      | succ n =>
        refine congrArg A.sum (List.map_congr_left fun c hc => ?_)
        have hle : c ≤ n + 2 := Nat.le_of_lt_succ (List.mem_range.mp hc)
        rw [ih, A.determinant_flatMinor entries hle (Nat.zero_le _)]
        rfl

theorem flatInverse_eq (entries : List K) :
    A.flatInverse n entries = (A.inverse n (.ofList A.start n entries)).toList n n := by
  refine Grid.toList_congr fun c hc r hr => ?_
  obtain ⟨k, rfl⟩ : ∃ k, n = k + 1 := ⟨n - 1, by omega⟩
  have hminor := A.determinant_flatMinor entries (Nat.le_of_lt_succ hr) (Nat.le_of_lt_succ hc)
  rw [flatCofactor, inverse, cofactor, flatDeterminant_eq, flatDeterminant_eq,
    Nat.add_sub_cancel, hminor]

theorem inverse_congr {m m' : Grid K} (h : ∀ c < n, ∀ r < n, m c r = m' c r) :
    (A.inverse n m).toList n n = (A.inverse n m').toList n n := by
  refine Grid.toList_congr fun c hc r hr => ?_
  have hminor : ∀ i < n - 1, ∀ j < n - 1, m.minor r c i j = m'.minor r c i j :=
    fun i hi j hj => h _ (by split <;> omega) _ (by split <;> omega)
  rw [inverse, inverse, cofactor, cofactor, A.determinant_congr h, A.determinant_congr hminor]

end Arithmetic

def Arithmetic.exact : Arithmetic ℚ where
  start := 0
  one := 1
  neg := (-·)
  add := (· + ·)
  sub := (· - ·)
  mul := (· * ·)
  div := (· / ·)

/-- The first `n` rows and columns as a matrix, whose entries go by row first. -/
def Grid.toMatrix (n : Nat) (m : Grid ℚ) : Matrix (Fin n) (Fin n) ℚ :=
  .of fun r c => m c r

variable {n : Nat}

theorem Grid.toMatrix_minor (m : Grid ℚ) (c r : Fin (n + 1)) :
    (m.minor c r).toMatrix n = (m.toMatrix (n + 1)).submatrix r.succAbove c.succAbove := by
  have hplace : ∀ (p : Fin (n + 1)) (i : Fin n),
      (if (i : Nat) < p then (i : Nat) else i + 1) = p.succAbove i := by
    intro p i
    by_cases h : (i : Nat) < p
    · rw [if_pos h, Fin.succAbove_of_castSucc_lt p i h, Fin.val_castSucc]
    · rw [if_neg h, Fin.succAbove_of_le_castSucc p i (Nat.le_of_not_lt h), Fin.val_succ]
  ext i j
  simp only [toMatrix, of_apply, submatrix_apply, minor, hplace]

namespace Arithmetic

theorem sum_exact (xs : List ℚ) : exact.sum xs = xs.sum :=
  List.sum_eq_foldl.symm

theorem alternate_exact (c r : Nat) (x : ℚ) :
    exact.alternate c r x = (-1) ^ (c + r) * x := by
  refine congrArg (· * x) ?_
  rcases Nat.mod_two_eq_zero_or_one (c + r) with h | h
  · rw [if_pos h, (Nat.even_iff.mpr h).neg_one_pow]
    rfl
  · rw [if_neg (by omega), (Nat.odd_iff.mpr h).neg_one_pow]
    rfl

theorem determinant_exact_expand (m : Grid ℚ) :
    exact.determinant (n + 3) m = ∑ c : Fin (n + 3),
      m c 0 * ((-1) ^ (c : Nat) * exact.determinant (n + 2) (m.minor c 0)) := by
  rw [determinant, sum_exact]
  refine (Finset.sum_range fun c => exact.mul (m c 0) (exact.alternate c 0 _)).trans ?_
  exact Finset.sum_congr rfl fun c _ => congrArg (m c 0 * ·) (alternate_exact c 0 _)

theorem determinant_exact (m : Grid ℚ) :
    exact.determinant (n + 1) m = (m.toMatrix (n + 1)).det := by
  induction n generalizing m with
  | zero => exact (det_fin_one (m.toMatrix 1)).symm
  | succ n ih =>
    cases n with
    | zero => exact (det_fin_two (m.toMatrix 2)).symm
    | succ n =>
      rw [determinant_exact_expand, det_succ_row_zero]
      refine Finset.sum_congr rfl fun c _ => ?_
      have hminor := Grid.toMatrix_minor m c 0
      rw [Fin.val_zero] at hminor
      rw [ih, hminor, ← Fin.succAbove_zero]
      simp only [Grid.toMatrix, of_apply, Fin.val_zero]
      ring

/-- A cofactor is the entry of the adjugate with its column and row exchanged. -/
theorem cofactor_exact (m : Grid ℚ) (c r : Fin (n + 2)) :
    exact.cofactor (n + 2) m c r = (m.toMatrix (n + 2)).adjugate c r := by
  rw [cofactor, alternate_exact, show n + 2 - 1 = n + 1 from rfl, determinant_exact,
    Grid.toMatrix_minor, adjugate_fin_succ_eq_det_submatrix, Nat.add_comm]

theorem inverse_exact (m : Grid ℚ) :
    (exact.inverse (n + 2) m).toMatrix (n + 2) =
      (m.toMatrix (n + 2)).det⁻¹ • (m.toMatrix (n + 2)).adjugate := by
  ext r c
  rw [Matrix.smul_apply, smul_eq_mul, mul_comm, ← div_eq_mul_inv, ← cofactor_exact,
    ← determinant_exact]
  rfl

end Arithmetic

/-- The entries of a matrix stand column after column. -/
structure Stores (entries : List ℚ) (a : Matrix (Fin n) (Fin n) ℚ) : Prop where
  length : entries.length = n * n
  entry : ∀ r c : Fin n, entries[(c : Nat) * n + r]? = some (a r c)

theorem Stores.toMatrix_eq {entries : List ℚ} {a : Matrix (Fin n) (Fin n) ℚ}
    (h : Stores entries a) : (Grid.ofList 0 n entries).toMatrix n = a := by
  ext r c
  rw [Grid.toMatrix, of_apply, Grid.ofList, List.getD_eq_getElem?_getD, h.entry, Option.getD_some]

theorem Grid.stores_toList (m : Grid ℚ) : Stores (m.toList n n) (m.toMatrix n) where
  length := length_toList n n m
  entry r c := getElem?_toList c.isLt r.isLt

namespace Library

/-- In double precision the library runs the same expansions, and rounds what they give. -/
theorem call_determinant {data : List Binary32} (h : data.length = n * n) :
    ∃ m, widenedGrid n n data = .value m ∧
      call "determinant" [.matrix n n data] =
        .value (.scalar (rounded data (Arithmetic.double.determinant n m))) ∧
      call "inverse" [.matrix n n data] = .value (.matrix n n
        (((Arithmetic.double.inverse n m).toList n n).map (.viaDouble data))) := by
  have hentries : entries n n data = .value data := if_neg (by omega)
  have hgrid : widenedGrid n n data =
      .value fun c r => (Grid.ofList .zero n data c r).widen := by
    rw [widenedGrid, grid, hentries]
    rfl
  have hwidened : ∀ c < n, ∀ r < n,
      Grid.ofList Arithmetic.double.start n (data.map Binary32.widen) c r =
        (Grid.ofList .zero n data c r).widen := by
    intro c hc r hr
    have hplace : c * n + r < data.length := by
      have hcolumn : (c + 1) * n ≤ n * n := Nat.mul_le_mul_right n hc
      rw [Nat.add_one_mul] at hcolumn
      omega
    simp [Grid.ofList, hplace]
  have hdeterminant : WholeFunction.ofName? "determinant" = some .determinant := rfl
  have hinverse : WholeFunction.ofName? "inverse" = some .inverse := rfl
  refine ⟨_, hgrid, ?_, ?_⟩
  · simp only [call, hdeterminant, whole, hentries, if_true, Outcome.value_bind, Outcome.pure_eq]
    rw [Arithmetic.flatDeterminant_eq, Arithmetic.determinant_congr _ hwidened]
  · simp only [call, hinverse, whole, hentries, if_true, Outcome.value_bind, Outcome.pure_eq]
    rw [Arithmetic.flatInverse_eq, Arithmetic.inverse_congr _ hwidened]

end Library

/-- For square matrices of two rows or more, the library's determinant and inverse are expansions in
double precision. The same expansions in exact arithmetic give the determinant as the signed sum
over all permutations and, unless it is 0, the inverse on both sides, stored as the matrix is. -/
theorem cofactor_expansion_exact (hn : 2 ≤ n) :
    (∀ data : List Binary32, data.length = n * n → ∃ m, Library.widenedGrid n n data = .value m ∧
      Library.call "determinant" [.matrix n n data] =
        .value (.scalar (Library.rounded data (Arithmetic.double.determinant n m))) ∧
      Library.call "inverse" [.matrix n n data] = .value (.matrix n n
        (((Arithmetic.double.inverse n m).toList n n).map (.viaDouble data)))) ∧
    ∀ (entries : List ℚ) (a : Matrix (Fin n) (Fin n) ℚ), Stores entries a →
      Arithmetic.exact.determinant n (.ofList 0 n entries) =
        ∑ p : Equiv.Perm (Fin n), (p.sign : ℚ) * ∏ i, a (p i) i ∧
      (Arithmetic.exact.determinant n (.ofList 0 n entries) ≠ 0 →
        ∃ b, Stores ((Arithmetic.exact.inverse n (.ofList 0 n entries)).toList n n) b ∧
          a * b = 1 ∧ b * a = 1) := by
  refine ⟨fun data hdata => Library.call_determinant hdata, ?_⟩
  rintro entries a ha
  obtain ⟨k, rfl⟩ : ∃ k, n = k + 2 := ⟨n - 2, by omega⟩
  rw [Arithmetic.determinant_exact, ha.toMatrix_eq]
  refine ⟨det_apply' a, fun hdet => ⟨_, Grid.stores_toList _, ?_, ?_⟩⟩
  · rw [Arithmetic.inverse_exact, ha.toMatrix_eq, Matrix.mul_smul, mul_adjugate, smul_smul,
      inv_mul_cancel₀ hdet, one_smul]
  · rw [Arithmetic.inverse_exact, ha.toMatrix_eq, Matrix.smul_mul, adjugate_mul, smul_smul,
      inv_mul_cancel₀ hdet, one_smul]

/-- The columns of a matrix that is not symmetric, with determinant 25. -/
def skewed : List ℚ :=
  [2, 0, 1, 1, 3, 0, 0, 1, 4]

theorem cofactor_expansion_skewed :
    let a : Matrix (Fin 3) (Fin 3) ℚ := !![2, 1, 0; 0, 3, 1; 1, 0, 4]
    Stores skewed a ∧ Arithmetic.exact.determinant 3 (.ofList 0 3 skewed) = 25 ∧
      ∃ b, Stores ((Arithmetic.exact.inverse 3 (.ofList 0 3 skewed)).toList 3 3) b ∧
        a * b = 1 ∧ b * a = 1 := by
  intro a
  have ha : Stores skewed a := ⟨rfl, by decide⟩
  have hdet : Arithmetic.exact.determinant 3 (.ofList 0 3 skewed) = 25 := by decide +kernel
  refine ⟨ha, hdet, ((cofactor_expansion_exact (by decide)).2 skewed a ha).2 ?_⟩
  rw [hdet]
  decide

end Shader
