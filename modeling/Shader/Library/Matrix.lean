import Shader.Number.Double

/-! Matrices as functions of column and row, and cofactor expansion over any arithmetic on entries
that stand column after column. -/

namespace Shader

/-- An entry for each column and row. -/
abbrev Grid (K : Type) := Nat → Nat → K

namespace Grid

/-- The grid of entries that stand column after column. -/
def ofList {K : Type} (outside : K) (rows : Nat) (entries : List K) : Grid K :=
  fun c r => entries.getD (c * rows + r) outside

def toList {K : Type} (cols rows : Nat) (m : Grid K) : List K :=
  (List.range cols).flatMap fun c => (List.range rows).map fun r => m c r

def transpose {K : Type} (m : Grid K) : Grid K :=
  fun c r => m r c

/-- The product, where rows of `a` and columns of `b` have `inner` entries. -/
def product (a b : Grid Float) (inner : Nat) : Grid Float :=
  fun c r => Double.sum ((List.range inner).map fun k => a k r * b c k)

end Grid

/-- The operations in which a determinant is computed; a sum starts from `start`. -/
structure Arithmetic (K : Type) where
  start : K
  one : K
  neg : K → K
  add : K → K → K
  sub : K → K → K
  mul : K → K → K
  div : K → K → K

namespace Arithmetic

/-- Double precision, with sums that start from -0.0. -/
def double : Arithmetic Float where
  start := -0.0
  one := 1.0
  neg := (-·)
  add := (· + ·)
  sub := (· - ·)
  mul := (· * ·)
  div := (· / ·)

variable {K : Type} (A : Arithmetic K)

def sum (xs : List K) : K :=
  xs.foldl A.add A.start

/-- `x` with the sign of place (`col`, `row`) on a chessboard. -/
def alternate (col row : Nat) (x : K) : K :=
  A.mul (if (col + row) % 2 = 0 then A.one else A.neg A.one) x

/-- The entries of `n` columns and rows without one column and one row. -/
def flatMinor (n : Nat) (entries : List K) (col row : Nat) : List K :=
  ((List.range n).filter (· != col)).flatMap fun c =>
    ((List.range n).filter (· != row)).map fun r => entries.getD (c * n + r) A.start

/-- The determinant of `n` columns and rows, by expansion along the first row. -/
def flatDeterminant : (n : Nat) → List K → K
  | 0, _ => A.sum []
  | 1, m => m.getD 0 A.start
  | 2, m =>
    A.sub (A.mul (m.getD 0 A.start) (m.getD 3 A.start))
      (A.mul (m.getD 2 A.start) (m.getD 1 A.start))
  | n + 3, m =>
    A.sum ((List.range (n + 3)).map fun c =>
      A.mul (m.getD (c * (n + 3)) A.start)
        (A.alternate c 0 (flatDeterminant (n + 2) (A.flatMinor (n + 3) m c 0))))

def flatCofactor (n : Nat) (m : List K) (col row : Nat) : K :=
  A.alternate col row (A.flatDeterminant (n - 1) (A.flatMinor n m col row))

/-- The inverse: transposed cofactors over the determinant. -/
def flatInverse (n : Nat) (m : List K) : List K :=
  (List.range n).flatMap fun c => (List.range n).map fun r =>
    A.div (A.flatCofactor n m r c) (A.flatDeterminant n m)

end Arithmetic

end Shader
