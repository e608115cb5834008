import Shader.Fault
import Shader.Scalar
import Shader.Ty

/-! Values of constant expressions. -/

namespace Shader

inductive Value where
  | scalar (s : Scalar)
  | vector (components : List Scalar)
  /-- The columns one after another. -/
  | matrix (cols rows : Nat) (data : List Binary32)
  /-- The fields in the order of their declaration. -/
  | struct (fields : List (String × Value))
  | array (elements : List Value)
deriving Repr

namespace Value

def components : Value → List Scalar
  | scalar s => [s]
  | vector cs => cs
  | matrix _ _ data => data.map .float
  | struct _ | array _ => []

def ofComponents (b : BasicTy) (cs : List Scalar) : Except Fault Value :=
  match b with
  | .matrix c r => .ok (matrix c.toNat r.toNat (cs.map Scalar.toBinary32))
  | .vector _ _ => .ok (vector cs)
  | _ =>
    match cs with
    | s :: _ => .ok (scalar s)
    | [] => .error .noComponents

def scalar? : Value → Option Scalar
  | scalar s => some s
  | _ => none

def column? (v : Value) (c : Nat) : Except Fault (Option Value) :=
  match v with
  | matrix cols rows data =>
    if cols ≤ c then .ok none
    else if data.length < (c + 1) * rows then .error (.short ((c + 1) * rows) data.length)
    else .ok (some (vector (((data.drop (c * rows)).take rows).map .float)))
  | _ => .ok none

mutual

def sameValue : Value → Value → Bool
  | scalar a, scalar b => a.sameValue b
  | vector as, vector bs => as.length == bs.length && (as.zipWith Scalar.sameValue bs).all id
  | matrix c r as, matrix c' r' bs =>
    c == c' && r == r' && as.length == bs.length && (as.zipWith Binary32.sameValue bs).all id
  | struct as, struct bs => sameFields as bs
  | array as, array bs => sameElements as bs
  | _, _ => false

def sameFields : List (String × Value) → List (String × Value) → Bool
  | [], [] => true
  | (x, a) :: as, (y, b) :: bs => x == y && a.sameValue b && sameFields as bs
  | _, _ => false

def sameElements : List Value → List Value → Bool
  | [], [] => true
  | a :: as, b :: bs => a.sameValue b && sameElements as bs
  | _, _ => false

end

end Value

end Shader
