/-! Swizzles: selecting components of a vector by letters such as `xyz`. -/

namespace Shader

namespace Swizzle

def alphabets : List (List Char) :=
  [['x', 'y', 'z', 'w'], ['r', 'g', 'b', 'a'], ['s', 't', 'p', 'q']]

/-- The alphabet of a letter and its index in that alphabet. -/
def letter? (c : Char) : Option (Nat × Nat) :=
  (alphabets.zipIdx).findSome? fun (letters, set) => (letters.idxOf? c).map fun i => (set, i)

inductive Problem where
  | length (field : String)
  | notComponent (letter : Char)
  | mixed (field : String)
  | outOfRange (letter : Char) (size : Nat)
deriving DecidableEq, Repr

def Problem.message : Problem → String
  | length field => s!"swizzle '{field}' must select 1 to 4 components"
  | notComponent c => s!"'{c}' is not a vector component"
  | mixed field => s!"swizzle '{field}' mixes components from different sets"
  | outOfRange c size => s!"component '{c}' is out of range for a {size}-component vector"

/-- The indices of the letters; every letter is to come from alphabet `set`, if one is given. -/
def select (field : String) (size : Nat) :
    (set : Option Nat) → List Char → Except Problem (List Nat)
  | _, [] => .ok []
  | set, c :: cs =>
    match letter? c with
    | none => .error (.notComponent c)
    | some (s, i) =>
      if set.any (· ≠ s) then .error (.mixed field)
      else if size ≤ i then .error (.outOfRange c size)
      else (select field size (some s) cs).map (i :: ·)

/-- The component indices that `field` selects from a vector of `size` components. -/
def indices (field : String) (size : Nat) : Except Problem (List Nat) :=
  if field.utf8ByteSize = 0 || 4 < field.utf8ByteSize then .error (.length field)
  else select field size none field.toList

/-- The field is spelled like a swizzle. -/
def isLike (field : String) : Bool :=
  1 ≤ field.utf8ByteSize && field.utf8ByteSize ≤ 4 && field.toList.all fun c => (letter? c).isSome

def repeats : List Nat → Bool
  | [] => false
  | i :: is => is.contains i || repeats is

end Swizzle

end Shader
