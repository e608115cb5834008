import Mathlib.Data.Int.ModEq
import Shader.Fold
import Shader.Proofs.IntLiteral
import Shader.Proofs.Outcome

/-! Integer expressions modulo 2 ^ 32. Sums, differences and products of literals fold to the signed
integer that is congruent to their exact value. The operators that act on bits alone give the same
bits for signed and for unsigned integers. -/

namespace Shader

/-- The operators whose result has the same bits for signed and unsigned operands. -/
def UnaryOp.isModular : UnaryOp → Bool
  | .plus | .neg | .bitNot => true
  | .not => false

def BinaryOp.isModular : BinaryOp → Bool
  | .add | .sub | .mul | .bitAnd | .bitOr | .bitXor | .shl => true
  | _ => false

namespace Expr

/-- Made of integer literals with signs, sums, differences and products; the exact value is `n`. -/
inductive ExactValue : Expr → Int → Prop
  | literal {text : String} {note : Note} {n : Nat} (h : Literal.IsNumeral text.toList n)
      (hn : n < twoPow 32) : ExactValue (.int text note) n
  | plus {e : Expr} {note : Note} {n : Int} (h : ExactValue e n) :
      ExactValue (.unary .plus e note) n
  | neg {e : Expr} {note : Note} {n : Int} (h : ExactValue e n) :
      ExactValue (.unary .neg e note) (-n)
  | add {l r : Expr} {note : Note} {m n : Int} (hl : ExactValue l m) (hr : ExactValue r n) :
      ExactValue (.binary .add l r note) (m + n)
  | sub {l r : Expr} {note : Note} {m n : Int} (hl : ExactValue l m) (hr : ExactValue r n) :
      ExactValue (.binary .sub l r note) (m - n)
  | mul {l r : Expr} {note : Note} {m n : Int} (hl : ExactValue l m) (hr : ExactValue r n) :
      ExactValue (.binary .mul l r note) (m * n)

/-- Made of integer literals with operators that act on bits alone. -/
inductive IsModular : Expr → Prop
  | literal {text : String} {note : Note} {n : Nat} (h : Literal.IsNumeral text.toList n)
      (hn : n < twoPow 32) : IsModular (.int text note)
  | unary {op : UnaryOp} {e : Expr} {note : Note} (hop : op.isModular = true) (h : IsModular e) :
      IsModular (.unary op e note)
  | binary {op : BinaryOp} {l r : Expr} {note : Note} (hop : op.isModular = true)
      (hl : IsModular l) (hr : IsModular r) : IsModular (.binary op l r note)

/-- The tree with a mark at every literal that makes it unsigned. -/
def markUnsigned : Expr → Expr
  | .int text note => .int (text ++ "u") note
  | .unary op e note => .unary op e.markUnsigned note
  | .binary op l r note => .binary op l.markUnsigned r.markUnsigned note
  | e => e

attribute [local simp] Expr.fold

variable {e : Expr}

theorem fold_literal {text : String} {n : Nat} (note : Note)
    (h : Literal.IsNumeral text.toList n) (hn : n < twoPow 32) :
    (Expr.int text note).fold = .value (.ofScalar (.int (UInt32.ofNat n).toInt32)) ∧
      (Expr.int (text ++ "u") note).fold = .value (.ofScalar (.uint (UInt32.ofNat n))) := by
  obtain ⟨hsigned, hunsigned⟩ := h.int_eq hn
  rw [String.ofList_toList] at hsigned
  have hmark : String.ofList (text.toList ++ ['u']) = text ++ "u" := by
    rw [String.ofList_append, String.ofList_toList]
  rw [hmark] at hunsigned
  simp [hsigned, hunsigned, Except.toOption]

theorem fold_unary {op : UnaryOp} {c d : Constant} (note : Note) (he : e.fold = .value c)
    (h : Fold.unary op c = .value d) : (Expr.unary op e note).fold = .value d := by
  simp [he, h]

theorem fold_binary {op : BinaryOp} {l r : Expr} {a b c : Constant} (note : Note)
    (hl : l.fold = .value a) (hr : r.fold = .value b) (h : Fold.binary op a b = .value c) :
    (Expr.binary op l r note).fold = .value c := by
  simp [hl, hr, h]

/-- Folding wraps the exact value once, wherever the operations wrapped on the way. -/
theorem ExactValue.fold_eq {n : Int} (h : ExactValue e n) :
    e.fold = .value (.ofScalar (.int (Int32.ofInt n))) := by
  induction h with
  | @literal text note n h hn =>
    rw [(fold_literal note h hn).1, UInt32.toInt32_ofNat', Int32.ofInt_eq_ofNat]
  | plus h ih => exact fold_unary _ ih rfl
  | neg h ih => exact fold_unary _ ih (by rw [Int32.ofInt_neg]; rfl)
  | add hl hr ihl ihr => exact fold_binary _ ihl ihr (by rw [Int32.ofInt_add]; rfl)
  | sub hl hr ihl ihr => exact fold_binary _ ihl ihr (by rw [Int32.ofInt_sub]; rfl)
  | mul hl hr ihl ihr => exact fold_binary _ ihl ihr (by rw [Int32.ofInt_mul]; rfl)

theorem unary_bits {op : UnaryOp} (hop : op.isModular = true) (w : UInt32) :
    ∃ u : UInt32, Fold.unary op (.ofScalar (.int w.toInt32)) = .value (.ofScalar (.int u.toInt32)) ∧
      Fold.unary op (.ofScalar (.uint w)) = .value (.ofScalar (.uint u)) := by
  cases op with
  | plus => exact ⟨w, rfl, rfl⟩
  | neg => exact ⟨-w, by rw [UInt32.toInt32_neg]; rfl, rfl⟩
  | bitNot => exact ⟨~~~w, by rw [UInt32.toInt32_not]; rfl, rfl⟩
  | not => cases hop

theorem binary_bits {op : BinaryOp} (hop : op.isModular = true) (v w : UInt32) :
    ∃ u : UInt32,
      Fold.binary op (.ofScalar (.int v.toInt32)) (.ofScalar (.int w.toInt32)) =
        .value (.ofScalar (.int u.toInt32)) ∧
      Fold.binary op (.ofScalar (.uint v)) (.ofScalar (.uint w)) =
        .value (.ofScalar (.uint u)) := by
  cases op with
  | add => exact ⟨v + w, by rw [UInt32.toInt32_add]; rfl, rfl⟩
  | sub => exact ⟨v - w, by rw [UInt32.toInt32_sub]; rfl, rfl⟩
  | mul => exact ⟨v * w, by rw [UInt32.toInt32_mul]; rfl, rfl⟩
  | bitAnd => exact ⟨v &&& w, by rw [UInt32.toInt32_and]; rfl, rfl⟩
  | bitOr => exact ⟨v ||| w, by rw [UInt32.toInt32_or]; rfl, rfl⟩
  | bitXor => exact ⟨v ^^^ w, by rw [UInt32.toInt32_xor]; rfl, rfl⟩
  | shl =>
    -- The amount is read off the bits, so its sign does not matter.
    refine ⟨v <<< (w % 32), ?_, rfl⟩
    show Outcome.value (Constant.ofScalar (.int
      (v.toInt32.toUInt32 <<< (w.toInt32.toUInt32 % 32)).toInt32)) = _
    rw [UInt32.toUInt32_toInt32, UInt32.toUInt32_toInt32]
  | _ => cases hop

theorem IsModular.fold_eq (h : IsModular e) :
    ∃ w : UInt32, e.fold = .value (.ofScalar (.int w.toInt32)) ∧
      e.markUnsigned.fold = .value (.ofScalar (.uint w)) := by
  induction h with
  | @literal text note n h hn => exact ⟨_, fold_literal note h hn⟩
  | unary hop h ih =>
    obtain ⟨w, hsigned, hunsigned⟩ := ih
    obtain ⟨u, hint, huint⟩ := unary_bits hop w
    exact ⟨u, fold_unary _ hsigned hint, fold_unary _ hunsigned huint⟩
  | binary hop hl hr ihl ihr =>
    obtain ⟨v, hlsigned, hlunsigned⟩ := ihl
    obtain ⟨w, hrsigned, hrunsigned⟩ := ihr
    obtain ⟨u, hint, huint⟩ := binary_bits hop v w
    exact ⟨u, fold_binary _ hlsigned hrsigned hint, fold_binary _ hlunsigned hrunsigned huint⟩

end Expr

theorem ofInt_modEq (n : Int) : (Int32.ofInt n).toInt ≡ n [ZMOD twoPow 32] := by
  rw [Int32.toInt_ofInt]
  exact Int.bmod_emod

theorem eq_of_modEq {i j : Int32} (h : i.toInt ≡ j.toInt [ZMOD twoPow 32]) : i = j := by
  have hi := i.le_toInt
  have hi' := i.toInt_lt
  have hj := j.le_toInt
  have hj' := j.toInt_lt
  have h : i.toInt % 4294967296 = j.toInt % 4294967296 := h
  exact Int32.toInt_inj.mp (by omega)

/-- Integers fold modulo 2 ^ 32. Whatever overflows on the way, the result is the only 32-bit
integer congruent to the exact value; and signed and unsigned literals give the same bits under
operators that act on bits alone. -/
theorem int_fold_modular (e : Expr) :
    (∀ n, e.ExactValue n → ∃ i : Int32, e.constant? = some (.ofScalar (.int i)) ∧
      i.toInt ≡ n [ZMOD twoPow 32] ∧ ∀ j : Int32, j.toInt ≡ n [ZMOD twoPow 32] → j = i) ∧
    (e.IsModular → ∃ w : UInt32, e.constant? = some (.ofScalar (.int w.toInt32)) ∧
      e.markUnsigned.constant? = some (.ofScalar (.uint w))) := by
  constructor
  · intro n h
    refine ⟨Int32.ofInt n, Outcome.value?_eq_some_iff.mpr h.fold_eq, ofInt_modEq n, fun j hj => ?_⟩
    exact eq_of_modEq (hj.trans (ofInt_modEq n).symm)
  · intro h
    obtain ⟨w, hsigned, hunsigned⟩ := h.fold_eq
    exact ⟨w, Outcome.value?_eq_some_iff.mpr hsigned, Outcome.value?_eq_some_iff.mpr hunsigned⟩

/-- `-(0xFFFFFFFF * 3) - 2147483648`, where every operation wraps. -/
def wrappingExpr (note : Note) : Expr :=
  .binary .sub
    (.unary .neg (.binary .mul (.int "0xFFFFFFFF" note) (.int "3" note) note) note)
    (.int "2147483648" note) note

/-- `~(1 << 33) ^ 017`, with a shift by more than 32 bits. -/
def shiftingExpr (note : Note) : Expr :=
  .binary .bitXor
    (.unary .bitNot (.binary .shl (.int "1" note) (.int "33" note) note) note)
    (.int "017" note) note

theorem wrappingExpr_exactValue (note : Note) : (wrappingExpr note).ExactValue (-15032385533) := by
  have hmax : Literal.IsNumeral "0xFFFFFFFF".toList 4294967295 :=
    .hex (.inl rfl) (by decide)
  have hthree : Literal.IsNumeral "3".toList 3 :=
    .decimal (by decide) (by decide)
  have hhalf : Literal.IsNumeral "2147483648".toList 2147483648 :=
    .decimal (by decide) (by decide)
  exact .sub (.neg (.mul (.literal hmax (by decide)) (.literal hthree (by decide))))
    (.literal hhalf (by decide))

theorem shiftingExpr_isModular (note : Note) : (shiftingExpr note).IsModular := by
  have hone : Literal.IsNumeral "1".toList 1 :=
    .decimal (by decide) (by decide)
  have hamount : Literal.IsNumeral "33".toList 33 :=
    .decimal (by decide) (by decide)
  have hoctal : Literal.IsNumeral "017".toList 15 :=
    .octal (by decide)
  exact .binary rfl (.unary rfl (.binary rfl (.literal hone (by decide))
    (.literal hamount (by decide)))) (.literal hoctal (by decide))

theorem int_fold_modular_wrappingExpr :
    (wrappingExpr ⟨⟨0, 0⟩, none⟩).ExactValue (-15032385533) ∧
      (∃ i : Int32, (wrappingExpr ⟨⟨0, 0⟩, none⟩).constant? = some (.ofScalar (.int i)) ∧
        i.toInt ≡ -15032385533 [ZMOD twoPow 32] ∧
        ∀ j : Int32, j.toInt ≡ -15032385533 [ZMOD twoPow 32] → j = i) ∧
      (shiftingExpr ⟨⟨0, 0⟩, none⟩).IsModular ∧
      ∃ w : UInt32, (shiftingExpr ⟨⟨0, 0⟩, none⟩).constant? = some (.ofScalar (.int w.toInt32)) ∧
        (shiftingExpr ⟨⟨0, 0⟩, none⟩).markUnsigned.constant? = some (.ofScalar (.uint w)) :=
  ⟨wrappingExpr_exactValue _, (int_fold_modular _).1 _ (wrappingExpr_exactValue _),
    shiftingExpr_isModular _, (int_fold_modular _).2 (shiftingExpr_isModular _)⟩

end Shader
