import Shader.Check.Expr
import Shader.Fold.Operator
import Shader.Proofs.Library.Whole

/-! Operators on constants of the right shape. Where the typing rule of an operator accepts the
operands there is no fault, and the only thing that keeps a value away is an integer division by
zero. -/

namespace Shader

/-- Operand and result types of an operator that works component by component: an operand has one
component, or as many as the result. -/
structure Lanes (l r result : BasicTy) (ka kb : ScalarKind) : Prop where
  leftKind : l.componentKind? = some ka
  rightKind : r.componentKind? = some kb
  resultKind : result.componentKind? = some ka
  count : result.componentCount = max l.componentCount r.componentCount
  leftCount : l.componentCount = 1 ∨ l.componentCount = result.componentCount
  rightCount : r.componentCount = 1 ∨ r.componentCount = result.componentCount

theorem Dim.max_one_toNat (n : Dim) : max 1 n.toNat = n.toNat := by
  have := n.two_le_toNat
  omega

theorem Dim.max_toNat_one (n : Dim) : max n.toNat 1 = n.toNat := by
  have := n.two_le_toNat
  omega

theorem Dim.max_one_mul (c r : Dim) : max 1 (c.toNat * r.toNat) = c.toNat * r.toNat := by
  cases c <;> cases r <;> rfl

theorem Dim.max_mul_one (c r : Dim) : max (c.toNat * r.toNat) 1 = c.toNat * r.toNat := by
  cases c <;> cases r <;> rfl

theorem componentRule_lanes {accepts : ScalarKind → Bool} {l r t : BasicTy}
    (h : componentRule accepts l r = some t) : ∃ k, accepts k = true ∧ Lanes l r t k k := by
  unfold componentRule at h
  split at h
  · obtain ⟨⟨rfl, ha⟩, rfl⟩ : (_ ∧ _) ∧ _ := by simpa using h
    exact ⟨_, ha, rfl, rfl, rfl, rfl, .inl rfl, .inl rfl⟩
  · rename_i a b n
    obtain ⟨⟨rfl, ha⟩, rfl⟩ : (_ ∧ _) ∧ _ := by simpa using h
    exact ⟨_, ha, rfl, rfl, rfl, n.max_one_toNat.symm, .inl rfl, .inr rfl⟩
  · rename_i a n b
    obtain ⟨⟨rfl, ha⟩, rfl⟩ : (_ ∧ _) ∧ _ := by simpa using h
    exact ⟨_, ha, rfl, rfl, rfl, n.max_toNat_one.symm, .inr rfl, .inl rfl⟩
  · obtain ⟨⟨⟨rfl, rfl⟩, ha⟩, rfl⟩ : ((_ ∧ _) ∧ _) ∧ _ := by simpa using h
    exact ⟨_, ha, rfl, rfl, rfl, (Nat.max_self _).symm, .inr rfl, .inr rfl⟩
  · simp at h

theorem matrixRule_lanes {op : BinaryOp} {l r t : BasicTy} (h : matrixRule op l r = some t) :
    Lanes l r t .float .float := by
  unfold matrixRule at h
  split at h
  · rename_i c r
    obtain rfl := Option.some.inj h
    exact ⟨rfl, rfl, rfl, (c.max_one_mul r).symm, .inl rfl, .inr rfl⟩
  · rename_i c r
    obtain rfl := Option.some.inj h
    exact ⟨rfl, rfl, rfl, (c.max_mul_one r).symm, .inr rfl, .inl rfl⟩
  · obtain ⟨⟨⟨rfl, rfl⟩, -⟩, rfl⟩ : ((_ ∧ _) ∧ _) ∧ _ := by simpa using h
    exact ⟨rfl, rfl, rfl, (Nat.max_self _).symm, .inr rfl, .inr rfl⟩
  · simp at h

theorem shiftRule_lanes {l r t : BasicTy} (h : shiftRule l r = some t) :
    ∃ ka kb, ka.isInteger = true ∧ kb.isInteger = true ∧ Lanes l r t ka kb := by
  unfold shiftRule at h
  split at h
  · obtain ⟨⟨ha, hb⟩, rfl⟩ : (_ ∧ _) ∧ _ := by simpa using h
    exact ⟨_, _, ha, hb, rfl, rfl, rfl, rfl, .inl rfl, .inl rfl⟩
  · rename_i a n b
    obtain ⟨⟨ha, hb⟩, rfl⟩ : (_ ∧ _) ∧ _ := by simpa using h
    exact ⟨_, _, ha, hb, rfl, rfl, rfl, n.max_toNat_one.symm, .inr rfl, .inl rfl⟩
  · obtain ⟨⟨⟨ha, hb⟩, rfl⟩, rfl⟩ : ((_ ∧ _) ∧ _) ∧ _ := by simpa using h
    exact ⟨_, _, ha, hb, rfl, rfl, rfl, (Nat.max_self _).symm, .inr rfl, .inr rfl⟩
  · simp at h

namespace Fold

/-- The constant has the given type and the shape of it. -/
def Has (t : Ty) (c : Constant) : Prop :=
  c.ty = t ∧ c.WellShaped

theorem ofComponents_meets {b : BasicTy} {k : ScalarKind} {cs : List Scalar}
    (hk : b.componentKind? = some k) (hlen : cs.length = b.componentCount)
    (hkind : ∀ s ∈ cs, s.kind = k) : (ofComponents b cs).Meets False (Has (.basic b)) := by
  obtain ⟨v, hv, hfits⟩ := Value.ofComponents_fits hk hlen hkind
  simp only [ofComponents, hv, Outcome.ofExcept_ok, Outcome.value_bind]
  exact ⟨rfl, hfits⟩

theorem unaryScalar_meets {op : UnaryOp} {b : BasicTy} {k : ScalarKind} {s : Scalar}
    (hk : b.componentKind? = some k) (hop : op.accepts b k = true) (hs : s.kind = k) :
    (unaryScalar op s).Meets False fun r => r.kind = k := by
  subst hs
  cases op with
  | plus => simp [unaryScalar]
  | neg => cases s <;> simp_all [unaryScalar, UnaryOp.accepts, Scalar.kind, ScalarKind.isNumeric]
  | bitNot => cases s <;> simp_all [unaryScalar, UnaryOp.accepts, Scalar.kind, ScalarKind.isInteger]
  | not =>
    obtain rfl : b = .scalar .bool := by simpa [UnaryOp.accepts] using hop
    cases s <;> simp_all [unaryScalar, Scalar.kind, BasicTy.componentKind?]

theorem unary_meets {op : UnaryOp} {c : Constant} {b result : BasicTy} (hc : Has (.basic b) c)
    (hrule : op.rule b = some result) : (unary op c).Meets False (Has (.basic result)) := by
  obtain ⟨ty, v⟩ := c
  obtain ⟨rfl, hv⟩ := hc
  obtain ⟨k, hk, hlen, hkind⟩ := Value.Fits.components hv
  simp only [UnaryOp.rule, hk, Option.ite_none_right_eq_some, Option.some.injEq] at hrule
  obtain ⟨hop, rfl⟩ := hrule
  simp only [unary, Ty.basic?, Outcome.ofOption_some, Outcome.value_bind, UnaryOp.rule, hk, hop,
    if_true]
  have hmap := Outcome.Meets.mapM fun s hs => unaryScalar_meets hk hop (hkind s hs)
  refine hmap.bind fun cs hcs => ?_
  exact ofComponents_meets hk (hcs.1.trans hlen) hcs.2

/-- The divisor of an integer division or remainder has a component that is 0. -/
def ZeroDivisor (op : BinaryOp) (divisor : List Scalar) : Prop :=
  (op = .div ∨ op = .mod) ∧ (.int 0 ∈ divisor ∨ .uint 0 ∈ divisor)

theorem ZeroDivisor.mono {op : BinaryOp} {as bs : List Scalar} (h : ZeroDivisor op as)
    (hsub : as ⊆ bs) : ZeroDivisor op bs :=
  ⟨h.1, h.2.imp (fun h => hsub h) (fun h => hsub h)⟩

theorem broadcast_meets {as : List Scalar} {i : Nat} (h : as.length = 1 ∨ i < as.length) :
    (broadcast as i).Meets False (· ∈ as) := by
  unfold broadcast
  split
  · simp
  · rename_i hone
    have hi : i < as.length := by
      refine h.resolve_left fun hl => ?_
      obtain ⟨s, rfl⟩ := List.length_eq_one_iff.mp hl
      exact hone s rfl
    simp [component, List.getElem?_eq_getElem hi]

/-- The operators whose value is computed component by component. -/
def isComponentwise : BinaryOp → Bool
  | .add | .sub | .mul | .div | .mod | .bitAnd | .bitOr | .bitXor | .shl | .shr => true
  | _ => false

theorem shift_meets {op : BinaryOp} {a b : Scalar} (ha : a.kind.isInteger = true)
    (hb : b.kind.isInteger = true) : (shift op a b).Meets False fun s => s.kind = a.kind := by
  cases a <;> cases b <;> simp_all [shift, Scalar.kind, ScalarKind.isInteger]

theorem intArithmetic_meets {op : BinaryOp} {x y : Int32} (hop : isComponentwise op = true)
    (hs : op ≠ .shl ∧ op ≠ .shr) :
    (intArithmetic op x y).Meets (ZeroDivisor op [.int y]) fun _ => True := by
  by_cases hy : y = 0 <;> cases op <;>
    simp_all [intArithmetic, isComponentwise, ZeroDivisor]

theorem uintArithmetic_meets {op : BinaryOp} {x y : UInt32} (hop : isComponentwise op = true)
    (hs : op ≠ .shl ∧ op ≠ .shr) :
    (uintArithmetic op x y).Meets (ZeroDivisor op [.uint y]) fun _ => True := by
  by_cases hy : y = 0 <;> cases op <;>
    simp_all [uintArithmetic, isComponentwise, ZeroDivisor]

/-- One kind on both sides, and no floats under an operator on integers. -/
def Arithmetical (op : BinaryOp) (k : ScalarKind) : Prop :=
  isComponentwise op = true ∧ op ≠ .shl ∧ op ≠ .shr ∧ k.isNumeric = true ∧
    (k = .float → op = .add ∨ op = .sub ∨ op = .mul ∨ op = .div)

theorem binaryScalar_meets_arithmetical {op : BinaryOp} {k : ScalarKind} {a b : Scalar}
    (hop : Arithmetical op k) (ha : a.kind = k) (hb : b.kind = k) :
    (binaryScalar op a b).Meets (ZeroDivisor op [b]) fun s => s.kind = k := by
  obtain ⟨hcw, hl, hr, hnum, hfloat⟩ := hop
  cases k with
  | float =>
    obtain ⟨x, rfl⟩ := Scalar.kind_eq_float.mp ha
    obtain ⟨y, rfl⟩ := Scalar.kind_eq_float.mp hb
    rcases hfloat rfl with rfl | rfl | rfl | rfl <;> simp [binaryScalar, floatArithmetic]
  | int =>
    obtain ⟨x, rfl⟩ := Scalar.kind_eq_int.mp ha
    obtain ⟨y, rfl⟩ := Scalar.kind_eq_int.mp hb
    have hstep : binaryScalar op (.int x) (.int y) =
        intArithmetic op x y >>= fun z => .value (.int z) := by
      cases op <;> simp_all [binaryScalar]
    rw [hstep]
    exact (intArithmetic_meets hcw ⟨hl, hr⟩).bind fun z _ => by simp
  | uint =>
    obtain ⟨x, rfl⟩ := Scalar.kind_eq_uint.mp ha
    obtain ⟨y, rfl⟩ := Scalar.kind_eq_uint.mp hb
    have hstep : binaryScalar op (.uint x) (.uint y) =
        uintArithmetic op x y >>= fun z => .value (.uint z) := by
      cases op <;> simp_all [binaryScalar]
    rw [hstep]
    exact (uintArithmetic_meets hcw ⟨hl, hr⟩).bind fun z _ => by simp
  | bool => simp [ScalarKind.isNumeric] at hnum

theorem binaryComponents_meets {op : BinaryOp} {l r t : BasicTy} {ka kb : ScalarKind}
    (lanes : Lanes l r t ka kb) {as bs : List Scalar} {excuse : Prop}
    (hla : as.length = l.componentCount) (hlb : bs.length = r.componentCount)
    (hop : ∀ a ∈ as, ∀ b ∈ bs, (binaryScalar op a b).Meets excuse fun s => s.kind = ka) :
    (binaryComponents op as bs).Meets excuse fun cs =>
      cs.length = t.componentCount ∧ ∀ s ∈ cs, s.kind = ka := by
  have hcount : max as.length bs.length = t.componentCount := by
    rw [hla, hlb, lanes.count]
  have hleft := lanes.leftCount
  have hright := lanes.rightCount
  unfold binaryComponents
  rw [hcount]
  have hlane : ∀ i ∈ List.range t.componentCount, Outcome.Meets (do
      let a ← broadcast as i
      let b ← broadcast bs i
      binaryScalar op a b) excuse fun s => s.kind = ka := by
    intro i hi
    have hi : i < t.componentCount := List.mem_range.mp hi
    refine ((broadcast_meets (by omega)).mono False.elim fun _ h => h).bind fun a ha => ?_
    refine ((broadcast_meets (by omega)).mono False.elim fun _ h => h).bind fun b hb => ?_
    exact hop a ha b hb
  simpa using Outcome.Meets.mapM hlane

theorem product_meets {a b : Value} {l r t : BasicTy} (hrule : productRule l r = some t)
    (ha : a.Fits (.basic l)) (hb : b.Fits (.basic r)) :
    (product a l b r).Meets False fun cs =>
      t.componentKind? = some .float ∧ cs.length = t.componentCount ∧
        ∀ s ∈ cs, s.kind = .float := by
  obtain ⟨_, _, hla, _⟩ := ha.components
  obtain ⟨_, _, hlb, _⟩ := hb.components
  have hentries : ∀ (cols rows inner : Nat) (m n : Grid Float), ∀ s ∈
      ((m.product n inner).toList cols rows).map
        (Library.rounded (Library.floats a ++ Library.floats b)), s.kind = .float := by
    simp only [List.mem_map]
    rintro cols rows inner m n s ⟨x, _, rfl⟩
    rfl
  have hgrids : ∀ inner rows cols depth : Nat,
      a.components.length = inner * rows → b.components.length = cols * depth →
      t.componentKind? = some .float → t.componentCount = cols * rows →
      (do
        let m ← Library.widenedGrid inner rows (Library.floats a)
        let n ← Library.widenedGrid cols depth (Library.floats b)
        let entries := (m.product n inner).toList cols rows
        return entries.map (Library.rounded (Library.floats a ++ Library.floats b)) :
          Outcome (List Scalar)).Meets False fun cs =>
        t.componentKind? = some .float ∧ cs.length = t.componentCount ∧
          ∀ s ∈ cs, s.kind = .float := by
    intro inner rows cols depth hl hr hk hc
    refine (Library.widenedGrid_meets ((Library.length_floats a).trans hl)).bind fun m _ => ?_
    refine (Library.widenedGrid_meets ((Library.length_floats b).trans hr)).bind fun n _ => ?_
    exact ⟨hk, by simp [Grid.length_toList, hc], hentries _ _ _ _ _⟩
  -- A matrix is on both sides, or a row vector on the left, or a column vector on the right.
  unfold productRule at hrule
  split at hrule
  · obtain ⟨rfl, rfl⟩ : _ ∧ _ := by simpa using hrule
    exact hgrids _ _ _ _ hla hlb rfl rfl
  · obtain ⟨rfl, rfl⟩ : _ ∧ _ := by simpa using hrule
    exact hgrids _ _ _ _ (by simpa [BasicTy.componentCount] using hla) hlb rfl
      (by simp [BasicTy.componentCount])
  · obtain ⟨rfl, rfl⟩ : _ ∧ _ := by simpa using hrule
    exact hgrids _ _ _ _ hla (by simpa [BasicTy.componentCount] using hlb) rfl
      (by simp [BasicTy.componentCount])
  · simp at hrule

theorem productRule_eq_none {l r : BasicTy} (hp : isProduct l r = false) :
    productRule l r = none := by
  cases l <;> cases r <;> simp_all [productRule, isProduct, BasicTy.isMatrix, BasicTy.isScalar]

theorem arithmeticRule_cases {op : BinaryOp} {l r t : BasicTy}
    (hp : ¬ (op = .mul ∧ isProduct l r = true)) (h : arithmeticRule op l r = some t) :
    componentRule ScalarKind.isNumeric l r = some t ∨ matrixRule op l r = some t := by
  have hno : (if op = .mul then productRule l r else none) = none := by
    split
    · exact productRule_eq_none (Bool.eq_false_iff.mpr fun hproduct => hp ⟨‹_›, hproduct⟩)
    · rfl
  simp only [arithmeticRule, hno] at h
  cases hc : componentRule ScalarKind.isNumeric l r with
  | some u => exact .inl (by simpa [hc] using h)
  | none => exact .inr (by simpa [hc] using h)

theorem rule_arithmetical {op : BinaryOp} {l r t : BasicTy} (hop : isComponentwise op = true)
    (hs : op ≠ .shl ∧ op ≠ .shr) (hp : ¬ (op = .mul ∧ isProduct l r = true))
    (h : op.rule l r = some t) : ∃ k, Arithmetical op k ∧ Lanes l r t k k := by
  have harith : arithmeticRule op l r = some t → (op = .add ∨ op = .sub ∨ op = .mul ∨ op = .div) →
      ∃ k, Arithmetical op k ∧ Lanes l r t k k := by
    intro h hfour
    rcases arithmeticRule_cases hp h with hc | hm
    · obtain ⟨k, hk, lanes⟩ := componentRule_lanes hc
      exact ⟨k, ⟨hop, hs.1, hs.2, hk, fun _ => hfour⟩, lanes⟩
    · exact ⟨.float, ⟨hop, hs.1, hs.2, rfl, fun _ => hfour⟩, matrixRule_lanes hm⟩
  have hbits : componentRule ScalarKind.isInteger l r = some t →
      ∃ k, Arithmetical op k ∧ Lanes l r t k k := by
    intro h
    obtain ⟨k, hk, lanes⟩ := componentRule_lanes h
    refine ⟨k, ⟨hop, hs.1, hs.2, ?_, ?_⟩, lanes⟩
    · cases k <;> simp_all [ScalarKind.isInteger, ScalarKind.isNumeric]
    · rintro rfl
      simp [ScalarKind.isInteger] at hk
  cases op <;> simp_all [isComponentwise, BinaryOp.rule]

theorem productRule_of_rule {l r t : BasicTy} (hp : isProduct l r = true)
    (h : BinaryOp.mul.rule l r = some t) : productRule l r = some t := by
  cases hr : productRule l r with
  | some u => simpa [BinaryOp.rule, arithmeticRule, hr] using h
  | none =>
    have hc : componentRule ScalarKind.isNumeric l r = none := by
      cases l <;> cases r <;> simp_all [componentRule, isProduct, BasicTy.isMatrix]
    have hm : matrixRule .mul l r = none := by
      cases l <;> cases r <;> simp_all [matrixRule, isProduct, BasicTy.isMatrix, BasicTy.isScalar]
    simp [BinaryOp.rule, arithmeticRule, hr, hc, hm] at h

theorem relation_meets {op : BinaryOp} {a b : Scalar} (h : a.kind = b.kind)
    (hnum : a.kind.isNumeric = true) : (relation op a b).Meets False fun _ => True := by
  simp [relation, order?, ← h, hnum]

theorem ofComponents_value_meets {b : BasicTy} {k : ScalarKind} {cs : List Scalar} {excuse : Prop}
    (hk : b.componentKind? = some k) (hlen : cs.length = b.componentCount)
    (hkind : ∀ s ∈ cs, s.kind = k) :
    (Outcome.ofExcept (Value.ofComponents b cs)).Meets excuse fun v => v.Fits (.basic b) := by
  obtain ⟨v, hv, hfits⟩ := Value.ofComponents_fits hk hlen hkind
  simpa [hv] using hfits

theorem binaryComponents_typed {op : BinaryOp} {a b : Value} {l r t : BasicTy}
    (hop : isComponentwise op = true) (hp : ¬ (op = .mul ∧ isProduct l r = true))
    (ha : a.Fits (.basic l)) (hb : b.Fits (.basic r)) (hrule : op.rule l r = some t) :
    ∃ k, t.componentKind? = some k ∧
      (binaryComponents op a.components b.components).Meets (ZeroDivisor op b.components) fun cs =>
        cs.length = t.componentCount ∧ ∀ s ∈ cs, s.kind = k := by
  obtain ⟨ja, hja, hla, hka⟩ := ha.components
  obtain ⟨jb, hjb, hlb, hkb⟩ := hb.components
  by_cases hs : op = .shl ∨ op = .shr
  · have hshift : shiftRule l r = some t := by
      rcases hs with rfl | rfl <;> exact hrule
    obtain ⟨ka, kb, hia, hib, lanes⟩ := shiftRule_lanes hshift
    obtain rfl : ja = ka := Option.some.inj (hja.symm.trans lanes.leftKind)
    obtain rfl : jb = kb := Option.some.inj (hjb.symm.trans lanes.rightKind)
    refine ⟨ja, lanes.resultKind, binaryComponents_meets lanes hla hlb fun x hx y hy => ?_⟩
    have hstep : binaryScalar op x y = shift op x y := by
      rcases hs with rfl | rfl <;> rfl
    rw [hstep]
    refine (shift_meets ?_ ?_).mono False.elim fun s hk => hk.trans (hka x hx)
    · rw [hka x hx]; exact hia
    · rw [hkb y hy]; exact hib
  · obtain ⟨k, harith, lanes⟩ := rule_arithmetical hop (not_or.mp hs) hp hrule
    obtain rfl : ja = k := Option.some.inj (hja.symm.trans lanes.leftKind)
    obtain rfl : jb = ja := Option.some.inj (hjb.symm.trans lanes.rightKind)
    refine ⟨jb, lanes.resultKind, binaryComponents_meets lanes hla hlb fun x hx y hy => ?_⟩
    refine (binaryScalar_meets_arithmetical harith (hka x hx) (hkb y hy)).mono ?_ fun _ h => h
    exact fun hz => hz.mono (by simpa using hy)

theorem binaryBasic_componentwise {op : BinaryOp} (hop : isComponentwise op = true) (a b : Value)
    (l r t : BasicTy) : binaryBasic op a l b r t = (do
      let cs ←
        if op = .mul && isProduct l r then product a l b r
        else binaryComponents op a.components b.components
      .ofExcept (Value.ofComponents t cs)) := by
  cases op <;> first | rfl | simp [isComponentwise] at hop

/-- The operators that work on components, also those of matrices. -/
theorem componentwise_meets {op : BinaryOp} {a b : Value} {l r t : BasicTy}
    (hop : isComponentwise op = true) (ha : a.Fits (.basic l)) (hb : b.Fits (.basic r))
    (hrule : op.rule l r = some t) :
    (binaryBasic op a l b r t).Meets (ZeroDivisor op b.components) fun v => v.Fits (.basic t) := by
  rw [binaryBasic_componentwise hop]
  by_cases hp : op = .mul ∧ isProduct l r = true
  · obtain ⟨rfl, hp⟩ := hp
    simp only [hp, decide_true, Bool.and_self, if_true]
    have hproduct := productRule_of_rule hp hrule
    refine ((product_meets hproduct ha hb).mono False.elim fun _ h => h).bind fun cs hcs => ?_
    exact ofComponents_value_meets hcs.1 hcs.2.1 hcs.2.2
  · have hif : (op = .mul && isProduct l r) = false := by
      simpa using fun hm => Bool.eq_false_iff.mpr fun hq => hp ⟨hm, hq⟩
    simp only [hif, Bool.false_eq_true, if_false]
    obtain ⟨k, hk, hcomponents⟩ := binaryComponents_typed hop hp ha hb hrule
    exact hcomponents.bind fun cs hcs => ofComponents_value_meets hk hcs.1 hcs.2

theorem binaryBasic_meets {op : BinaryOp} {a b : Value} {l r t : BasicTy}
    (ha : a.Fits (.basic l)) (hb : b.Fits (.basic r)) (hrule : op.rule l r = some t) :
    (binaryBasic op a l b r t).Meets (ZeroDivisor op b.components) fun v => v.Fits (.basic t) := by
  by_cases hop : isComponentwise op = true
  · exact componentwise_meets hop ha hb hrule
  -- What is left compares: equality by whole values, order and logic by scalars.
  have hequality : equalityRule l r = some t → t = .scalar .bool := by
    intro h
    simp only [equalityRule, Option.ite_none_right_eq_some, Option.some.injEq] at h
    exact h.2.symm
  have hrelational : relationalRule l r = some t → ∃ x y, a = .scalar x ∧ b = .scalar y ∧
      x.kind = y.kind ∧ x.kind.isNumeric = true ∧ t = .scalar .bool := by
    intro h
    unfold relationalRule at h
    split at h
    · obtain ⟨⟨rfl, hnum⟩, rfl⟩ : (_ ∧ _) ∧ _ := by simpa using h
      obtain ⟨x, rfl, hx⟩ := Value.fits_scalar_iff.mp ha
      obtain ⟨y, rfl, hy⟩ := Value.fits_scalar_iff.mp hb
      exact ⟨x, y, rfl, rfl, hx.trans hy.symm, hx ▸ hnum, rfl⟩
    · simp at h
  have hlogical : logicalRule l r = some t → ∃ x y, a = .scalar x ∧ b = .scalar y ∧
      t = .scalar .bool := by
    intro h
    unfold logicalRule at h
    split at h
    · obtain rfl := Option.some.inj h
      obtain ⟨x, rfl, -⟩ := Value.fits_scalar_iff.mp ha
      obtain ⟨y, rfl, -⟩ := Value.fits_scalar_iff.mp hb
      exact ⟨x, y, rfl, rfl, rfl⟩
    · simp at h
  cases op with
  | eq | ne =>
    obtain rfl := hequality hrule
    simp [binaryBasic, Value.Fits]
  | lt | le | gt | ge =>
    obtain ⟨x, y, rfl, rfl, hk, hnum, rfl⟩ := hrelational hrule
    simp only [binaryBasic]
    refine ((relation_meets hk hnum).mono False.elim fun _ h => h).bind fun _ _ => ?_
    simp [Value.Fits]
  | logAnd | logXor | logOr =>
    obtain ⟨x, y, rfl, rfl, rfl⟩ := hlogical hrule
    simp [binaryBasic, Value.scalar?, Value.Fits]
  | _ => exact absurd rfl hop

theorem binary_meets {op : BinaryOp} {a b : Constant} {l r t : BasicTy} (ha : Has (.basic l) a)
    (hb : Has (.basic r) b) (hrule : op.rule l r = some t) :
    (binary op a b).Meets (ZeroDivisor op b.value.components) (Has (.basic t)) := by
  obtain ⟨_, v⟩ := a
  obtain ⟨_, w⟩ := b
  obtain ⟨rfl, hv⟩ := ha
  obtain ⟨rfl, hw⟩ := hb
  simp only [binary, Ty.basic?, hrule, Outcome.ofOption_some, Outcome.value_bind]
  exact (binaryBasic_meets hv hw hrule).bind fun u hu => ⟨rfl, hu⟩

theorem eq_basic_of_basic? {t : Ty} {b : BasicTy} (h : t.basic? = some b) : t = .basic b := by
  cases t <;> simp_all [Ty.basic?]

theorem unary_typed {op : UnaryOp} {c : Constant} (hc : c.WellShaped) (span : Span) :
    (unary op c).Meets ((Check.unaryTy op c.ty span).value = none) fun r =>
      (Check.unaryTy op c.ty span).value = some r.ty ∧ r.WellShaped := by
  cases hb : c.ty.basic? with
  | none => simp [unary, hb, Check.unaryTy, Check.untyped]
  | some b =>
    cases hr : op.rule b with
    | none => simp [unary, hb, hr, Check.unaryTy, Check.untyped]
    | some t =>
      have hty : (Check.unaryTy op c.ty span).value = some (.basic t) := by
        simp only [Check.unaryTy, hb, hr, Option.bind_some]
        rfl
      rw [hty]
      refine (unary_meets ⟨eq_basic_of_basic? hb, hc⟩ hr).mono False.elim fun r h => ?_
      exact ⟨congrArg some h.1.symm, h.2⟩

theorem compareWhole_typed {op : BinaryOp} {a b : Constant} (span : Span)
    (hbasic : ∀ l r, a.ty.basic? = some l → b.ty.basic? ≠ some r) :
    (compareWhole op a b).Meets ((Check.binaryTy op a.ty b.ty span).value = none) fun r =>
      (Check.binaryTy op a.ty b.ty span).value = some r.ty ∧ r.WellShaped := by
  unfold compareWhole Check.binaryTy
  by_cases hwhole : (op.isEquality && a.ty = b.ty && !a.ty.isOpaque) = true
  · have hkind : (a.ty.isArray || a.ty.isStruct) = true := by
      simp only [Bool.and_eq_true, decide_eq_true_eq] at hwhole
      cases ht : a.ty with
      | basic l => exact absurd (by rw [← hwhole.1.2, ht]; rfl) (hbasic l l (by rw [ht]; rfl))
      | array element size => rfl
      | struct id tag fields => rfl
    have htyped : (op.isEquality && a.ty = b.ty && (a.ty.isArray || a.ty.isStruct)
        && !a.ty.isOpaque) = true := by
      rw [Bool.and_eq_true] at hwhole ⊢
      exact ⟨Bool.and_eq_true _ _ ▸ ⟨hwhole.1, hkind⟩, hwhole.2⟩
    rw [if_pos hwhole, if_pos htyped]
    exact ⟨rfl, Value.fits_ofScalar _⟩
  · have huntyped : ¬ (op.isEquality && a.ty = b.ty && (a.ty.isArray || a.ty.isStruct)
        && !a.ty.isOpaque) = true := by
      intro h
      simp only [Bool.and_eq_true] at h hwhole
      exact hwhole ⟨h.1.1, h.2⟩
    rw [if_neg hwhole, if_neg huntyped]
    split
    · rename_i l r hl hr
      exact absurd hr (hbasic l r hl)
    · rfl

/-- A binary operator has a value where it has a type, unless an integer is divided by zero. -/
theorem binary_typed {op : BinaryOp} {a b : Constant} (ha : a.WellShaped) (hb : b.WellShaped)
    (span : Span) :
    (binary op a b).Meets ((Check.binaryTy op a.ty b.ty span).value = none ∨
        ZeroDivisor op b.value.components) fun r =>
      (Check.binaryTy op a.ty b.ty span).value = some r.ty ∧ r.WellShaped := by
  by_cases hbasic : ∃ l r, a.ty.basic? = some l ∧ b.ty.basic? = some r
  · obtain ⟨l, r, hl, hr⟩ := hbasic
    replace hl := eq_basic_of_basic? hl
    replace hr := eq_basic_of_basic? hr
    cases hrule : op.rule l r with
    | none => simp [binary, hl, hr, Ty.basic?, hrule, Check.binaryTy, Check.untyped, Ty.isArray,
        Ty.isStruct]
    | some t =>
      have hty : (Check.binaryTy op a.ty b.ty span).value = some (.basic t) := by
        simp only [Check.binaryTy, hl, hr, Ty.isArray, Ty.isStruct, Bool.or_false, Bool.and_false,
          Bool.false_and, Bool.false_eq_true, if_false, Ty.basic?, hrule]
        rfl
      rw [hty]
      refine (binary_meets ⟨hl, ha⟩ ⟨hr, hb⟩ hrule).mono .inr fun r h => ?_
      exact ⟨congrArg some h.1.symm, h.2⟩
  · have hnot : ∀ l r, a.ty.basic? = some l → b.ty.basic? ≠ some r :=
      fun l r hl hr => hbasic ⟨l, r, hl, hr⟩
    have heq : binary op a b = compareWhole op a b := by
      unfold binary
      split
      · rename_i l r hl hr
        exact absurd hr (hnot l r hl)
      · rfl
    rw [heq]
    exact (compareWhole_typed span hnot).mono .inl fun _ h => h

end Fold

end Shader
