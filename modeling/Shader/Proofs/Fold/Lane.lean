import Shader.Proofs.Fold.Construct

/-! Values lane by lane. A componentwise operator pairs the components of its operands, where a
single component goes with every component of the other operand; each component of the result is
the value of the operator on one such pair. Likewise each component of a constructed scalar or
vector is the conversion of one component of the arguments. -/

namespace Shader

theorem Outcome.getElem?_of_mapM {α β : Type} {f : α → Outcome β} {as : List α} {bs : List β}
    (h : as.mapM f = value bs) {i : Nat} {a : α} (ha : as[i]? = some a) :
    ∃ b, bs[i]? = some b ∧ f a = value b := by
  induction as generalizing bs i with
  | nil => simp at ha
  | cons c as ih =>
    rw [List.mapM_cons] at h
    obtain ⟨d, hd, h⟩ := bind_eq_value h
    obtain ⟨ds, hds, h⟩ := bind_eq_value h
    cases h
    cases i with
    | zero => exact ⟨d, rfl, by rw [← hd, Option.some.inj ha]⟩
    | succ i => exact ih hds ha

theorem Value.components_ofComponents {b : BasicTy} {k : ScalarKind} {cs : List Scalar} {v : Value}
    (hk : b.componentKind? = some k) (hlen : cs.length = b.componentCount)
    (hkind : ∀ s ∈ cs, s.kind = k) (h : ofComponents b cs = .ok v) : v.components = cs := by
  cases b with
  | void => simp [BasicTy.componentKind?] at hk
  | sampler s => simp [BasicTy.componentKind?] at hk
  | scalar k' =>
    obtain ⟨s, rfl⟩ := List.length_eq_one_iff.mp hlen
    cases h
    rfl
  | vector k' n =>
    cases h
    rfl
  | matrix c r =>
    obtain rfl : ScalarKind.float = k := Option.some.inj hk
    cases h
    have hfloat : ∀ s ∈ cs, Scalar.float s.toBinary32 = s := by
      intro s hs
      obtain ⟨x, rfl⟩ := Scalar.kind_eq_float.mp (hkind s hs)
      rfl
    rw [components, List.map_map]
    exact (List.map_congr_left hfloat).trans (List.map_id cs)

namespace Fold

/-- The component that an operand brings to lane `i`: its only one, or that at `i`. -/
def lane (cs : List Scalar) (i : Nat) : Option Scalar :=
  cs[if cs.length = 1 then 0 else i]?

variable {as bs cs : List Scalar} {i : Nat}

theorem Has.kind_of_lane {a : Constant} {b : BasicTy} {k : ScalarKind} {s : Scalar}
    (ha : Has (.basic b) a) (hk : b.componentKind? = some k)
    (h : lane a.value.components i = some s) : s.kind = k := by
  obtain ⟨ty, v⟩ := a
  obtain ⟨rfl, hv⟩ := ha
  obtain ⟨j, hj, -, hkind⟩ := Value.Fits.components hv
  rw [hkind s (List.mem_of_getElem? h)]
  exact Option.some.inj (hj.symm.trans hk)

theorem lane_of_broadcast {s : Scalar} (h : broadcast cs i = .value s) : lane cs i = some s := by
  unfold broadcast at h
  split at h
  · cases h
    rfl
  · rename_i hmany
    have hlen : cs.length ≠ 1 := fun hone => by
      obtain ⟨c, rfl⟩ := List.length_eq_one_iff.mp hone
      exact hmany c rfl
    rw [lane, if_neg hlen]
    cases hc : cs[i]? with
    | none => simp [component, hc, Outcome.ofExcept] at h
    | some c => simpa [component, hc] using h

/-- Each component of the result comes from the components of the operands in its lane. -/
theorem binaryComponents_lane {op : BinaryOp} (h : binaryComponents op as bs = .value cs)
    (hi : i < max as.length bs.length) :
    ∃ x y z, lane as i = some x ∧ lane bs i = some y ∧ cs[i]? = some z ∧
      binaryScalar op x y = .value z := by
  obtain ⟨z, hz, hlane⟩ := Outcome.getElem?_of_mapM h (List.getElem?_range hi)
  obtain ⟨x, hx, hlane⟩ := Outcome.bind_eq_value hlane
  obtain ⟨y, hy, hlane⟩ := Outcome.bind_eq_value hlane
  exact ⟨x, y, z, lane_of_broadcast hx, lane_of_broadcast hy, hz, hlane⟩

theorem count_eq_max {op : BinaryOp} {l r t : BasicTy} (hop : isComponentwise op = true)
    (hp : ¬ (op = .mul ∧ isProduct l r = true)) (hrule : op.rule l r = some t) :
    t.componentCount = max l.componentCount r.componentCount := by
  by_cases hs : op = .shl ∨ op = .shr
  · have hshift : shiftRule l r = some t := by
      rcases hs with rfl | rfl <;> exact hrule
    obtain ⟨_, _, _, _, lanes⟩ := shiftRule_lanes hshift
    exact lanes.count
  · obtain ⟨_, _, lanes⟩ := rule_arithmetical hop (not_or.mp hs) hp hrule
    exact lanes.count

theorem binary_lane {op : BinaryOp} {a b c : Constant} {l r t : BasicTy}
    (hop : isComponentwise op = true) (hp : ¬ (op = .mul ∧ isProduct l r = true))
    (ha : Has (.basic l) a) (hb : Has (.basic r) b) (hrule : op.rule l r = some t)
    (hc : binary op a b = .value c) (hi : i < t.componentCount) :
    ∃ x y z, lane a.value.components i = some x ∧ lane b.value.components i = some y ∧
      c.value.components[i]? = some z ∧ binaryScalar op x y = .value z := by
  obtain ⟨_, v⟩ := a
  obtain ⟨_, w⟩ := b
  obtain ⟨rfl, hv⟩ := ha
  obtain ⟨rfl, hw⟩ := hb
  have hif : (op = .mul && isProduct l r) = false := by
    simpa using fun hm => Bool.eq_false_iff.mpr fun hq => hp ⟨hm, hq⟩
  obtain ⟨k, hk, htyped⟩ := binaryComponents_typed hop hp hv hw hrule
  simp only [binary, Ty.basic?, hrule, Outcome.ofOption_some, Outcome.value_bind,
    binaryBasic_componentwise hop, hif, Bool.false_eq_true, if_false] at hc
  obtain ⟨u, hu, hc⟩ := Outcome.bind_eq_value hc
  obtain ⟨cs, hcs, hu⟩ := Outcome.bind_eq_value hu
  obtain ⟨hlen, hkind⟩ := htyped.of_value hcs
  obtain ⟨u', hu', -⟩ := Value.ofComponents_fits hk hlen hkind
  obtain rfl : u' = u := by simpa [hu'] using hu
  cases hc
  rw [Value.components_ofComponents hk hlen hkind hu']
  obtain ⟨_, _, hla, _⟩ := Value.Fits.components hv
  obtain ⟨_, _, hlb, _⟩ := Value.Fits.components hw
  exact binaryComponents_lane hcs (by rwa [hla, hlb, ← count_eq_max hop hp hrule])

variable {kind : ScalarKind} {args : List Constant}

theorem flatten_eq_map (h : flatten kind args = some cs) :
    cs = (args.flatMap fun a => a.value.components).map fun s => s.convert kind := by
  unfold flatten at h
  split at h
  · cases h
  · rw [List.map_flatMap]
    exact (Option.some.inj h).symm

theorem scalar_lane {v : Value} (h : constructValue (.basic (.scalar kind)) args = .value v) :
    ∃ s, lane (args.flatMap fun a => a.value.components) 0 = some s ∧
      v = .scalar (s.convert kind) := by
  simp only [constructValue] at h
  split at h
  · rename_i arg
    obtain ⟨cs, hcs, h⟩ := Outcome.bind_eq_value h
    cases hf : flatten kind [arg] with
    | none => simp [hf] at hcs
    | some ds =>
      obtain rfl : ds = cs := by simpa [hf] using hcs
      have hmap := flatten_eq_map hf
      split at h
      · rename_i t ts
        obtain ⟨s, ss, hsupplied, rfl, -⟩ := List.map_eq_cons_iff.mp hmap.symm
        refine ⟨s, by simp [lane, hsupplied], ?_⟩
        simpa [eq_comm] using h
      · cases h
  · cases h

theorem vector_lane {n : Nat} {v : Value} (h : vectorOf kind n args = some v) (hi : i < n) :
    ∃ s, lane (args.flatMap fun a => a.value.components) i = some s ∧
      v.components[i]? = some (s.convert kind) := by
  cases hf : flatten kind args with
  | none => simp [vectorOf, hf] at h
  | some cs =>
    have hmap := flatten_eq_map hf
    simp only [vectorOf, hf, Option.bind_eq_bind, Option.bind_some] at h
    split at h
    · rename_i t
      obtain ⟨s, hsupplied, rfl⟩ := List.map_eq_singleton_iff.mp hmap.symm
      cases h
      exact ⟨s, by simp [lane, hsupplied], by simp [Value.components, hi]⟩
    · rename_i hmany
      split at h
      · cases h
      · rename_i hlen
        cases h
        have hone : cs.length ≠ 1 := fun hone => by
          obtain ⟨t, rfl⟩ := List.length_eq_one_iff.mp hone
          exact hmany t rfl
        obtain ⟨t, ht⟩ : ∃ t, cs[i]? = some t := ⟨_, List.getElem?_eq_getElem (by omega)⟩
        have hlane := ht
        rw [hmap, List.getElem?_map] at hlane
        obtain ⟨s, hs, rfl⟩ := Option.map_eq_some_iff.mp hlane
        refine ⟨s, ?_, ?_⟩
        · rw [lane, if_neg (by simpa [hmap] using hone), hs]
        · rw [Value.components, List.getElem?_take_of_lt hi, ht]

theorem construct_lane {b : BasicTy} {c : Constant} (hk : b.componentKind? = some kind)
    (hb : b.isMatrix = false) (h : construct (.basic b) args = .value c)
    (hi : i < b.componentCount) :
    ∃ s, lane (args.flatMap fun a => a.value.components) i = some s ∧
      c.value.components[i]? = some (s.convert kind) := by
  obtain ⟨v, hv, h⟩ := Outcome.bind_eq_value h
  cases h
  cases b with
  | void => simp [BasicTy.componentKind?] at hk
  | sampler s => simp [BasicTy.componentKind?] at hk
  | matrix c r => simp [BasicTy.isMatrix] at hb
  | scalar k =>
    obtain rfl : k = kind := Option.some.inj hk
    obtain rfl : i = 0 := Nat.lt_one_iff.mp hi
    obtain ⟨s, hs, rfl⟩ := scalar_lane hv
    exact ⟨s, hs, rfl⟩
  | vector k n =>
    obtain rfl : k = kind := Option.some.inj hk
    cases hvec : vectorOf k n.toNat args with
    | none => simp [constructValue, hvec] at hv
    | some w =>
      obtain rfl : w = v := by simpa [constructValue, hvec] using hv
      exact vector_lane hvec hi

end Fold

end Shader
