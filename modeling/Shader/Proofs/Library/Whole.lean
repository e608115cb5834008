import Shader.Library.Whole
import Shader.Proofs.Outcome
import Shader.Proofs.Shape

/-! Functions of whole vectors and matrices. On arguments of the types that they are declared for
they are total. -/

namespace Shader

theorem Grid.length_toList {K : Type} (cols rows : Nat) (m : Grid K) :
    (m.toList cols rows).length = cols * rows := by
  simp [Grid.toList, List.length_flatMap, List.map_const']

def BasicTy.isFloats : BasicTy → Bool
  | scalar .float | vector .float _ => true
  | _ => false

/-- The type of what a function gives for arguments of the given types. -/
def WholeFunction.resultTy? : WholeFunction → List BasicTy → Option BasicTy
  | length, [_] | distance, [_, _] | dot, [_, _] => some (.scalar .float)
  | cross, [.vector .float .three, .vector .float .three] => some (.vector .float .three)
  | normalize, [t] | dFdx, [t] | dFdy, [t] | fwidth, [t] | faceforward, [t, _, _] =>
    if t.isFloats then some t else none
  | reflect, [t, u] | refract, [t, u, .scalar _] => if t.isFloats && t = u then some t else none
  | matrixCompMult, [.matrix c r, .matrix c' r'] =>
    if c = c' && r = r' then some (.matrix c r) else none
  | outerProduct, [.vector _ c, .vector _ r] => some (.matrix r c)
  | transpose, [.matrix c r] => some (.matrix r c)
  | determinant, [.matrix c r] => if c = r then some (.scalar .float) else none
  | inverse, [.matrix c r] => if c = r then some (.matrix c r) else none
  | any, [.vector _ _] | all, [.vector _ _] => some (.scalar .bool)
  | not, [.vector .bool n] => some (.vector .bool n)
  | packSnorm2x16, [.vector _ .two] | packUnorm2x16, [.vector _ .two]
  | packHalf2x16, [.vector _ .two] => some (.scalar .uint)
  | unpackSnorm2x16, [.scalar .uint] | unpackUnorm2x16, [.scalar .uint]
  | unpackHalf2x16, [.scalar .uint] => some (.vector .float .two)
  | _, _ => none

namespace Library

theorem length_floats (v : Value) : (floats v).length = v.components.length := by
  simp [floats]

theorem length_widened (v : Value) : (widened v).length = v.components.length := by
  simp [widened, length_floats]

theorem entries_meets {cols rows : Nat} {data : List Binary32} (h : data.length = cols * rows) :
    (entries cols rows data).Meets False fun _ => True := by
  simp [entries, h]

theorem grid_meets {cols rows : Nat} {data : List Binary32} (h : data.length = cols * rows) :
    (grid cols rows data).Meets False fun _ => True :=
  (entries_meets h).bind fun _ _ => trivial

theorem widenedGrid_meets {cols rows : Nat} {data : List Binary32}
    (h : data.length = cols * rows) : (widenedGrid cols rows data).Meets False fun _ => True :=
  (grid_meets h).bind fun _ _ => trivial

theorem kind_of_mem_roundedAll {operands : List Binary32} {xs : List Float} :
    ∀ s ∈ roundedAll operands xs, s.kind = .float := by
  simp only [roundedAll, List.mem_map]
  rintro s ⟨x, _, rfl⟩
  rfl

theorem shaped_meets {v : Value} {t : BasicTy} {rs : List Scalar} (ht : t.isFloats = true)
    (hv : v.Fits (.basic t)) (hlen : rs.length = v.components.length)
    (hkind : ∀ s ∈ rs, s.kind = .float) :
    (shaped v rs).Meets False fun w => w.Fits (.basic t) := by
  cases t with
  | scalar k =>
    obtain ⟨s, rfl, rfl⟩ := Value.fits_scalar_iff.mp hv
    obtain ⟨r, rfl⟩ := List.length_eq_one_iff.mp hlen
    have hs : s.kind = .float := by
      cases s <;> simp_all [BasicTy.isFloats]
    exact Value.fits_scalar_iff.mpr ⟨r, rfl, by rw [hs]; exact hkind r (by simp)⟩
  | vector k n =>
    obtain ⟨cs, rfl, hcs, -⟩ := Value.fits_vector_iff.mp hv
    obtain rfl : k = .float := by
      cases k <;> simp_all [BasicTy.isFloats]
    exact Value.fits_vector_iff.mpr ⟨rs, rfl, hlen.trans hcs, hkind⟩
  | void => simp [BasicTy.isFloats] at ht
  | matrix c r => simp [BasicTy.isFloats] at ht
  | sampler s => simp [BasicTy.isFloats] at ht

theorem normalize_meets {v : Value} {t : BasicTy} (ht : t.isFloats = true)
    (hv : v.Fits (.basic t)) : (whole .normalize [v]).Meets False fun w => w.Fits (.basic t) := by
  refine shaped_meets ht hv ?_ kind_of_mem_roundedAll
  simp [roundedAll, length_widened]

theorem derivative_meets {v : Value} {t : BasicTy} (ht : t.isFloats = true)
    (hv : v.Fits (.basic t)) :
    (shaped v (v.components.map fun _ => .float .zero)).Meets False fun w => w.Fits (.basic t) := by
  refine shaped_meets ht hv (List.length_map _) ?_
  simp only [List.mem_map]
  rintro s ⟨_, _, rfl⟩
  rfl

theorem faceforward_meets {n i reference : Value} {t : BasicTy} (ht : t.isFloats = true)
    (hn : n.Fits (.basic t)) :
    (whole .faceforward [n, i, reference]).Meets False fun w => w.Fits (.basic t) := by
  have hmap : ∀ g : Binary32 → Binary32,
      (shaped n ((floats n).map fun x => .float (g x))).Meets False fun w => w.Fits (.basic t) := by
    intro g
    refine shaped_meets ht hn (by simp [length_floats]) ?_
    simp only [List.mem_map]
    rintro s ⟨_, _, rfl⟩
    rfl
  simp only [whole]
  split
  · exact hmap Binary32.quiet
  · exact hmap fun x => x.quiet.neg

theorem length_components_eq {v w : Value} {t : BasicTy} (hv : v.Fits (.basic t))
    (hw : w.Fits (.basic t)) : w.components.length = v.components.length := by
  obtain ⟨-, -, hlen, -⟩ := hv.components
  obtain ⟨-, -, hlen', -⟩ := hw.components
  rw [hlen, hlen']

theorem reflect_meets {i n : Value} {t : BasicTy} (ht : t.isFloats = true)
    (hi : i.Fits (.basic t)) (hn : n.Fits (.basic t)) :
    (whole .reflect [i, n]).Meets False fun w => w.Fits (.basic t) := by
  refine shaped_meets ht hi ?_ kind_of_mem_roundedAll
  simp [roundedAll, reflect, length_widened, length_components_eq hi hn]

theorem length_refract (i n : List Float) (eta : Float) (h : n.length = i.length) :
    (refract i n eta).length = i.length := by
  unfold refract
  dsimp only
  split <;> simp [h]

theorem refract_meets {i n : Value} {s : Scalar} {t : BasicTy} (ht : t.isFloats = true)
    (hi : i.Fits (.basic t)) (hn : n.Fits (.basic t)) :
    (whole .refract [i, n, .scalar s]).Meets False fun w => w.Fits (.basic t) := by
  refine shaped_meets ht hi ?_ kind_of_mem_roundedAll
  have hlen : (widened n).length = (widened i).length := by
    simp only [length_widened, length_components_eq hi hn]
  simp [roundedAll, length_refract _ _ _ hlen, length_widened]

theorem cross_meets {a b : Value} (ha : a.Fits (.basic (.vector .float .three)))
    (hb : b.Fits (.basic (.vector .float .three))) :
    (whole .cross [a, b]).Meets False fun w => w.Fits (.basic (.vector .float .three)) := by
  obtain ⟨as, rfl, has, -⟩ := Value.fits_vector_iff.mp ha
  obtain ⟨bs, rfl, hbs, -⟩ := Value.fits_vector_iff.mp hb
  match as, bs, has, hbs with
  | [_, _, _], [_, _, _], _, _ => exact shaped_meets rfl ha rfl kind_of_mem_roundedAll

theorem outerProduct_meets {a b : Value} {j k : ScalarKind} {c r : Dim}
    (ha : a.Fits (.basic (.vector j c))) (hb : b.Fits (.basic (.vector k r))) :
    (whole .outerProduct [a, b]).Meets False fun w => w.Fits (.basic (.matrix r c)) := by
  obtain ⟨as, rfl, has, -⟩ := Value.fits_vector_iff.mp ha
  obtain ⟨bs, rfl, hbs, -⟩ := Value.fits_vector_iff.mp hb
  simp only [whole, Outcome.meets_value, Value.Fits, Value.components]
  refine ⟨hbs, has, ?_⟩
  simp only [List.length_flatMap, List.length_map, List.map_const', List.sum_replicate_nat,
    length_floats, Value.components]

theorem transpose_meets {v : Value} {c r : Dim} (hv : v.Fits (.basic (.matrix c r))) :
    (whole .transpose [v]).Meets False fun w => w.Fits (.basic (.matrix r c)) := by
  obtain ⟨data, rfl, hlen⟩ := Value.fits_matrix_iff.mp hv
  refine (grid_meets hlen).bind fun m _ => ?_
  exact Value.fits_matrix_iff.mpr ⟨_, rfl, Grid.length_toList _ _ _⟩

theorem inverse_meets {v : Value} {c : Dim} (hv : v.Fits (.basic (.matrix c c))) :
    (whole .inverse [v]).Meets False fun w => w.Fits (.basic (.matrix c c)) := by
  obtain ⟨data, rfl, hlen⟩ := Value.fits_matrix_iff.mp hv
  simp only [whole, if_true]
  refine (entries_meets hlen).bind fun m _ => ?_
  exact Value.fits_matrix_iff.mpr
    ⟨_, rfl, by rw [List.length_map]; exact Grid.length_toList _ _ _⟩

theorem determinant_meets {v : Value} {c : Dim} (hv : v.Fits (.basic (.matrix c c))) :
    (whole .determinant [v]).Meets False fun w => w.Fits (.basic (.scalar .float)) := by
  obtain ⟨data, rfl, hlen⟩ := Value.fits_matrix_iff.mp hv
  simp only [whole, if_true]
  refine (entries_meets hlen).bind fun m _ => ?_
  exact Value.fits_scalar_iff.mpr ⟨_, rfl, rfl⟩

theorem matrixCompMult_meets {a b : Value} {c r : Dim} (ha : a.Fits (.basic (.matrix c r)))
    (hb : b.Fits (.basic (.matrix c r))) :
    (whole .matrixCompMult [a, b]).Meets False fun w => w.Fits (.basic (.matrix c r)) := by
  obtain ⟨as, rfl, has⟩ := Value.fits_matrix_iff.mp ha
  obtain ⟨bs, rfl, hbs⟩ := Value.fits_matrix_iff.mp hb
  exact Value.fits_matrix_iff.mpr ⟨_, rfl, by simp [has, hbs]⟩

theorem pack_meets (half : Binary32 → UInt16) {v : Value} {k : ScalarKind}
    (hv : v.Fits (.basic (.vector k .two))) :
    (pack half v).Meets False fun w => w.Fits (.basic (.scalar .uint)) := by
  obtain ⟨cs, rfl, hlen, -⟩ := Value.fits_vector_iff.mp hv
  match cs, hlen with
  | [_, _], _ => exact Value.fits_scalar_iff.mpr ⟨_, rfl, rfl⟩

theorem unpack_meets (number : UInt16 → Binary32) {v : Value}
    (hv : v.Fits (.basic (.scalar .uint))) :
    (unpack number v).Meets False fun w => w.Fits (.basic (.vector .float .two)) := by
  obtain ⟨s, rfl, hs⟩ := Value.fits_scalar_iff.mp hv
  obtain ⟨u, rfl⟩ := Scalar.kind_eq_uint.mp hs
  exact Value.fits_vector_iff.mpr ⟨_, rfl, rfl, by simp⟩

theorem whole_meets {f : WholeFunction} {args : List Value} {tys : List BasicTy} {t : BasicTy}
    (hargs : Value.AllFit args tys) (ht : f.resultTy? tys = some t) :
    (whole f args).Meets False fun v => v.Fits (.basic t) := by
  unfold WholeFunction.resultTy? at ht
  split at ht
  · -- length
    obtain ⟨v, rfl, hv⟩ := Value.allFit_one hargs
    cases ht
    exact Value.fits_scalar_iff.mpr ⟨_, rfl, rfl⟩
  · -- distance
    obtain ⟨v, w, rfl, hv, hw⟩ := Value.allFit_two hargs
    cases ht
    exact Value.fits_scalar_iff.mpr ⟨_, rfl, rfl⟩
  · -- dot
    obtain ⟨v, w, rfl, hv, hw⟩ := Value.allFit_two hargs
    cases ht
    exact Value.fits_scalar_iff.mpr ⟨_, rfl, rfl⟩
  · -- cross
    obtain ⟨v, w, rfl, hv, hw⟩ := Value.allFit_two hargs
    cases ht
    exact cross_meets hv hw
  · -- normalize
    obtain ⟨v, rfl, hv⟩ := Value.allFit_one hargs
    obtain ⟨hfloats, rfl⟩ : _ ∧ _ := by simpa using ht
    exact normalize_meets hfloats hv
  · -- dFdx
    obtain ⟨v, rfl, hv⟩ := Value.allFit_one hargs
    obtain ⟨hfloats, rfl⟩ : _ ∧ _ := by simpa using ht
    exact derivative_meets hfloats hv
  · -- dFdy
    obtain ⟨v, rfl, hv⟩ := Value.allFit_one hargs
    obtain ⟨hfloats, rfl⟩ : _ ∧ _ := by simpa using ht
    exact derivative_meets hfloats hv
  · -- fwidth
    obtain ⟨v, rfl, hv⟩ := Value.allFit_one hargs
    obtain ⟨hfloats, rfl⟩ : _ ∧ _ := by simpa using ht
    exact derivative_meets hfloats hv
  · -- faceforward
    obtain ⟨u, v, w, rfl, hu, hv, hw⟩ := Value.allFit_three hargs
    obtain ⟨hfloats, rfl⟩ : _ ∧ _ := by simpa using ht
    exact faceforward_meets hfloats hu
  · -- reflect
    obtain ⟨v, w, rfl, hv, hw⟩ := Value.allFit_two hargs
    obtain ⟨⟨hfloats, rfl⟩, rfl⟩ : (_ ∧ _) ∧ _ := by simpa using ht
    exact reflect_meets hfloats hv hw
  · -- refract
    obtain ⟨u, v, w, rfl, hu, hv, hw⟩ := Value.allFit_three hargs
    obtain ⟨⟨hfloats, rfl⟩, rfl⟩ : (_ ∧ _) ∧ _ := by simpa using ht
    obtain ⟨s, rfl, -⟩ := Value.fits_scalar_iff.mp hw
    exact refract_meets hfloats hu hv
  · -- matrixCompMult
    obtain ⟨v, w, rfl, hv, hw⟩ := Value.allFit_two hargs
    obtain ⟨⟨rfl, rfl⟩, rfl⟩ : (_ ∧ _) ∧ _ := by simpa using ht
    exact matrixCompMult_meets hv hw
  · -- outerProduct
    obtain ⟨v, w, rfl, hv, hw⟩ := Value.allFit_two hargs
    cases ht
    exact outerProduct_meets hv hw
  · -- transpose
    obtain ⟨v, rfl, hv⟩ := Value.allFit_one hargs
    cases ht
    exact transpose_meets hv
  · -- determinant
    obtain ⟨v, rfl, hv⟩ := Value.allFit_one hargs
    obtain ⟨rfl, rfl⟩ : _ ∧ _ := by simpa using ht
    exact determinant_meets hv
  · -- inverse
    obtain ⟨v, rfl, hv⟩ := Value.allFit_one hargs
    obtain ⟨rfl, rfl⟩ : _ ∧ _ := by simpa using ht
    exact inverse_meets hv
  · -- any
    obtain ⟨v, rfl, hv⟩ := Value.allFit_one hargs
    obtain ⟨cs, rfl, -⟩ := Value.fits_vector_iff.mp hv
    cases ht
    exact Value.fits_scalar_iff.mpr ⟨_, rfl, rfl⟩
  · -- all
    obtain ⟨v, rfl, hv⟩ := Value.allFit_one hargs
    obtain ⟨cs, rfl, -⟩ := Value.fits_vector_iff.mp hv
    cases ht
    exact Value.fits_scalar_iff.mpr ⟨_, rfl, rfl⟩
  · -- not
    obtain ⟨v, rfl, hv⟩ := Value.allFit_one hargs
    obtain ⟨cs, rfl, hlen, -⟩ := Value.fits_vector_iff.mp hv
    cases ht
    exact Value.fits_vector_iff.mpr ⟨_, rfl, by simpa using hlen, by simp⟩
  · -- packSnorm2x16
    obtain ⟨v, rfl, hv⟩ := Value.allFit_one hargs
    cases ht
    exact pack_meets _ hv
  · -- packUnorm2x16
    obtain ⟨v, rfl, hv⟩ := Value.allFit_one hargs
    cases ht
    exact pack_meets _ hv
  · -- packHalf2x16
    obtain ⟨v, rfl, hv⟩ := Value.allFit_one hargs
    cases ht
    exact pack_meets _ hv
  · -- unpackSnorm2x16
    obtain ⟨v, rfl, hv⟩ := Value.allFit_one hargs
    cases ht
    exact unpack_meets _ hv
  · -- unpackUnorm2x16
    obtain ⟨v, rfl, hv⟩ := Value.allFit_one hargs
    cases ht
    exact unpack_meets _ hv
  · -- unpackHalf2x16
    obtain ⟨v, rfl, hv⟩ := Value.allFit_one hargs
    cases ht
    exact unpack_meets _ hv
  · cases ht

end Library

end Shader
