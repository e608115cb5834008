import Shader.Constant

/-! The shape that a type prescribes for its values. A value of the right shape has as many
components as its type says, all of the right kind, and a text of its own. -/

namespace Shader

theorem Dim.two_le_toNat (n : Dim) : 2 ≤ n.toNat := by
  cases n <;> decide

namespace Scalar

@[simp] theorem kind_float (x : Binary32) : (float x).kind = .float := rfl

@[simp] theorem kind_int (i : Int32) : (int i).kind = .int := rfl

@[simp] theorem kind_uint (u : UInt32) : (uint u).kind = .uint := rfl

@[simp] theorem kind_bool (b : Bool) : (bool b).kind = .bool := rfl

variable {s : Scalar}

theorem kind_eq_float : s.kind = .float ↔ ∃ x, s = float x := by
  cases s <;> simp

theorem kind_eq_int : s.kind = .int ↔ ∃ i, s = int i := by
  cases s <;> simp

theorem kind_eq_uint : s.kind = .uint ↔ ∃ u, s = uint u := by
  cases s <;> simp

theorem kind_eq_bool : s.kind = .bool ↔ ∃ b, s = bool b := by
  cases s <;> simp

theorem kind_convert (s : Scalar) (k : ScalarKind) : (s.convert k).kind = k := by
  cases k <;> rfl

end Scalar

namespace Value

mutual

/-- The value has exactly the shape of the type. -/
def Fits : Value → Ty → Prop
  | scalar s, .basic (.scalar k) => s.kind = k
  | vector cs, .basic (.vector k n) => cs.length = n.toNat ∧ ∀ s ∈ cs, s.kind = k
  | matrix cols rows data, .basic (.matrix c r) =>
    cols = c.toNat ∧ rows = r.toNat ∧ data.length = cols * rows
  | struct values, .struct _ _ fields => FieldsFit values fields
  | array values, .array t (some n) => values.length = n ∧ ElementsFit values t
  | _, _ => False

/-- The values are those of the fields, in order and under their names. -/
def FieldsFit : List (String × Value) → List (String × Ty) → Prop
  | [], [] => True
  | (x, v) :: vs, (y, t) :: ts => x = y ∧ v.Fits t ∧ FieldsFit vs ts
  | _, _ => False

def ElementsFit : List Value → Ty → Prop
  | [], _ => True
  | v :: vs, t => v.Fits t ∧ ElementsFit vs t

end

attribute [local simp] Fits FieldsFit ElementsFit

variable {v : Value} {values : List Value}

theorem elementsFit_iff {t : Ty} : ElementsFit values t ↔ ∀ v ∈ values, v.Fits t := by
  induction values with
  | nil => simp
  | cons v vs ih => simp [ih]

theorem fits_scalar_iff {k : ScalarKind} :
    v.Fits (.basic (.scalar k)) ↔ ∃ s, v = scalar s ∧ s.kind = k := by
  cases v <;> simp

theorem fits_vector_iff {k : ScalarKind} {n : Dim} :
    v.Fits (.basic (.vector k n)) ↔
      ∃ cs, v = vector cs ∧ cs.length = n.toNat ∧ ∀ s ∈ cs, s.kind = k := by
  cases v <;> simp

theorem fits_matrix_iff {c r : Dim} :
    v.Fits (.basic (.matrix c r)) ↔
      ∃ data, v = matrix c.toNat r.toNat data ∧ data.length = c.toNat * r.toNat := by
  cases v with
  | matrix cols rows data =>
    simp only [Fits, matrix.injEq]
    constructor
    · rintro ⟨rfl, rfl, h⟩
      exact ⟨data, ⟨rfl, rfl, rfl⟩, h⟩
    · rintro ⟨_, ⟨rfl, rfl, rfl⟩, h⟩
      exact ⟨rfl, rfl, h⟩
  | _ => simp

theorem fits_struct_iff {id : Nat} {name : Option String} {fields : List (String × Ty)} :
    v.Fits (.struct id name fields) ↔ ∃ values, v = struct values ∧ FieldsFit values fields := by
  cases v <;> simp

theorem fits_array_iff {t : Ty} {size : Option Nat} :
    v.Fits (.array t size) ↔
      ∃ values, v = array values ∧ size = some values.length ∧ ∀ w ∈ values, w.Fits t := by
  cases v with
  | array values =>
    cases size with
    | none => simp
    | some n => simp [elementsFit_iff, eq_comm]
  | _ => simp

theorem not_fits_void : ¬ v.Fits (.basic .void) := by
  cases v <;> simp

theorem not_fits_sampler {s : Sampler} : ¬ v.Fits (.basic (.sampler s)) := by
  cases v <;> simp

theorem fits_ofScalar (s : Scalar) : (Constant.ofScalar s).value.Fits (Constant.ofScalar s).ty := by
  simp [Constant.ofScalar, Ty.scalar]

theorem Fits.components {b : BasicTy} (h : v.Fits (.basic b)) :
    ∃ k, b.componentKind? = some k ∧ v.components.length = b.componentCount ∧
      ∀ s ∈ v.components, s.kind = k := by
  cases b with
  | void => exact (not_fits_void h).elim
  | sampler s => exact (not_fits_sampler h).elim
  | scalar k =>
    obtain ⟨s, rfl, hs⟩ := fits_scalar_iff.mp h
    exact ⟨k, rfl, rfl, by simpa [Value.components] using hs⟩
  | vector k n =>
    obtain ⟨cs, rfl, hlen, hk⟩ := fits_vector_iff.mp h
    exact ⟨k, rfl, hlen, hk⟩
  | matrix c r =>
    obtain ⟨data, rfl, hlen⟩ := fits_matrix_iff.mp h
    refine ⟨.float, rfl, by simpa [Value.components, BasicTy.componentCount] using hlen, ?_⟩
    simp only [Value.components, List.mem_map]
    rintro s ⟨x, _, rfl⟩
    rfl

theorem ofComponents_fits {b : BasicTy} {k : ScalarKind} {cs : List Scalar}
    (hk : b.componentKind? = some k) (hlen : cs.length = b.componentCount)
    (hkind : ∀ s ∈ cs, s.kind = k) : ∃ v, ofComponents b cs = .ok v ∧ v.Fits (.basic b) := by
  cases b with
  | void => simp [BasicTy.componentKind?] at hk
  | sampler s => simp [BasicTy.componentKind?] at hk
  | scalar k' =>
    have hk : k' = k := Option.some.inj hk
    obtain ⟨s, rfl⟩ := List.length_eq_one_iff.mp hlen
    exact ⟨_, rfl, fits_scalar_iff.mpr ⟨s, rfl, by simpa [hk] using hkind⟩⟩
  | vector k' n =>
    have hk : k' = k := Option.some.inj hk
    exact ⟨_, rfl, fits_vector_iff.mpr ⟨cs, rfl, hlen, by simpa [hk] using hkind⟩⟩
  | matrix c r =>
    exact ⟨_, rfl, fits_matrix_iff.mpr ⟨_, rfl, by simpa [BasicTy.componentCount] using hlen⟩⟩

theorem FieldsFit.lookup {values : List (String × Value)} {fields : List (String × Ty)}
    (h : FieldsFit values fields) {x : String} {t : Ty} (ht : fields.lookup x = some t) :
    ∃ v, values.lookup x = some v ∧ v.Fits t := by
  induction fields generalizing values with
  | nil => simp at ht
  | cons f fields ih =>
    obtain ⟨y, u⟩ := f
    cases values with
    | nil => simp at h
    | cons w values =>
      obtain ⟨z, v⟩ := w
      obtain ⟨rfl, hv, hrest⟩ := h
      by_cases hx : x == z
      · simp only [List.lookup_cons, hx, Option.some.injEq] at ht ⊢
        exact ⟨v, rfl, ht ▸ hv⟩
      · simp only [List.lookup_cons, hx] at ht ⊢
        exact ih hrest ht

theorem fieldsFit_zipWith {fields : List (String × Ty)} {args : List Constant}
    (hty : fields.map Prod.snd = args.map Constant.ty)
    (hargs : ∀ a ∈ args, a.value.Fits a.ty) :
    FieldsFit (fields.zipWith (fun f a => (f.1, a.value)) args) fields := by
  induction fields generalizing args with
  | nil =>
    cases args with
    | nil => simp
    | cons a args => simp at hty
  | cons f fields ih =>
    cases args with
    | nil => simp at hty
    | cons a args =>
      simp only [List.map_cons, List.cons.injEq] at hty
      refine ⟨rfl, ?_, ih hty.2 fun b hb => hargs b (by simp [hb])⟩
      rw [hty.1]
      exact hargs a (by simp)

/-- Each value has the shape of the type at its place. -/
def AllFit : List Value → List BasicTy → Prop
  | [], [] => True
  | v :: vs, t :: ts => v.Fits (.basic t) ∧ AllFit vs ts
  | _, _ => False

theorem allFit_nil_iff {vs : List Value} : AllFit vs [] ↔ vs = [] := by
  cases vs <;> simp [AllFit]

theorem allFit_cons_iff {vs : List Value} {t : BasicTy} {ts : List BasicTy} :
    AllFit vs (t :: ts) ↔ ∃ v ws, vs = v :: ws ∧ v.Fits (.basic t) ∧ AllFit ws ts := by
  cases vs with
  | nil => simp [AllFit]
  | cons v vs =>
    constructor
    · exact fun h => ⟨v, vs, rfl, h⟩
    · rintro ⟨_, _, ⟨rfl, rfl⟩, h⟩
      exact h

theorem allFit_one {vs : List Value} {t : BasicTy} (h : AllFit vs [t]) :
    ∃ v, vs = [v] ∧ v.Fits (.basic t) := by
  obtain ⟨v, _, rfl, hv, h⟩ := allFit_cons_iff.mp h
  obtain rfl := allFit_nil_iff.mp h
  exact ⟨v, rfl, hv⟩

theorem allFit_two {vs : List Value} {t u : BasicTy} (h : AllFit vs [t, u]) :
    ∃ v w, vs = [v, w] ∧ v.Fits (.basic t) ∧ w.Fits (.basic u) := by
  obtain ⟨v, _, rfl, hv, h⟩ := allFit_cons_iff.mp h
  obtain ⟨w, rfl, hw⟩ := allFit_one h
  exact ⟨v, w, rfl, hv, hw⟩

theorem allFit_three {vs : List Value} {s t u : BasicTy} (h : AllFit vs [s, t, u]) :
    ∃ a b c, vs = [a, b, c] ∧ a.Fits (.basic s) ∧ b.Fits (.basic t) ∧ c.Fits (.basic u) := by
  obtain ⟨a, _, rfl, ha, h⟩ := allFit_cons_iff.mp h
  obtain ⟨b, c, rfl, hb, hc⟩ := allFit_two h
  exact ⟨a, b, c, rfl, ha, hb, hc⟩

mutual

theorem Fits.text_eq_ok : ∀ {v : Value} {t : Ty}, v.Fits t → ∃ s, v.text t = .ok s
  | scalar s, _, _ => ⟨s.text, by simp only [Value.text]⟩
  | vector cs, t, _ => ⟨constructorCall t (cs.map Scalar.text), by simp only [Value.text]⟩
  | matrix _ _ data, t, _ =>
    ⟨constructorCall t (data.map Scalar.floatText), by simp only [Value.text]⟩
  | struct values, .struct id name fields, h => by
    obtain ⟨parts, hp⟩ := FieldsFit.texts_eq_ok (show FieldsFit values fields from h)
    exact ⟨constructorCall (.struct id name fields) parts, by simp only [Value.text, hp]; rfl⟩
  | array values, .array t (some n), h => by
    obtain ⟨parts, hp⟩ := ElementsFit.texts_eq_ok (show ElementsFit values t from h.2)
    exact ⟨constructorCall (.array t (some n)) parts, by simp only [Value.text, hp]; rfl⟩
  | struct _, .basic _, h | struct _, .array _ _, h => by simp at h
  | array _, .basic _, h | array _, .array _ none, h | array _, .struct _ _ _, h => by
    simp at h

theorem FieldsFit.texts_eq_ok : ∀ {values : List (String × Value)} {fields : List (String × Ty)},
    FieldsFit values fields → ∃ parts, fieldTexts values fields = .ok parts
  | [], _, _ => ⟨[], by simp only [fieldTexts]⟩
  | (_, _) :: _, [], h => by simp at h
  | (x, v) :: vs, (y, t) :: ts, h => by
    obtain ⟨s, hs⟩ := Fits.text_eq_ok h.2.1
    obtain ⟨parts, hp⟩ := FieldsFit.texts_eq_ok h.2.2
    exact ⟨s :: parts, by simp only [fieldTexts, hs, hp]; rfl⟩

theorem ElementsFit.texts_eq_ok : ∀ {values : List Value} {t : Ty},
    ElementsFit values t → ∃ parts, elementTexts values t = .ok parts
  | [], _, _ => ⟨[], by simp only [elementTexts]⟩
  | v :: vs, t, h => by
    obtain ⟨s, hs⟩ := Fits.text_eq_ok h.1
    obtain ⟨parts, hp⟩ := ElementsFit.texts_eq_ok h.2
    exact ⟨s :: parts, by simp only [elementTexts, hs, hp]; rfl⟩

end

end Value

/-- The value of the constant has the shape of its type. -/
def Constant.WellShaped (c : Constant) : Prop :=
  c.value.Fits c.ty

end Shader
