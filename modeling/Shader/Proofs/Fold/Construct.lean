import Shader.Check.Constructor
import Shader.Fold.Construct
import Shader.Proofs.Fold.Operator

/-! Constructors of constants. The value has the shape of the constructed type, and arguments that
the checking rule accepts always give one. -/

namespace Shader

theorem Value.Fits.length_components {v : Value} {t : Ty} (h : v.Fits t)
    (hcount : t.componentCount ≠ 0) : v.components.length = t.componentCount := by
  cases t with
  | basic b =>
    obtain ⟨_, _, hlen, _⟩ := h.components
    simpa [Ty.componentCount, Ty.basic?] using hlen
  | array e n => simp [Ty.componentCount, Ty.basic?] at hcount
  | struct id name fields => simp [Ty.componentCount, Ty.basic?] at hcount

theorem Scalar.convert_kind {s : Scalar} {k : ScalarKind} (h : s.kind = k) : s.convert k = s := by
  subst h
  cases s <;> simp [Scalar.convert, Scalar.kind, Scalar.toBinary32, Scalar.toBits, Scalar.toBool]

theorem Scalar.map_convert_kind {ss : List Scalar} {k : ScalarKind} (h : ∀ s ∈ ss, s.kind = k) :
    ss.map (fun s => s.convert k) = ss :=
  (List.map_congr_left fun s hs => convert_kind (h s hs)).trans (List.map_id ss)

namespace Fold

variable {kind : ScalarKind} {args : List Constant} {cs : List Scalar}

theorem kind_of_mem_flatten (h : flatten kind args = some cs) : ∀ s ∈ cs, s.kind = kind := by
  unfold flatten at h
  split at h
  · simp at h
  · obtain rfl := Option.some.inj h
    simp only [List.mem_flatMap, List.mem_map]
    rintro s ⟨a, _, c, _, rfl⟩
    exact c.kind_convert kind

theorem flatten_eq (hcount : ∀ a ∈ args, a.ty.componentCount ≠ 0) : flatten kind args =
    some (args.flatMap fun a => a.value.components.map fun s => s.convert kind) := by
  have hany : (args.any fun a => a.ty.componentCount = 0) = false := by simpa using hcount
  rw [flatten, hany]
  rfl

theorem flatten_eq_some (hargs : ∀ a ∈ args, a.WellShaped)
    (hcount : ∀ a ∈ args, a.ty.componentCount ≠ 0) :
    ∃ cs, flatten kind args = some cs ∧
      cs.length = Check.totalComponents (args.map Constant.ty) := by
  refine ⟨_, flatten_eq hcount, ?_⟩
  induction args with
  | nil => rfl
  | cons a args ih =>
    have hlen := (hargs a (by simp)).length_components (hcount a (by simp))
    have hrest := ih (fun b hb => hargs b (by simp [hb])) fun b hb => hcount b (by simp [hb])
    simp only [List.flatMap_cons, List.length_append, List.length_map, hlen, hrest]
    rfl

theorem vectorOf_fits {n : Dim} {v : Value} (h : vectorOf kind n.toNat args = some v) :
    v.Fits (.basic (.vector kind n)) := by
  cases hf : flatten kind args with
  | none => simp [vectorOf, hf] at h
  | some cs =>
    have hkind := kind_of_mem_flatten hf
    simp only [vectorOf, hf, Option.bind_eq_bind, Option.bind_some] at h
    split at h
    · rename_i s
      obtain rfl := Option.some.inj h
      refine Value.fits_vector_iff.mpr ⟨_, rfl, by simp, ?_⟩
      intro c hc
      rw [(List.mem_replicate.mp hc).2]
      exact hkind s (by simp)
    · split at h
      · simp at h
      · obtain rfl := Option.some.inj h
        refine Value.fits_vector_iff.mpr ⟨_, rfl, ?_, fun c hc => hkind c (List.mem_of_mem_take hc)⟩
        rw [List.length_take]
        omega

theorem vectorOf_isSome {n : Nat} (hf : flatten kind args = some cs)
    (h : cs.length = 1 ∨ n ≤ cs.length) : (vectorOf kind n args).isSome = true := by
  simp only [vectorOf, hf, Option.bind_eq_bind, Option.bind_some]
  split
  · rfl
  · rename_i hone
    have hn : ¬ cs.length < n := by
      rcases h with h | h
      · obtain ⟨s, rfl⟩ := List.length_eq_one_iff.mp h
        exact absurd rfl (hone s)
      · omega
    simp [hn]

theorem resize_meets {cols rows fromCols fromRows : Nat} {data : List Binary32}
    (h : data.length = fromCols * fromRows) :
    (resize cols rows fromCols fromRows data).Meets False fun d => d.length = cols * rows := by
  unfold resize
  refine (Outcome.Meets.mapM (P := fun _ => True) fun p _ => ?_).mono (fun h => h) fun d hd => ?_
  · obtain ⟨c, r⟩ := p
    by_cases hin : c < fromCols ∧ r < fromRows
    · have hlt : c * fromRows + r < data.length := by
        have hstep : (c + 1) * fromRows ≤ fromCols * fromRows := Nat.mul_le_mul_right _ hin.1
        rw [Nat.add_mul, Nat.one_mul] at hstep
        omega
      simp [hin.1, hin.2, component, List.getElem?_eq_getElem hlt]
    · have hout : (decide (c < fromCols) && decide (r < fromRows)) = false := by
        simpa using hin
      simp [hout]
  · rw [hd.1, Grid.length_toList]

theorem matrixOf_meets {c r : Dim} {excuse : Prop} (hargs : ∀ a ∈ args, a.WellShaped)
    (hmatrix : (args.any fun a => a.ty.isMatrix) = true → (∃ a, args = [a]) ∨ excuse)
    (hplain : (args.any fun a => a.ty.isMatrix) = false →
      (∃ t s, args = [⟨t, .scalar s⟩]) ∨
      (∃ cs, flatten .float args = some cs ∧ c.toNat * r.toNat ≤ cs.length) ∨ excuse) :
    (matrixOf c.toNat r.toNat args).Meets excuse fun v => v.Fits (.basic (.matrix c r)) := by
  have hfinish : ∀ {x : Outcome (List Binary32)},
      (x.Meets excuse fun d => d.length = c.toNat * r.toNat) →
      (x >>= fun d => .value (Value.matrix c.toNat r.toNat d)).Meets excuse
        fun v => v.Fits (.basic (.matrix c r)) := by
    intro x hx
    exact hx.bind fun d hd => Value.fits_matrix_iff.mpr ⟨d, rfl, hd⟩
  unfold matrixOf
  dsimp only
  split
  -- A single matrix is resized. Its type is a matrix type, since its value is a matrix.
  · rename_i ty fromCols fromRows data
    refine hfinish ((resize_meets ?_).mono False.elim fun _ h => h)
    have hshape : (Value.matrix fromCols fromRows data).Fits ty := hargs ⟨ty, _⟩ (by simp)
    cases ty with
    | basic b =>
      cases b with
      | matrix c' r' => exact hshape.2.2
      | _ => simp [Value.Fits] at hshape
    | _ => simp [Value.Fits] at hshape
  · exact hfinish (by simp [Grid.length_toList])
  -- Of several arguments none may be a matrix, and their components are counted.
  · rename_i hnotMatrix hnotScalar
    split
    · rename_i hany
      refine (hmatrix hany).resolve_left ?_
      rintro ⟨⟨ty, v⟩, rfl⟩
      have hshape : v.Fits ty := hargs ⟨ty, v⟩ (by simp)
      obtain ⟨c', r', rfl⟩ : ∃ c' r', ty = .basic (.matrix c' r') := by
        cases ty with
        | basic b => cases b <;> simp_all [Ty.isMatrix, Ty.basic?, BasicTy.isMatrix]
        | _ => simp [Ty.isMatrix, Ty.basic?] at hany
      obtain ⟨data, rfl, _⟩ := Value.fits_matrix_iff.mp hshape
      exact hnotMatrix _ _ _ _ rfl
    · rename_i hany
      rcases hplain (Bool.eq_false_iff.mpr hany) with ⟨t, s, rfl⟩ | ⟨cs, hcs, hlen⟩ | hexcuse
      · exact absurd rfl (hnotScalar t s)
      · simp only [hcs, Outcome.ofOption_some, Outcome.value_bind, Nat.not_lt.mpr hlen, if_false]
        refine Value.fits_matrix_iff.mpr ⟨_, rfl, ?_⟩
        rw [List.length_map, List.length_take]
        omega
      · cases hcs : flatten .float args with
        | none => exact hexcuse
        | some cs =>
          simp only [Outcome.ofOption_some, Outcome.value_bind]
          split
          · exact hexcuse
          · refine Value.fits_matrix_iff.mpr ⟨_, rfl, ?_⟩
            rw [List.length_map, List.length_take]
            omega

/-- Whatever the arguments are: there is no fault, and a value has the shape of its type. -/
theorem construct_typed (ty : Ty) (hargs : ∀ a ∈ args, a.WellShaped) :
    (construct ty args).Meets True (Has ty) := by
  have hfinish : ∀ {x : Outcome Value}, (x.Meets True fun v => v.Fits ty) →
      (x >>= fun v => .value ⟨ty, v⟩).Meets True (Has ty) :=
    fun hx => hx.bind fun v hv => ⟨rfl, hv⟩
  refine hfinish ?_
  unfold constructValue
  split
  · rename_i kind
    split
    · rename_i arg
      cases hf : flatten kind [arg] with
      | none => simp
      | some cs =>
        simp only [Outcome.ofOption_some, Outcome.value_bind]
        split
        · rename_i s _
          exact Value.fits_scalar_iff.mpr ⟨s, rfl, kind_of_mem_flatten hf s (by simp)⟩
        · simp
    · simp
  · rename_i kind n
    cases hv : vectorOf kind n.toNat args with
    | none => simp
    | some v => exact vectorOf_fits hv
  · exact matrixOf_meets hargs (fun _ => .inr trivial) fun _ => .inr (.inr trivial)
  · split
    · rename_i hty
      exact Value.fits_struct_iff.mpr ⟨_, rfl, Value.fieldsFit_zipWith hty hargs⟩
    · simp
  · rename_i element n
    split
    · rename_i h
      simp only [Bool.and_eq_true, decide_eq_true_eq, List.all_eq_true] at h
      refine Value.fits_array_iff.mpr ⟨_, rfl, by simp [h.1], ?_⟩
      simp only [List.mem_map]
      rintro w ⟨a, ha, rfl⟩
      rw [← h.2 a ha]
      exact hargs a ha
    · simp
  · simp

theorem fieldProblem?_eq_none {ty : Ty} {fields : List (String × Ty)} {tys : List Ty}
    (hlen : tys.length = fields.length) (h : Check.fieldProblem? ty fields tys = none) :
    fields.map Prod.snd = tys := by
  induction fields generalizing tys with
  | nil => simpa [eq_comm] using hlen
  | cons f fields ih =>
    cases tys with
    | nil => simp at hlen
    | cons t tys =>
      obtain ⟨x, u⟩ := f
      by_cases hu : u = t
      · simp only [Check.fieldProblem?, hu, if_true] at h
        simp [hu, ih (by simpa using hlen) h]
      · simp [Check.fieldProblem?, hu] at h

theorem compositeProblem?_eq_none {ty : Ty} {needed : Nat} {tys : List Ty}
    (h : Check.compositeProblem? ty needed tys = none) :
    (∀ t ∈ tys, t.componentCount ≠ 0) ∧
      ((ty.isMatrix = true ∧ tys.any Ty.isMatrix = true ∧ tys.length = 1) ∨
        ((ty.isMatrix && tys.any Ty.isMatrix) = false ∧
          (Check.totalComponents tys = 1 ∨ needed ≤ Check.totalComponents tys))) := by
  unfold Check.compositeProblem? at h
  split at h
  · simp at h
  · rename_i hempty
    split at h
    · simp at h
    · rename_i hfind
      refine ⟨by simpa using hfind, ?_⟩
      split at h
      · rename_i hm
        simp only [Bool.and_eq_true] at hm
        have hne : tys.length ≠ 0 := by simpa using hempty
        split at h
        · simp at h
        · exact .inl ⟨hm.1, hm.2, by omega⟩
      · rename_i hm
        refine .inr ⟨Bool.eq_false_iff.mpr hm, ?_⟩
        unfold Check.componentsProblem? at h
        grind

theorem totalComponents_eq_one {tys : List Ty} (hcount : ∀ t ∈ tys, t.componentCount ≠ 0)
    (h : Check.totalComponents tys = 1) : ∃ t, tys = [t] ∧ t.componentCount = 1 := by
  cases tys with
  | nil => simp [Check.totalComponents] at h
  | cons t tys =>
    have ht := hcount t (by simp)
    cases tys with
    | nil => exact ⟨t, rfl, by simpa [Check.totalComponents] using h⟩
    | cons u tys =>
      have hu := hcount u (by simp)
      simp only [Check.totalComponents, List.foldr_cons] at h
      omega

theorem eq_scalar_of_componentCount_eq_one {a : Constant} (ha : a.WellShaped)
    (h : a.ty.componentCount = 1) : ∃ t s, a = ⟨t, .scalar s⟩ := by
  obtain ⟨ty, v⟩ := a
  cases ty with
  | basic b =>
    cases b with
    | scalar k =>
      obtain ⟨s, rfl, _⟩ := Value.fits_scalar_iff.mp ha
      exact ⟨_, s, rfl⟩
    | vector k n =>
      cases n <;> simp [Ty.componentCount, Ty.basic?, BasicTy.componentCount, Dim.toNat] at h
    | matrix c r =>
      cases c <;> cases r <;>
        simp [Ty.componentCount, Ty.basic?, BasicTy.componentCount, Dim.toNat] at h
    | void => exact (Value.not_fits_void ha).elim
    | sampler s => exact (Value.not_fits_sampler ha).elim
  | _ => simp [Ty.componentCount, Ty.basic?] at h

/-- Arguments whose types the checking rule accepts give a value. -/
theorem construct_meets {ty : Ty} (hargs : ∀ a ∈ args, a.WellShaped)
    (hok : Check.constructorProblem? ty (args.map Constant.ty) = none) :
    (construct ty args).Meets False (Has ty) := by
  have hsound := construct_typed ty hargs
  suffices hvalue : (constructValue ty args).Meets False fun _ => True by
    obtain ⟨v, hv, -⟩ := hvalue.exists_value
    simpa [construct, hv] using hsound
  -- Types with components take their arguments apart, the others take them as they are.
  have hcounts : ∀ {needed : Nat},
      Check.compositeProblem? ty needed (args.map Constant.ty) = none →
      ∀ a ∈ args, a.ty.componentCount ≠ 0 := by
    intro needed h a ha
    exact (compositeProblem?_eq_none h).1 a.ty (List.mem_map_of_mem ha)
  unfold Check.constructorProblem? at hok
  split at hok
  · rename_i kind
    split at hok
    · rename_i t htys
      obtain ⟨a, rfl, rfl⟩ : ∃ a, args = [a] ∧ a.ty = t := by
        simpa [List.map_eq_singleton_iff] using htys
      have hpos : 0 < a.ty.componentCount := by
        by_cases hpos : 0 < a.ty.componentCount
        · exact hpos
        · simp [hpos] at hok
      obtain ⟨cs, hcs, hlen⟩ := @flatten_eq_some kind _ hargs (by simpa using Nat.ne_of_gt hpos)
      have hne : cs ≠ [] := by
        rintro rfl
        simp [Check.totalComponents] at hlen
        omega
      obtain ⟨s, rest, rfl⟩ := List.exists_cons_of_ne_nil hne
      simp [constructValue, hcs]
    · simp at hok
  · rename_i kind n
    obtain ⟨cs, hcs, hlen⟩ := @flatten_eq_some kind _ hargs (hcounts hok)
    obtain ⟨hm, -, -⟩ | ⟨-, hcount⟩ := (compositeProblem?_eq_none hok).2
    · simp [Ty.isMatrix, Ty.basic?, BasicTy.isMatrix] at hm
    · have hsome := vectorOf_isSome hcs (n := n.toNat) (by rw [hlen]; exact hcount)
      obtain ⟨v, hv⟩ := Option.isSome_iff_exists.mp hsome
      simp [constructValue, hv]
  · rename_i c r
    obtain ⟨cs, hcs, hlen⟩ := @flatten_eq_some .float _ hargs (hcounts hok)
    refine (matrixOf_meets hargs (fun hany => .inl ?_) fun hany => ?_).mono (fun h => h) fun _ _ =>
      trivial
    · obtain ⟨-, -, hone⟩ | ⟨hno, -⟩ := (compositeProblem?_eq_none hok).2
      · exact List.length_eq_one_iff.mp (by simpa using hone)
      · simp [Ty.isMatrix, Ty.basic?, BasicTy.isMatrix] at hno hany
        grind
    · obtain ⟨-, hm, -⟩ | ⟨-, hcount⟩ := (compositeProblem?_eq_none hok).2
      · simp [List.any_map, Function.comp_def, hany] at hm
      · rcases hcount with hone | hmany
        · obtain ⟨t, ht, hcount⟩ := totalComponents_eq_one (compositeProblem?_eq_none hok).1 hone
          obtain ⟨a, rfl, rfl⟩ : ∃ a, args = [a] ∧ a.ty = t := by
            simpa [List.map_eq_singleton_iff] using ht
          obtain ⟨t, s, rfl⟩ := eq_scalar_of_componentCount_eq_one (hargs a (by simp)) hcount
          exact .inl ⟨t, s, rfl⟩
        · exact .inr (.inl ⟨cs, hcs, by rw [hlen]; exact hmany⟩)
  · rename_i id name fields
    split at hok
    · rename_i hlen
      have htys := fieldProblem?_eq_none hlen hok
      simp [constructValue, htys]
    · simp at hok
  · rename_i element n
    split at hok
    · rename_i hlen
      have hall : ∀ a ∈ args, a.ty = element := by simpa using hok
      have hlen : args.length = n := by simpa using hlen
      have hcond : (args.length = n && args.all fun a => a.ty = element) = true := by
        simpa [hlen] using hall
      simp only [constructValue, hcond, if_true, Outcome.meets_value]
    · simp at hok
  · simp at hok

variable {ss : List Scalar}

theorem construct_struct {id : Nat} {tag : Option String} {fields : List (String × Ty)}
    (hty : fields.map Prod.snd = args.map Constant.ty) :
    construct (.struct id tag fields) args = .value ⟨.struct id tag fields,
      .struct (fields.zipWith (fun f a => (f.1, a.value)) args)⟩ := by
  simp [construct, constructValue, hty]

theorem construct_array {t : Ty} (hty : ∀ a ∈ args, a.ty = t) :
    construct (.array t (some args.length)) args =
      .value ⟨.array t (some args.length), .array (args.map Constant.value)⟩ := by
  have hall : (args.all fun a => a.ty = t) = true := by simpa using hty
  simp only [construct, constructValue, hall, decide_true, Bool.and_self, if_true,
    Outcome.value_bind, Outcome.pure_eq]

theorem flatten_scalars (k : ScalarKind) (ss : List Scalar) :
    flatten k (ss.map .ofScalar) = some (ss.map fun s => s.convert k) := by
  rw [flatten_eq, List.flatMap_map, List.map_eq_flatMap]
  · rfl
  · intro a ha
    obtain ⟨s, -, rfl⟩ := List.mem_map.mp ha
    exact Nat.one_ne_zero

theorem vectorOf_eq {k : ScalarKind} {n : Dim} {cs : List Scalar}
    (hflatten : flatten k args = some cs) (hlen : cs.length = n.toNat) :
    vectorOf k n.toNat args = some (.vector cs) := by
  have htwo := n.two_le_toNat
  simp only [vectorOf, hflatten, Option.bind_eq_bind, Option.bind_some]
  split
  · simp at hlen
    omega
  · rw [if_neg (by omega), ← hlen, List.take_length]
    rfl

theorem construct_vector {k : ScalarKind} {n : Dim} (hlen : ss.length = n.toNat) :
    construct (.basic (.vector k n)) (ss.map .ofScalar) =
      .value ⟨.basic (.vector k n), .vector (ss.map fun s => s.convert k)⟩ := by
  rw [construct, constructValue,
    vectorOf_eq (flatten_scalars k ss) (by rw [List.length_map, hlen])]
  rfl

theorem matrixOf_eq {c r : Nat} {cs : List Scalar} (hmany : 2 ≤ args.length)
    (hplain : ∀ a ∈ args, a.ty.isMatrix = false) (hflatten : flatten .float args = some cs)
    (hlen : cs.length = c * r) :
    matrixOf c r args = .value (.matrix c r (cs.map Scalar.toBinary32)) := by
  have hany : (args.any fun a => a.ty.isMatrix) = false := by simpa using hplain
  unfold matrixOf
  split
  · simp at hmany
  · simp at hmany
  · simp only [hany, hflatten, Bool.false_eq_true, if_false, Outcome.ofOption_some,
      Outcome.value_bind, Nat.lt_irrefl, ← hlen, List.take_length, Outcome.pure_eq]

theorem construct_matrix {c r : Dim} (hlen : ss.length = c.toNat * r.toNat) :
    construct (.basic (.matrix c r)) (ss.map .ofScalar) =
      .value ⟨.basic (.matrix c r), .matrix c.toNat r.toNat (ss.map Scalar.toBinary32)⟩ := by
  have hmany : 2 ≤ (ss.map Constant.ofScalar).length := by
    rw [List.length_map, hlen]
    exact Nat.mul_le_mul c.two_le_toNat (Nat.le_of_lt r.two_le_toNat)
  have hplain : ∀ a ∈ ss.map Constant.ofScalar, a.ty.isMatrix = false := by
    intro a ha
    obtain ⟨s, -, rfl⟩ := List.mem_map.mp ha
    rfl
  rw [construct, constructValue,
    matrixOf_eq hmany hplain (flatten_scalars .float ss) (by rw [List.length_map, hlen])]
  simp [Scalar.convert, Scalar.toBinary32]

end Fold

end Shader
