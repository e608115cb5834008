import Shader.Proofs.Containment
import Shader.Proofs.Fold.Select

/-! Taking constants apart and putting them together again. What a constructor was given can be
selected from the constant it makes, and a constant is made again by its constructor out of its own
parts. A matrix that is brought to a larger shape and back is unchanged. -/

namespace Shader

namespace Fold

theorem construct_columns (c r : Dim) (m : Grid Binary32) :
    construct (.basic (.matrix c r)) ((List.range c.toNat).map (ofColumn r m)) =
      .value (ofGrid c r m) := by
  have hmany : 2 ≤ ((List.range c.toNat).map (ofColumn r m)).length := by
    rw [List.length_map, List.length_range]
    exact c.two_le_toNat
  have hplain : ∀ a ∈ (List.range c.toNat).map (ofColumn r m), a.ty.isMatrix = false := by
    intro a ha
    obtain ⟨i, -, rfl⟩ := List.mem_map.mp ha
    rfl
  have hflatten : flatten .float ((List.range c.toNat).map (ofColumn r m)) =
      some ((m.toList c.toNat r.toNat).map .float) := by
    rw [flatten_eq, List.flatMap_map, Grid.toList, List.map_flatMap]
    · simp only [ofColumn, Value.components, List.map_map]
      rfl
    · intro a ha
      obtain ⟨i, -, rfl⟩ := List.mem_map.mp ha
      exact Nat.ne_of_gt (Nat.lt_of_lt_of_le Nat.zero_lt_two r.two_le_toNat)
  rw [construct, constructValue, matrixOf_eq hmany hplain hflatten
    (by rw [List.length_map, Grid.length_toList])]
  simp [ofGrid, Function.comp_def, Scalar.toBinary32]

theorem construct_resized (c r c' r' : Dim) (m : Grid Binary32) :
    construct (.basic (.matrix c' r')) [ofGrid c r m] = .value (ofGrid c' r' fun i j =>
      if i < c.toNat ∧ j < r.toNat then m i j else diagonal .one i j) := by
  simp [construct, constructValue, matrixOf, ofGrid, resize_toList]

variable {args : List Constant} {fields : List (String × Ty)} {values : List (String × Value)}

theorem map_fst_zipWith (hlen : fields.length = args.length) :
    (fields.zipWith (fun f a => (f.1, a.value)) args).map Prod.fst = fields.map Prod.fst := by
  induction fields generalizing args with
  | nil => simp
  | cons f fields ih =>
    cases args with
    | nil => simp at hlen
    | cons a args => simp [ih (by simpa using hlen)]

theorem field_construct {id : Nat} {tag : Option String} {i : Nat} {f : String × Ty}
    {a : Constant} (hnames : (fields.map Prod.fst).Nodup)
    (hty : fields.map Prod.snd = args.map Constant.ty) (hf : fields[i]? = some f)
    (ha : args[i]? = some a) :
    field ⟨.struct id tag fields, .struct (fields.zipWith (fun f a => (f.1, a.value)) args)⟩ f.1 =
      .value a := by
  have hlen : fields.length = args.length := by simpa using congrArg List.length hty
  have hfield : fields.lookup f.1 = some f.2 :=
    lookup_of_nodup hnames (List.mem_of_getElem? hf)
  have hvalue : (fields.zipWith (fun f a => (f.1, a.value)) args).lookup f.1 = some a.value := by
    refine lookup_of_nodup (by rwa [map_fst_zipWith hlen]) (List.mem_of_getElem? (i := i) ?_)
    simp [List.getElem?_zipWith, hf, ha]
  have hsame : f.2 = a.ty := by
    simpa [hf, ha] using congrArg (fun l => l[i]?) hty
  simp [field, hfield, hvalue, hsame]

def fieldConstants (fields : List (String × Ty)) (values : List (String × Value)) :
    List Constant :=
  fields.zipWith (fun f v => ⟨f.2, v.2⟩) values

theorem fieldConstants_types (h : Value.FieldsFit values fields) :
    fields.map Prod.snd = (fieldConstants fields values).map Constant.ty ∧
      fields.zipWith (fun f a => (f.1, a.value)) (fieldConstants fields values) = values := by
  induction fields generalizing values with
  | nil =>
    cases values with
    | nil => exact ⟨rfl, rfl⟩
    | cons v values => exact h.elim
  | cons f fields ih =>
    cases values with
    | nil => exact h.elim
    | cons v values =>
      obtain ⟨hname, -, hrest⟩ := h
      obtain ⟨htypes, hvalues⟩ := ih hrest
      refine ⟨?_, ?_⟩
      · rw [List.map_cons, htypes]
        rfl
      · rw [fieldConstants, List.zipWith_cons_cons, List.zipWith_cons_cons]
        exact List.cons_eq_cons.mpr ⟨Prod.ext hname.symm rfl, hvalues⟩

end Fold

/-- The fields of a struct type have different names. -/
def Ty.DistinctFields : Ty → Prop
  | .struct _ _ fields => (fields.map Prod.fst).Nodup
  | _ => True

namespace Expr

def Constructs (e : Expr) (ty : Ty) (args : List Expr) : Prop :=
  ∃ callee suffix note, e = .call callee suffix args (.constructor ty) note

/-- The expressions select the first `n` places of `e`, in order. -/
structure Places (e : Expr) (n : Nat) (es : List Expr) : Prop where
  length : es.length = n
  place : ∀ i < n, ∃ ix note, ix.Picks i ∧ es[i]? = some (.index e ix note)

/-- The expressions select all entries of a matrix, column after column. -/
structure Entries (e : Expr) (c r : Nat) (es : List Expr) : Prop where
  length : es.length = c * r
  entry : ∀ i < c, ∀ j < r, ∃ ix jx inner note, ix.Picks i ∧ jx.Picks j ∧
    es[i * r + j]? = some (.index (.index e ix inner) jx note)

/-- The expressions select all parts of `e`, which is of the type. -/
inductive Parts (e : Expr) : Ty → List Expr → Prop where
  | scalar {k : ScalarKind} : Parts e (.basic (.scalar k)) [e]
  | components {k : ScalarKind} {n : Dim} {es : List Expr} :
    Places e n.toNat es → Parts e (.basic (.vector k n)) es
  | columns {c r : Dim} {es : List Expr} :
    Places e c.toNat es → Parts e (.basic (.matrix c r)) es
  | entries {c r : Dim} {es : List Expr} :
    Entries e c.toNat r.toNat es → Parts e (.basic (.matrix c r)) es
  | fields {id : Nat} {tag : Option String} {fields : List (String × Ty)} (note : String → Note) :
    Parts e (.struct id tag fields) (fields.map fun f => .field e f.1 (note f.1))
  | elements {t : Ty} {n : Nat} {es : List Expr} :
    Places e n es → Parts e (.array t (some n)) es

variable {e : Expr} {es : List Expr}

theorem Constructs.fold {ty : Ty} {cs : List Constant} (h : e.Constructs ty es)
    (hes : foldAll es = .value cs) : e.fold = Fold.construct ty cs := by
  obtain ⟨callee, suffix, note, rfl⟩ := h
  simp [Expr.fold, hes, Fold.call]

theorem fold_index {c d : Constant} {i : Nat} {ix : Expr} {note : Note} (he : e.fold = .value c)
    (hi : ix.Picks i) (hd : ∀ p, Fold.place? p = some i → Fold.index c p = .value d) :
    (Expr.index e ix note).fold = .value d := by
  obtain ⟨p, hp, hplace⟩ := hi.fold
  simp [Expr.fold, he, hp, hd p hplace]

theorem fold_field {c : Constant} {name : String} {note : Note} (he : e.fold = .value c) :
    (Expr.field e name note).fold = Fold.field c name := by
  simp [Expr.fold, he]

theorem foldAll_singleton {c : Constant} (he : e.fold = .value c) : foldAll [e] = .value [c] := by
  simp [foldAll, he]

theorem Places.foldAll {c : Constant} {ds : List Constant} {n : Nat} (h : Places e n es)
    (he : e.fold = .value c) (hlen : ds.length = n)
    (hd : ∀ i p d, ds[i]? = some d → Fold.place? p = some i → Fold.index c p = .value d) :
    foldAll es = .value ds := by
  refine foldAll_eq_value_iff.mpr (List.ext_getElem? fun i => ?_)
  by_cases hi : i < n
  · obtain ⟨ix, note, hpicks, hplace⟩ := h.place i hi
    have hat := List.getElem?_eq_getElem (hlen.symm ▸ hi)
    rw [List.getElem?_map, List.getElem?_map, hplace, hat, Option.map_some, Option.map_some,
      fold_index he hpicks fun p hp => hd i p _ hat hp]
  · rw [List.getElem?_eq_none (by simp [h.length]; omega),
      List.getElem?_eq_none (by simp [hlen]; omega)]

theorem Places.foldAll_components {k : ScalarKind} {n : Dim} {cs : List Scalar}
    (h : Places e n.toNat es) (hlen : cs.length = n.toNat)
    (he : e.fold = .value ⟨.basic (.vector k n), .vector cs⟩) :
    Expr.foldAll es = .value (cs.map .ofScalar) := by
  refine h.foldAll he (by rw [List.length_map, hlen]) fun i p d hd hp => ?_
  rw [List.getElem?_map] at hd
  obtain ⟨s, hs, rfl⟩ := Option.map_eq_some_iff.mp hd
  exact Fold.index_vector hp hs

theorem Places.foldAll_elements {t : Ty} {n : Option Nat} {values : List Value}
    (h : Places e values.length es) (he : e.fold = .value ⟨.array t n, .array values⟩) :
    Expr.foldAll es = .value (values.map fun w => ⟨t, w⟩) := by
  refine h.foldAll he (by rw [List.length_map]) fun i p d hd hp => ?_
  rw [List.getElem?_map] at hd
  obtain ⟨w, hw, rfl⟩ := Option.map_eq_some_iff.mp hd
  exact Fold.index_array hp hw

theorem Places.foldAll_columns {c r : Dim} {m : Grid Binary32} (h : Places e c.toNat es)
    (he : e.fold = .value (Fold.ofGrid c r m)) :
    Expr.foldAll es = .value ((List.range c.toNat).map (Fold.ofColumn r m)) := by
  refine h.foldAll he (by simp) fun i p d hd hp => ?_
  rw [List.getElem?_map] at hd
  obtain ⟨j, hj, rfl⟩ := Option.map_eq_some_iff.mp hd
  obtain ⟨hi, rfl⟩ := List.getElem?_eq_some_iff.mp hj
  rw [List.getElem_range]
  exact Fold.index_ofGrid hp (by simpa using hi)

theorem Entries.foldAll {c r : Dim} {m : Grid Binary32} (h : Entries e c.toNat r.toNat es)
    (he : e.fold = .value (Fold.ofGrid c r m)) :
    Expr.foldAll es =
      .value (((m.toList c.toNat r.toNat).map .float).map Constant.ofScalar) := by
  refine foldAll_eq_value_iff.mpr ?_
  rw [← Grid.toList_ofList e h.length]
  simp only [Grid.map_toList]
  refine Grid.toList_congr fun i hi j hj => ?_
  obtain ⟨ix, jx, inner, note, hix, hjx, hentry⟩ := h.entry i hi j hj
  rw [Grid.ofList, List.getD_eq_getElem?_getD, hentry, Option.getD_some]
  refine fold_index (fold_index he hix fun p hp => Fold.index_ofGrid hp hi) hjx fun p hp => ?_
  exact Fold.index_vector hp (by simp [hj])

theorem foldAll_fields {id : Nat} {tag : Option String} {fields : List (String × Ty)}
    {values : List (String × Value)} (hnames : (fields.map Prod.fst).Nodup)
    (hfit : Value.FieldsFit values fields)
    (he : e.fold = .value ⟨.struct id tag fields, .struct values⟩) (note : String → Note) :
    foldAll (fields.map fun f => .field e f.1 (note f.1)) =
      .value (Fold.fieldConstants fields values) := by
  obtain ⟨htypes, hvalues⟩ := Fold.fieldConstants_types hfit
  rw [← hvalues] at he
  refine foldAll_eq_value_iff.mpr (List.ext_getElem? fun i => ?_)
  have hat := congrArg (fun l => l[i]?) htypes
  simp only [List.getElem?_map] at hat ⊢
  cases hf : fields[i]? with
  | none =>
    rw [hf] at hat
    simp [Option.map_eq_none_iff.mp hat.symm]
  | some f =>
    rw [hf] at hat
    obtain ⟨a, ha, -⟩ := Option.map_eq_some_iff.mp hat.symm
    simp [ha, fold_field he, Fold.field_construct hnames htypes hf ha]

end Expr

namespace Fold

variable {e e' : Expr} {es : List Expr} {note : Note} {i : Nat}

/-- A constant that is put together of its own parts is the same. -/
theorem fold_rebuilt {c : Constant} (hc : c.WellShaped) (hnames : c.ty.DistinctFields)
    (he : e.fold = .value c) (hes : e.Parts c.ty es) (h : e'.Constructs c.ty es) :
    e'.fold = .value c := by
  obtain ⟨ty, v⟩ := c
  change v.Fits ty at hc
  dsimp only at hes h
  cases hes with
  | scalar =>
    obtain ⟨s, rfl, rfl⟩ := Value.fits_scalar_iff.mp hc
    have hflatten : flatten s.kind [.ofScalar s] = some [s] := by
      rw [← List.map_singleton, flatten_scalars, List.map_singleton, Scalar.convert_kind rfl]
    change e.fold = .value (.ofScalar s) at he
    simp only [h.fold (Expr.foldAll_singleton he), construct, constructValue, hflatten,
      Outcome.ofOption_some, Outcome.value_bind, Outcome.pure_eq]
  | components hplaces =>
    obtain ⟨cs, rfl, hlen, hkind⟩ := Value.fits_vector_iff.mp hc
    rw [h.fold (hplaces.foldAll_components hlen he), construct_vector hlen,
      Scalar.map_convert_kind hkind]
  | columns hplaces =>
    obtain ⟨m, hm⟩ := exists_grid (a := ⟨_, v⟩) ⟨rfl, hc⟩
    rw [hm] at he ⊢
    rw [h.fold (hplaces.foldAll_columns he), construct_columns]
  | entries hentries =>
    obtain ⟨m, hm⟩ := exists_grid (a := ⟨_, v⟩) ⟨rfl, hc⟩
    rw [hm] at he ⊢
    rw [h.fold (hentries.foldAll he),
      construct_matrix (by rw [List.length_map, Grid.length_toList])]
    simp [ofGrid, Function.comp_def, Scalar.toBinary32]
  | fields note =>
    obtain ⟨values, rfl, hfit⟩ := Value.fits_struct_iff.mp hc
    obtain ⟨htypes, hvalues⟩ := fieldConstants_types hfit
    rw [h.fold (Expr.foldAll_fields hnames hfit he note), construct_struct htypes, hvalues]
  | @elements t n es hplaces =>
    obtain ⟨values, rfl, hn, -⟩ := Value.fits_array_iff.mp hc
    obtain rfl := Option.some.inj hn
    have hconstruct := construct_array (show ∀ a ∈ values.map (Constant.mk t), a.ty = t by simp)
    rw [h.fold (hplaces.foldAll_elements he)]
    simpa [Function.comp_def] using hconstruct

variable {cs : List Constant} {a ix jx : Expr}

theorem fold_constructed_field {id : Nat} {tag : Option String} {fields : List (String × Ty)}
    {f : String × Ty} (hnames : (fields.map Prod.fst).Nodup)
    (h : e.Constructs (.struct id tag fields) es) (hes : Expr.foldAll es = .value cs)
    (hty : fields.map Prod.snd = cs.map Constant.ty) (hf : fields[i]? = some f)
    (ha : es[i]? = some a) : (Expr.field e f.1 note).fold = a.fold := by
  obtain ⟨c, hc, hfold⟩ := Expr.fold_of_foldAll hes ha
  rw [Expr.fold_field ((h.fold hes).trans (construct_struct hty)),
    field_construct hnames hty hf hc, hfold]

theorem fold_constructed_element {t : Ty} {n : Nat} (h : e.Constructs (.array t (some n)) es)
    (hes : Expr.foldAll es = .value cs) (hlen : cs.length = n) (hty : ∀ c ∈ cs, c.ty = t)
    (ha : es[i]? = some a) (hix : ix.Picks i) : (Expr.index e ix note).fold = a.fold := by
  obtain ⟨c, hc, hfold⟩ := Expr.fold_of_foldAll hes ha
  subst hlen
  rw [hfold]
  refine Expr.fold_index ((h.fold hes).trans (construct_array hty)) hix fun p hp => ?_
  rw [index_array hp (v := c.value) (by simp [hc]), ← hty c (List.mem_of_getElem? hc)]

theorem fold_constructed_component {k : ScalarKind} {n : Dim} {ss : List Scalar} {s : Scalar}
    (h : e.Constructs (.basic (.vector k n)) es)
    (hes : Expr.foldAll es = .value (ss.map .ofScalar)) (hlen : ss.length = n.toNat)
    (hs : ss[i]? = some s) (hix : ix.Picks i) :
    (Expr.index e ix note).fold = .value (.ofScalar (s.convert k)) := by
  refine Expr.fold_index ((h.fold hes).trans (construct_vector hlen)) hix fun p hp => ?_
  exact index_vector hp (by simp [hs])

theorem fold_constructed_entry {c r : Dim} {ss : List Scalar} {s : Scalar} {j : Nat} {inner : Note}
    (h : e.Constructs (.basic (.matrix c r)) es)
    (hes : Expr.foldAll es = .value (ss.map .ofScalar)) (hlen : ss.length = c.toNat * r.toNat)
    (hi : i < c.toNat) (hj : j < r.toNat) (hs : ss[i * r.toNat + j]? = some s)
    (hix : ix.Picks i) (hjx : jx.Picks j) :
    (Expr.index (.index e ix inner) jx note).fold = .value (.ofScalar (s.convert .float)) := by
  have hgrid : e.fold = .value (ofGrid c r (Grid.ofList .zero r.toNat
      (ss.map Scalar.toBinary32))) := by
    rw [h.fold hes, construct_matrix hlen, ofGrid,
      Grid.toList_ofList _ (by rw [List.length_map, hlen])]
  refine Expr.fold_index (Expr.fold_index hgrid hix fun p hp => index_ofGrid hp hi) hjx
    fun p hp => ?_
  exact index_vector hp (by simp [hj, Grid.ofList, hs, Scalar.convert])

theorem fold_resized_back {c r c' r' : Dim} {m : Constant} {x : Expr}
    (hm : Has (.basic (.matrix c r)) m) (hx : x.fold = .value m) (hc : c.toNat ≤ c'.toNat)
    (hr : r.toNat ≤ r'.toNat) (h : e.Constructs (.basic (.matrix c' r')) [x])
    (h' : e'.Constructs (.basic (.matrix c r)) [e]) : e'.fold = .value m := by
  obtain ⟨m, rfl⟩ := exists_grid hm
  have hlarge := h.fold (Expr.foldAll_singleton hx)
  rw [construct_resized] at hlarge
  rw [h'.fold (Expr.foldAll_singleton hlarge), construct_resized]
  refine congrArg Outcome.value (ofGrid_congr fun i hi j hj => ?_)
  simp [hi, hj, Nat.lt_of_lt_of_le hi hc, Nat.lt_of_lt_of_le hj hr]

end Fold

namespace Bind

theorem memberNames_nodup (base : Option Ty) (ms : List MemberName) {fields : List Field}
    (h : (fields.map Field.name).Nodup) :
    Returns (memberNames base ms fields) fun r => (r.2.map Field.name).Nodup := by
  induction ms generalizing fields with
  | nil =>
    unfold memberNames
    exact .pure h
  | cons m ms ih =>
    unfold memberNames
    refine returns_then fun suffix => returns_then fun ty => ?_
    simp only [pure_bind]
    split
    · exact returns_then fun _ => (ih h).bind fun r hr => .pure hr
    · rename_i hnew
      refine (ih ?_).bind fun r hr => .pure hr
      have hnew : ∀ f ∈ fields, f.name ≠ m.name := by simpa using hnew
      cases ty with
      | none => simpa using h
      | some t =>
        rw [List.map_append]
        refine List.nodup_append.mpr ⟨h, by simp, fun x hx y hy => ?_⟩
        obtain ⟨f, hf, rfl⟩ := List.mem_map.mp hx
        obtain rfl : y = m.name := by simpa using hy
        exact hnew f hf

theorem memberLines_nodup (ms : List (Member TypeSpec)) {fields : List Field}
    (h : (fields.map Field.name).Nodup) :
    Returns (memberLines ms fields) fun r => (r.2.map Field.name).Nodup := by
  induction ms generalizing fields with
  | nil =>
    unfold memberLines
    exact .pure h
  | cons m ms ih =>
    unfold memberLines
    refine returns_then fun _ => returns_then fun spec => ?_
    refine (memberNames_nodup spec.ty m.names h).bind fun names hnames => ?_
    exact (ih hnames).bind fun rest hrest => .pure hrest

/-- Whatever its members are, a declared struct has fields of different names. -/
theorem declaredFields_nodup (ms : List (Member TypeSpec)) (s : BindState) :
    ((((memberLines ms []).run s).1.2.map Field.entry).map Prod.fst).Nodup := by
  rw [List.map_map]
  have hnone : (([] : List Field).map Field.name).Nodup := List.nodup_nil
  exact memberLines_nodup ms hnone s

end Bind

/-- What a constructor was given is selected from what it makes: the fields of a struct, which by
declaration have different names, the elements of an array, the components of a vector and the
entries of a matrix, which are converted. A constant is made again out of all its parts, and a
matrix is the same after a larger shape. -/
theorem constructors_invert_selection :
    (∀ id tag fields es cs e, (fields.map Prod.fst).Nodup →
      Expr.Constructs e (.struct id tag fields) es → Expr.foldAll es = .value cs →
      fields.map Prod.snd = cs.map Constant.ty → ∀ (i : Nat) f a note, fields[i]? = some f →
        es[i]? = some a → (Expr.field e f.1 note).fold = a.fold) ∧
    (∀ ms s, ((((Bind.memberLines ms []).run s).1.2.map Field.entry).map Prod.fst).Nodup) ∧
    (∀ t n es cs e, Expr.Constructs e (.array t (some n)) es → Expr.foldAll es = .value cs →
      cs.length = n → (∀ c ∈ cs, c.ty = t) → ∀ i a ix note, es[i]? = some a → ix.Picks i →
        (Expr.index e ix note).fold = a.fold) ∧
    (∀ k n es (ss : List Scalar) e, Expr.Constructs e (.basic (.vector k n)) es →
      Expr.foldAll es = .value (ss.map .ofScalar) → ss.length = n.toNat →
      ∀ i s ix note, ss[i]? = some s → ix.Picks i →
        (Expr.index e ix note).fold = .value (.ofScalar (s.convert k))) ∧
    (∀ c r es (ss : List Scalar) e, Expr.Constructs e (.basic (.matrix c r)) es →
      Expr.foldAll es = .value (ss.map .ofScalar) → ss.length = c.toNat * r.toNat →
      ∀ i < c.toNat, ∀ j < r.toNat, ∀ s ix jx inner note, ss[i * r.toNat + j]? = some s →
        ix.Picks i → jx.Picks j →
        (Expr.index (.index e ix inner) jx note).fold = .value (.ofScalar (s.convert .float))) ∧
    (∀ (c : Constant) (e : Expr) es e', c.WellShaped → c.ty.DistinctFields → e.fold = .value c →
      e.Parts c.ty es → Expr.Constructs e' c.ty es → e'.fold = .value c) ∧
    ∀ c r c' r' m (x : Expr) e e', Fold.Has (.basic (.matrix c r)) m → x.fold = .value m →
      c.toNat ≤ c'.toNat → r.toNat ≤ r'.toNat → Expr.Constructs e (.basic (.matrix c' r')) [x] →
      Expr.Constructs e' (.basic (.matrix c r)) [e] → e'.fold = .value m := by
  refine ⟨?_, Bind.declaredFields_nodup, ?_, ?_, ?_, ?_, ?_⟩
  · intro id tag fields es cs e hnames h hes hty i f a note hf ha
    exact Fold.fold_constructed_field hnames h hes hty hf ha
  · intro t n es cs e h hes hlen hty i a ix note ha hix
    exact Fold.fold_constructed_element h hes hlen hty ha hix
  · intro k n es ss e h hes hlen i s ix note hs hix
    exact Fold.fold_constructed_component h hes hlen hs hix
  · intro c r es ss e h hes hlen i hi j hj s ix jx inner note hs hix hjx
    exact Fold.fold_constructed_entry h hes hlen hi hj hs hix hjx
  · intro c e es e' hc hnames he hes h
    exact Fold.fold_rebuilt hc hnames he hes h
  · intro c r c' r' m x e e' hm hx hc hr h h'
    exact Fold.fold_resized_back hm hx hc hr h h'

def Expr.made (ty : Ty) (args : List Expr) : Expr :=
  .call ⟨.named ty.constructorName, ⟨0, 0⟩⟩ none args (.constructor ty) ⟨⟨0, 0⟩, none⟩

theorem Expr.constructs_made (ty : Ty) (args : List Expr) : (made ty args).Constructs ty args :=
  ⟨_, _, _, rfl⟩

/-- A struct type of a switch and a count. -/
def Ty.switch : Ty :=
  .struct 1 (some "Switch") [("on", .bool), ("count", .int)]

theorem constructors_invert_selection_switch :
    let note : Note := ⟨⟨0, 0⟩, none⟩
    let yes := Expr.bool true note
    let no := Expr.bool false note
    let one := Expr.int "1" note
    let switch := Expr.made .switch [yes, one]
    let square := Expr.made (.basic (.matrix .two .two)) [yes]
    (Expr.field switch "count" note).fold = one.fold ∧
      (Expr.index (.made (.array .bool (some 2)) [no, yes]) one note).fold = yes.fold ∧
      (Expr.index (.made (.basic (.vector .int .two)) [no, yes]) one note).fold = one.fold ∧
      (Expr.index (.index (.made (.basic (.matrix .two .two)) [no, no, no, yes]) one note) one
        note).fold = .value (.ofScalar (.float .one)) ∧
      (Expr.made .switch [.field switch "on" note, .field switch "count" note]).fold = switch.fold ∧
      (Expr.made (.basic (.matrix .two .two))
        [.made (.basic (.matrix .four .three)) [square]]).fold = square.fold := by
  intro note yes no one switch square
  obtain ⟨hfield, -, helement, hcomponent, hentry, hrebuilt, hback⟩ :=
    constructors_invert_selection
  have hone : one.Picks 1 := ⟨.ofScalar (.int 1), rfl, rfl, rfl⟩
  refine ⟨?_, ?_, ?_, ?_, ?_, ?_⟩
  · exact hfield 1 (some "Switch") [("on", .bool), ("count", .int)] [yes, one]
      [.ofBool true, .ofScalar (.int 1)] switch (by decide) (Expr.constructs_made _ _) rfl rfl 1
      ("count", .int) one note rfl rfl
  · exact helement .bool 2 [no, yes] [.ofBool false, .ofBool true] _ (Expr.constructs_made _ _) rfl
      rfl (by decide) 1 yes one note rfl hone
  · exact hcomponent .int .two [no, yes] [.bool false, .bool true] _ (Expr.constructs_made _ _) rfl
      rfl 1 (.bool true) one note rfl hone
  · exact hentry .two .two [no, no, no, yes] [.bool false, .bool false, .bool false, .bool true] _
      (Expr.constructs_made _ _) rfl rfl 1 (by decide) 1 (by decide) (.bool true) one one note note
      rfl hone hone
  · exact hrebuilt ⟨.switch, .struct [("on", .scalar (.bool true)), ("count", .scalar (.int 1))]⟩
      switch _ _ ⟨rfl, rfl, rfl, rfl, trivial⟩ (by simp [Ty.DistinctFields, Ty.switch]) rfl
      (.fields fun _ => note)
      (Expr.constructs_made _ _)
  · exact hback .two .two .four .three ⟨.basic (.matrix .two .two),
      .matrix 2 2 [.one, .zero, .zero, .one]⟩ square _ _ ⟨rfl, rfl, rfl, rfl⟩ rfl (by decide)
      (by decide) (Expr.constructs_made _ _) (Expr.constructs_made _ _)

end Shader
