import Shader.Proofs.Comparison
import Shader.Proofs.Fold.Access

/-! Swizzles select components. A field is a swizzle if it is spelled in the letters of one
alphabet, and the places of its letters are the places of the components. So a swizzle of a swizzle
is the swizzle that is spelled with the selected letters of the first one. -/

namespace Shader

namespace Swizzle

/-- The list `ds` has the entries of `cs` at the places `is`. -/
def Selects {α : Type} (cs : List α) (is : List Nat) (ds : List α) : Prop :=
  ds.map some = is.map (cs[·]?)

section Selection

variable {α : Type} {cs ds es : List α} {is js ks : List Nat}

theorem Selects.length_eq (h : Selects cs is ds) : ds.length = is.length := by
  simpa using congrArg List.length h

theorem Selects.mem (h : Selects cs is ds) {d : α} (hd : d ∈ ds) : d ∈ cs := by
  have hsome : some d ∈ is.map (cs[·]?) := h ▸ List.mem_map_of_mem hd
  obtain ⟨i, -, hi⟩ := List.mem_map.mp hsome
  exact List.mem_of_getElem? hi

theorem Selects.unique (hd : Selects cs is ds) (he : Selects cs is es) : ds = es :=
  (List.map_inj_right fun _ _ => Option.some.inj).mp (hd.trans he.symm)

theorem exists_selects (cs : List α) (h : ∀ i ∈ is, i < cs.length) : ∃ ds, Selects cs is ds := by
  induction is with
  | nil => exact ⟨[], rfl⟩
  | cons i is ih =>
    obtain ⟨ds, hds⟩ := ih fun j hj => h j (List.mem_cons_of_mem i hj)
    have hi := h i List.mem_cons_self
    exact ⟨cs.get ⟨i, hi⟩ :: ds, List.cons_eq_cons.mpr ⟨(List.getElem?_eq_getElem hi).symm, hds⟩⟩

theorem Selects.trans (hd : Selects cs is ds) (hk : Selects is js ks) :
    Selects ds js es ↔ Selects cs ks es := by
  have hplace : ∀ j : Nat, ds[j]? = is[j]?.bind (cs[·]?) := by
    intro j
    have hj : (ds.map some)[j]? = (is.map (cs[·]?))[j]? := congrArg (·[j]?) hd
    rw [List.getElem?_map, List.getElem?_map] at hj
    cases hi : is[j]? with
    | none => simpa [hi] using hj
    | some i =>
      obtain ⟨d, hd, hc⟩ := Option.map_eq_some_iff.mp (hj.trans (congrArg (Option.map _) hi))
      rw [hd, Option.bind_some, hc]
  have hplaces : js.map (ds[·]?) = ks.map (cs[·]?) :=
    calc js.map (ds[·]?)
      _ = (js.map (is[·]?)).map (Option.bind · (cs[·]?)) := by
        rw [List.map_map]
        exact List.map_congr_left fun j _ => hplace j
      _ = (ks.map some).map (Option.bind · (cs[·]?)) := by rw [hk]
      _ = ks.map (cs[·]?) := List.map_map
  unfold Selects
  rw [hplaces]

end Selection

theorem letter?_eq_some {c : Char} {set i : Nat} :
    letter? c = some (set, i) ↔
      ∃ letters, alphabets[set]? = some letters ∧ letters[i]? = some c := by
  have hletters : ∀ p ∈ alphabets.zipIdx, ∀ q ∈ p.1.zipIdx, letter? q.1 = some (p.2, q.2) := by
    decide +kernel
  constructor
  · intro h
    obtain ⟨⟨letters, place⟩, hmem, hplace⟩ := List.exists_of_findSome?_eq_some h
    obtain ⟨index, hindex, heq⟩ := Option.map_eq_some_iff.mp hplace
    obtain ⟨rfl, rfl⟩ := Prod.mk.inj heq
    obtain ⟨hlt, hc, -⟩ := List.idxOf?_eq_some_iff.mp hindex
    exact ⟨letters, List.mk_mem_zipIdx_iff_getElem?.mp hmem, hc ▸ List.getElem?_eq_getElem hlt⟩
  · rintro ⟨letters, hset, hi⟩
    exact hletters (letters, set) (List.mk_mem_zipIdx_iff_getElem?.mpr hset) (c, i)
      (List.mk_mem_zipIdx_iff_getElem?.mpr hi)

theorem select_eq_ok_iff {field : String} {size : Nat} {set : Option Nat} {cs : List Char}
    {is : List Nat} :
    select field size set cs = .ok is ↔ (∀ i ∈ is, i < size) ∧
      ∃ s, (∀ t ∈ set, t = s) ∧ cs.map letter? = is.map fun i => some (s, i) := by
  induction cs generalizing set is with
  | nil =>
    constructor
    · intro h
      cases h
      exact ⟨by simp, set.getD 0, by cases set <;> simp, rfl⟩
    · rintro ⟨-, s, -, h⟩
      rw [List.map_nil, eq_comm, List.map_eq_nil_iff] at h
      rw [h, select]
  | cons c cs ih =>
    simp only [select_cons, ih]
    constructor
    · rintro ⟨s, i, js, hc, hset, hi, ⟨hjs, s', hs, hcs⟩, rfl⟩
      obtain rfl := hs s rfl
      exact ⟨List.forall_mem_cons.mpr ⟨hi, hjs⟩, s, hset, List.cons_eq_cons.mpr ⟨hc, hcs⟩⟩
    · rintro ⟨hlt, s, hset, hcs⟩
      cases is with
      | nil => cases hcs
      | cons i js =>
        obtain ⟨hc, hcs⟩ := List.cons_eq_cons.mp hcs
        obtain ⟨hi, hjs⟩ := List.forall_mem_cons.mp hlt
        exact ⟨s, i, js, hc, hset, hi, ⟨hjs, s, fun t ht => (Option.some.inj ht).symm, hcs⟩, rfl⟩

theorem utf8ByteSize_eq_length {cs : List Char} (h : ∀ c ∈ cs, c.utf8Size = 1) :
    (String.ofList cs).utf8ByteSize = cs.length := by
  induction cs with
  | nil => simp
  | cons c cs ih =>
    obtain ⟨hc, hcs⟩ := List.forall_mem_cons.mp h
    rw [← List.singleton_append, String.ofList_append, String.utf8ByteSize_append, ih hcs,
      List.length_append]
    simp [hc]

theorem map_letter?_iff {cs letters : List Char} {is : List Nat} {set : Nat}
    (hset : alphabets[set]? = some letters) :
    cs.map letter? = is.map (fun i => some (set, i)) ↔ Selects letters is cs := by
  induction cs generalizing is with
  | nil => cases is <;> simp [Selects]
  | cons c cs ih =>
    cases is with
    | nil => simp [Selects]
    | cons i is =>
      have hc : letter? c = some (set, i) ↔ some c = letters[i]? := by
        rw [letter?_eq_some, hset]
        constructor
        · rintro ⟨_, heq, h⟩
          cases heq
          exact h.symm
        · intro h
          exact ⟨letters, rfl, h.symm⟩
      unfold Selects at ih ⊢
      simp only [List.map_cons, List.cons.injEq, hc, ih]

/-- A field is a swizzle exactly if it is spelled in one alphabet. -/
theorem indices_eq_ok_iff {field : String} {size : Nat} {is : List Nat} :
    indices field size = .ok is ↔ (1 ≤ is.length ∧ is.length ≤ 4) ∧ (∀ i ∈ is, i < size) ∧
      ∃ letters ∈ alphabets, Selects letters is field.toList := by
  constructor
  · intro h
    have hlength := indices_length h
    refine ⟨hlength, indices_lt h, ?_⟩
    unfold indices at h
    split at h
    · cases h
    · obtain ⟨-, set, -, hletters⟩ := select_eq_ok_iff.mp h
      -- The first letter tells the alphabet.
      obtain ⟨i, js, rfl⟩ := List.exists_cons_of_length_pos hlength.1
      obtain ⟨c, cs, -, hc, -⟩ := List.map_eq_cons_iff.mp hletters
      obtain ⟨letters, hset, -⟩ := letter?_eq_some.mp hc
      exact ⟨letters, List.mem_of_getElem? hset, (map_letter?_iff hset).mp hletters⟩
  · rintro ⟨⟨hone, hfour⟩, hlt, letters, hmem, hselects⟩
    have hascii : alphabets.flatten.all (·.utf8Size = 1) = true := by rfl
    have hsize : field.utf8ByteSize = is.length := by
      rw [← hselects.length_eq, ← utf8ByteSize_eq_length, String.ofList_toList]
      exact fun c hc => of_decide_eq_true (List.all_eq_true.mp hascii c
        (List.mem_flatten_of_mem hmem (hselects.mem hc)))
    obtain ⟨set, hset⟩ := List.getElem?_of_mem hmem
    have hbytes : ¬ (field.utf8ByteSize = 0 || 4 < field.utf8ByteSize) = true := by
      simp only [hsize, Bool.or_eq_true, decide_eq_true_eq]
      omega
    rw [indices, if_neg hbytes, select_eq_ok_iff]
    exact ⟨hlt, set, by simp, (map_letter?_iff hset).mpr hselects⟩

end Swizzle

theorem BasicTy.exists_ofComponents_eq_vector {k : ScalarKind} {n : Nat} (h2 : 2 ≤ n) (h4 : n ≤ 4) :
    ∃ d : Dim, d.toNat = n ∧ BasicTy.ofComponents k n = .vector k d := by
  obtain rfl | rfl | rfl : n = 2 ∨ n = 3 ∨ n = 4 := by omega
  · exact ⟨.two, rfl, rfl⟩
  · exact ⟨.three, rfl, rfl⟩
  · exact ⟨.four, rfl, rfl⟩

namespace Fold

open Swizzle

theorem mapM_component {cs ds : List Scalar} {is : List Nat} (h : Selects cs is ds) :
    is.mapM (fun i => Outcome.ofExcept (component cs i)) = .value ds := by
  induction is generalizing ds with
  | nil =>
    rw [List.map_eq_nil_iff.mp h]
    rfl
  | cons i is ih =>
    obtain ⟨d, rest, rfl, hd, hrest⟩ := List.map_eq_cons_iff.mp h
    have hplace : cs[i]? = some d := hd.symm
    rw [List.mapM_cons, ih hrest, component, hplace]
    rfl

theorem field_selects {v : Constant} {k : ScalarKind} {n : Dim} {s : String} {is : List Nat}
    (hv : Has (.basic (.vector k n)) v) (hs : indices s n.toNat = .ok is) :
    ∃ c, field v s = .value c ∧ Has (.basic (.ofComponents k is.length)) c ∧
      Selects v.value.components is c.value.components := by
  obtain ⟨ty, v⟩ := v
  obtain ⟨rfl, hfits⟩ := hv
  obtain ⟨cs, rfl, hlen, hkind⟩ := Value.fits_vector_iff.mp hfits
  obtain ⟨hone, hfour⟩ := indices_length hs
  obtain ⟨ds, hds⟩ := exists_selects cs (hlen ▸ indices_lt hs)
  have hk := BasicTy.componentKind?_ofComponents k is.length
  have hcount : ds.length = (BasicTy.ofComponents k is.length).componentCount := by
    rw [BasicTy.componentCount_ofComponents hone hfour, hds.length_eq]
  have hkinds : ∀ d ∈ ds, d.kind = k := fun d hd => hkind d (hds.mem hd)
  obtain ⟨w, hw, hfits⟩ := Value.ofComponents_fits hk hcount hkinds
  refine ⟨⟨.basic (.ofComponents k is.length), w⟩, ?_, ⟨rfl, hfits⟩, ?_⟩
  · simp only [field, hs, Except.toOption, Outcome.ofOption_some, Outcome.value_bind,
      Value.components, mapM_component hds, hds.length_eq, ofComponents, hw, Outcome.ofExcept_ok]
    rfl
  · show Selects cs is w.components
    rw [Value.components_ofComponents hk hcount hkinds hw]
    exact hds

theorem Has.eq_of_components {c d : Constant} {k : ScalarKind} {n : Nat}
    (hc : Has (.basic (.ofComponents k n)) c) (hd : Has (.basic (.ofComponents k n)) d)
    (h : c.value.components = d.value.components) : c = d := by
  obtain ⟨ty, v⟩ := c
  obtain ⟨ty', w⟩ := d
  obtain ⟨rfl, hv⟩ := hc
  obtain ⟨rfl, hw⟩ := hd
  change v.components = w.components at h
  change v.Fits _ at hv
  change w.Fits _ at hw
  have hvalue : v = w := by
    unfold BasicTy.ofComponents at hv hw
    cases hdim : Dim.ofNat? n with
    | none =>
      rw [hdim] at hv hw
      obtain ⟨s, rfl, -⟩ := Value.fits_scalar_iff.mp hv
      obtain ⟨t, rfl, -⟩ := Value.fits_scalar_iff.mp hw
      exact congrArg Value.scalar (List.singleton_inj.mp h)
    | some d =>
      rw [hdim] at hv hw
      obtain ⟨cs, rfl, -⟩ := Value.fits_vector_iff.mp hv
      obtain ⟨ds, rfl, -⟩ := Value.fits_vector_iff.mp hw
      exact congrArg Value.vector h
  rw [hvalue]

end Fold

open Swizzle

/-- The swizzles of a vector are the words of at most 4 letters of one alphabet, and a swizzle of a
swizzle is the swizzle of the selected letters. -/
theorem swizzles_compose :
    (∀ (field : String) (size : Nat) (is : List Nat), indices field size = .ok is ↔
      (1 ≤ is.length ∧ is.length ≤ 4) ∧ (∀ i ∈ is, i < size) ∧
        ∃ letters ∈ ["xyzw", "rgba", "stpq"], Selects letters.toList is field.toList) ∧
    ∀ (e : Expr) (v : Constant) (k : ScalarKind) (n : Dim) (s t : String) (is js : List Nat),
      Fold.Has (.basic (.vector k n)) v → e.fold = .value v → indices s n.toNat = .ok is →
      2 ≤ is.length → indices t is.length = .ok js →
      ∃ u ks c, Selects s.toList js u.toList ∧ Selects is js ks ∧ indices u n.toNat = .ok ks ∧
        Fold.Has (.basic (.ofComponents k js.length)) c ∧
        Selects v.value.components ks c.value.components ∧
        (∀ l m, (Expr.field (.field e s l) t m).fold = .value c) ∧
        ∀ l, (Expr.field e u l).fold = .value c := by
  constructor
  · intro field size is
    have hwords : alphabets = ["xyzw", "rgba", "stpq"].map String.toList := by decide
    rw [indices_eq_ok_iff, hwords]
    constructor
    · rintro ⟨hlength, hlt, letters, hmem, h⟩
      obtain ⟨word, hword, rfl⟩ := List.mem_map.mp hmem
      exact ⟨hlength, hlt, word, hword, h⟩
    · rintro ⟨hlength, hlt, word, hword, h⟩
      exact ⟨hlength, hlt, word.toList, List.mem_map_of_mem hword, h⟩
  · intro e v k n s t is js hv he hs htwo ht
    obtain ⟨-, hlt, letters, hmem, hspelled⟩ := indices_eq_ok_iff.mp hs
    have hjs := indices_lt ht
    obtain ⟨ks, hks⟩ := exists_selects is hjs
    obtain ⟨us, hus⟩ := exists_selects s.toList (hspelled.length_eq ▸ hjs)
    have hlength := hks.length_eq
    have hu : indices (.ofList us) n.toNat = .ok ks := by
      refine indices_eq_ok_iff.mpr ⟨hlength ▸ indices_length ht, ?_, letters, hmem, ?_⟩
      · exact fun i hi => hlt i (hks.mem hi)
      · rw [String.toList_ofList]
        exact (hspelled.trans hks).mp hus
    obtain ⟨b, hb, hbtype, hbs⟩ := Fold.field_selects hv hs
    obtain ⟨d, hd, hvector⟩ :=
      BasicTy.exists_ofComponents_eq_vector (k := k) htwo (indices_length hs).2
    obtain ⟨c, hc, hctype, hcs⟩ := Fold.field_selects (hvector ▸ hbtype) (hd ▸ ht)
    obtain ⟨a, ha, hatype, has⟩ := Fold.field_selects hv hu
    have hcs := (hbs.trans hks).mp hcs
    obtain rfl : a = c := (hlength ▸ hatype).eq_of_components hctype (has.unique hcs)
    refine ⟨.ofList us, ks, a, ?_, hks, hu, hctype, hcs, fun l m => ?_, fun l => ?_⟩
    · rwa [String.toList_ofList]
    · simp [Expr.fold, he, hb, hc]
    · simp [Expr.fold, he, ha]

/-- The alphabets of the two swizzles may differ; the first one tells the letters. -/
theorem swizzles_compose_colors :
    let e : Expr := .reference "v" (.vec2 .zero .one)
    let note : Note := ⟨⟨0, 0⟩, none⟩
    indices "grg" 2 = .ok [1, 0, 1] ∧ indices "pt" 3 = .ok [2, 1] ∧
      ∃ c, (Expr.field (.field e "grg" note) "pt" note).fold = .value c ∧
        (Expr.field e "gr" note).fold = .value c ∧
        c.value.components = [.float .one, .float .zero] := by
  intro e note
  have hs : indices "grg" 2 = .ok [1, 0, 1] := by rfl
  have ht : indices "pt" 3 = .ok [2, 1] := by rfl
  obtain ⟨u, ks, c, hu, hks, -, -, hcs, hst, hvu⟩ := swizzles_compose.2 e _ .float .two "grg" "pt"
    [1, 0, 1] [2, 1] (Constant.has_vec2 .zero .one) rfl hs (by decide) ht
  have hgr : Selects "grg".toList [2, 1] "gr".toList := by
    unfold Selects
    decide
  obtain rfl : u = "gr" := String.toList_inj.mp (hu.unique hgr)
  obtain rfl : ks = [1, 0] := hks.unique rfl
  exact ⟨hs, ht, c, hst note note, hvu note, hcs.unique rfl⟩

end Shader
