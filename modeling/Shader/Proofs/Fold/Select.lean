import Shader.Fold
import Shader.Proofs.Fold.Construct

/-! Selecting from constants. A matrix is a grid whose entries stand column after column, so its
columns, its entries and its other shapes are read off the grid. -/

namespace Shader

namespace Grid

variable {K : Type} {cols rows c r : Nat} {m : Grid K}

theorem toList_succ (cols rows : Nat) (m : Grid K) :
    toList (cols + 1) rows m = toList cols rows m ++ (List.range rows).map (m cols) := by
  simp [toList, List.range_succ]

theorem getElem?_toList (hc : c < cols) (hr : r < rows) :
    (toList cols rows m)[c * rows + r]? = some (m c r) := by
  induction cols with
  | zero => omega
  | succ n ih =>
    rw [toList_succ]
    by_cases hn : c < n
    · have hstep : (c + 1) * rows ≤ n * rows := Nat.mul_le_mul_right _ hn
      rw [Nat.add_one_mul] at hstep
      rw [List.getElem?_append_left (by rw [length_toList]; omega), ih hn]
    · obtain rfl : c = n := by omega
      rw [List.getElem?_append_right (by rw [length_toList]; omega), length_toList,
        Nat.add_sub_cancel_left]
      simp [hr]

theorem ofList_toList (outside : K) (hc : c < cols) (hr : r < rows) :
    ofList outside rows (toList cols rows m) c r = m c r := by
  rw [ofList, List.getD_eq_getElem?_getD, getElem?_toList hc hr, Option.getD_some]

theorem toList_congr {n : Grid K} (h : ∀ c < cols, ∀ r < rows, m c r = n c r) :
    toList cols rows m = toList cols rows n := by
  induction cols with
  | zero => rfl
  | succ k ih =>
    rw [toList_succ, toList_succ, ih fun c hc => h c (by omega)]
    congr 1
    exact List.map_congr_left fun r hr => h k (by omega) r (List.mem_range.mp hr)

theorem map_toList {L : Type} (f : K → L) (cols rows : Nat) (m : Grid K) :
    (toList cols rows m).map f = toList cols rows fun c r => f (m c r) := by
  simp [toList, List.map_flatMap, Function.comp_def]

theorem toList_ofList (outside : K) {entries : List K} (h : entries.length = cols * rows) :
    toList cols rows (ofList outside rows entries) = entries := by
  refine List.ext_getElem? fun i => ?_
  by_cases hi : i < cols * rows
  · have hrows : 0 < rows := Nat.pos_of_ne_zero fun h0 => by simp [h0] at hi
    have hplace : i / rows * rows + i % rows = i := Nat.div_add_mod' i rows
    have hc : i / rows < cols := Nat.div_lt_of_lt_mul (by rwa [Nat.mul_comm])
    have hget := getElem?_toList (m := ofList outside rows entries) hc (Nat.mod_lt i hrows)
    rw [hplace] at hget
    rw [hget, ofList, hplace, List.getD_eq_getElem?_getD]
    simp [List.getElem?_eq_getElem (h ▸ hi)]
  · rw [List.getElem?_eq_none (by rw [length_toList]; omega), List.getElem?_eq_none (by omega)]

theorem column_toList (hc : c < cols) :
    ((toList cols rows m).drop (c * rows)).take rows = (List.range rows).map (m c) := by
  induction cols with
  | zero => omega
  | succ n ih =>
    rw [toList_succ]
    by_cases hn : c < n
    · have hstep : (c + 1) * rows ≤ n * rows := Nat.mul_le_mul_right _ hn
      rw [Nat.add_one_mul] at hstep
      rw [List.drop_append_of_le_length (by rw [length_toList]; omega),
        List.take_append_of_le_length (by rw [List.length_drop, length_toList]; omega), ih hn]
    · obtain rfl : c = n := by omega
      rw [← length_toList c rows m, List.drop_left]
      exact List.take_of_length_le (by simp)

end Grid

theorem lookup_of_nodup {α : Type} {l : List (String × α)} {x : String} {a : α}
    (hl : (l.map Prod.fst).Nodup) (hx : (x, a) ∈ l) : l.lookup x = some a := by
  obtain ⟨before, rest, rfl⟩ := List.append_of_mem hx
  refine List.lookup_eq_some_iff.mpr ⟨before, rest, rfl, fun p hp => ?_⟩
  rw [List.map_append, List.nodup_append] at hl
  simpa using (hl.2.2 p.1 (List.mem_map_of_mem hp) x (by simp)).symm

namespace Fold

variable {p : Constant} {i : Nat}

theorem index_array {t : Ty} {n : Option Nat} {values : List Value} {v : Value}
    (hp : place? p = some i) (hv : values[i]? = some v) :
    index ⟨.array t n, .array values⟩ p = .value ⟨t, v⟩ := by
  simp [index, hp, hv]

theorem index_vector {k : ScalarKind} {n : Dim} {cs : List Scalar} {s : Scalar}
    (hp : place? p = some i) (hs : cs[i]? = some s) :
    index ⟨.basic (.vector k n), .vector cs⟩ p = .value (.ofScalar s) := by
  simp [index, hp, hs]

def ofGrid (c r : Dim) (m : Grid Binary32) : Constant :=
  ⟨.basic (.matrix c r), .matrix c.toNat r.toNat (m.toList c.toNat r.toNat)⟩

theorem ofGrid_congr {c r : Dim} {m n : Grid Binary32}
    (h : ∀ i < c.toNat, ∀ j < r.toNat, m i j = n i j) : ofGrid c r m = ofGrid c r n := by
  rw [ofGrid, Grid.toList_congr h, ofGrid]

def ofColumn (r : Dim) (m : Grid Binary32) (i : Nat) : Constant :=
  ⟨.basic (.vector .float r), .vector ((List.range r.toNat).map fun j => .float (m i j))⟩

theorem exists_grid {c r : Dim} {a : Constant} (ha : Has (.basic (.matrix c r)) a) :
    ∃ m, a = ofGrid c r m := by
  obtain ⟨ty, v⟩ := a
  obtain ⟨rfl, hv⟩ := ha
  obtain ⟨data, rfl, hlen⟩ := Value.fits_matrix_iff.mp hv
  refine ⟨Grid.ofList .zero r.toNat data, ?_⟩
  rw [ofGrid, Grid.toList_ofList _ hlen]

theorem index_ofGrid {c r : Dim} {m : Grid Binary32} (hp : place? p = some i) (hi : i < c.toNat) :
    index (ofGrid c r m) p = .value (ofColumn r m i) := by
  have hstop : ¬ (m.toList c.toNat r.toNat).length < (i + 1) * r.toNat := by
    rw [Grid.length_toList]
    exact Nat.not_lt.mpr (Nat.mul_le_mul_right _ hi)
  simp only [index, hp, ofGrid, ofColumn, Value.column?, Nat.not_le.mpr hi, hstop,
    Grid.column_toList hi, if_false, Outcome.ofOption_some, Outcome.ofExcept_ok,
    Outcome.value_bind, List.map_map]
  rfl

/-- A matrix of another shape has the entries of both shapes, and is else the identity. -/
theorem resize_toList (cols rows fromCols fromRows : Nat) (m : Grid Binary32) :
    resize cols rows fromCols fromRows (m.toList fromCols fromRows) =
      .value (Grid.toList cols rows fun c r =>
        if c < fromCols ∧ r < fromRows then m c r else diagonal .one c r) := by
  have hentry : ∀ p : Nat × Nat, (if p.1 < fromCols && p.2 < fromRows then
      .ofExcept (component (m.toList fromCols fromRows) (p.1 * fromRows + p.2))
      else .value (diagonal .one p.1 p.2) : Outcome Binary32) =
      .value (if p.1 < fromCols ∧ p.2 < fromRows then m p.1 p.2 else diagonal .one p.1 p.2) := by
    intro p
    by_cases hin : p.1 < fromCols ∧ p.2 < fromRows
    · simp [hin, component, Grid.getElem?_toList hin.1 hin.2]
    · have hout : (decide (p.1 < fromCols) && decide (p.2 < fromRows)) = false := by
        simpa using hin
      simp [hout, hin]
  rw [resize]
  simp only [hentry]
  refine (List.mapM_pure (m := Outcome)).trans ?_
  rw [Outcome.pure_eq, Grid.map_toList]

end Fold

namespace Expr

/-- The expression denotes the place `i`, as a signed or an unsigned integer. -/
def Picks (e : Expr) (i : Nat) : Prop :=
  ∃ c, e.fold = .value c ∧ c.ty.isInteger = true ∧ c.index? = some (i : Int)

theorem Picks.fold {e : Expr} {i : Nat} (h : e.Picks i) :
    ∃ p, e.fold = .value p ∧ Fold.place? p = some i := by
  obtain ⟨p, hp, hinteger, hi⟩ := h
  exact ⟨p, hp, by simp only [Fold.place?, hinteger, hi, if_true]⟩

theorem foldAll_eq_value_iff {es : List Expr} {cs : List Constant} :
    foldAll es = .value cs ↔ es.map fold = cs.map .value := by
  induction es generalizing cs with
  | nil => cases cs <;> simp [foldAll]
  | cons e es ih =>
    constructor
    · intro h
      obtain ⟨c, hc, h⟩ := Outcome.bind_eq_value h
      obtain ⟨ds, hds, h⟩ := Outcome.bind_eq_value h
      cases h
      simp [hc, ih.mp hds]
    · intro h
      cases cs with
      | nil => simp at h
      | cons c cs =>
        obtain ⟨hc, hcs⟩ : e.fold = .value c ∧ es.map fold = cs.map .value := by simpa using h
        simp [foldAll, hc, ih.mpr hcs]

theorem fold_of_foldAll {es : List Expr} {cs : List Constant} {i : Nat} {e : Expr}
    (h : foldAll es = .value cs) (he : es[i]? = some e) :
    ∃ c, cs[i]? = some c ∧ e.fold = .value c := by
  have hat := congrArg (fun l => l[i]?) (foldAll_eq_value_iff.mp h)
  simp only [List.getElem?_map, he, Option.map_some] at hat
  obtain ⟨c, hc, hfold⟩ := Option.map_eq_some_iff.mp hat.symm
  exact ⟨c, hc, hfold.symm⟩

end Expr

end Shader
