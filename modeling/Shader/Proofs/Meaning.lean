import Shader.Bind.Expr
import Shader.Proofs.Fold.Construct

/-! What parsed expressions come to when they are bound and folded, up to the bits of NaN. -/

namespace Shader

/-- The number, with one pattern for all NaNs. -/
def Binary32.canonical (x : Binary32) : Binary32 :=
  if x.isNaN then nan else x

def Scalar.canonical : Scalar → Scalar
  | float x => float x.canonical
  | s => s

namespace Value

mutual

def canonical : Value → Value
  | scalar s => scalar s.canonical
  | vector cs => vector (cs.map Scalar.canonical)
  | matrix cols rows data => matrix cols rows (data.map Binary32.canonical)
  | struct fields => struct (canonicalFields fields)
  | array elements => array (canonicalElements elements)

def canonicalFields : List (String × Value) → List (String × Value)
  | [] => []
  | (x, v) :: rest => (x, v.canonical) :: canonicalFields rest

def canonicalElements : List Value → List Value
  | [] => []
  | v :: vs => v.canonical :: canonicalElements vs

end

theorem canonicalElements_eq_map (vs : List Value) :
    canonicalElements vs = vs.map canonical := by
  induction vs with
  | nil => rfl
  | cons v vs ih => simp [canonicalElements, ih]

end Value

theorem Scalar.kind_canonical (s : Scalar) : s.canonical.kind = s.kind := by
  cases s <;> rfl

theorem Value.canonical_eq_scalar {v : Value} {s : Scalar}
    (h : v.canonical = .scalar s.canonical) : ∃ r, v = .scalar r ∧ r.canonical = s.canonical := by
  cases v with
  | scalar r => exact ⟨r, rfl, Value.scalar.inj h⟩
  | _ => cases h

theorem Binary32.eq_of_canonical {x y : Binary32} (h : x.canonical = y.canonical)
    (hy : y.isNaN = false) : x = y := by
  have hyx : y = x.canonical := by rw [h]; simp [canonical, hy]
  by_cases hx : x.isNaN = true
  · have hnan : y = nan := by simpa [canonical, hx] using hyx
    rw [hnan] at hy
    exact absurd hy (by decide)
  · simpa [canonical, hx] using hyx.symm

theorem Value.eq_float_of_canonical {v : Value} {x : Binary32}
    (h : v.canonical = (Value.scalar (.float x)).canonical) (hx : x.isNaN = false) :
    v = .scalar (.float x) := by
  obtain ⟨r, rfl, hr⟩ := Value.canonical_eq_scalar (s := .float x) h
  cases r with
  | float y => rw [Binary32.eq_of_canonical (Scalar.float.inj hr) hx]
  | _ => cases hr

/-- The constants have the types and, up to the bits of NaN, the values. -/
structure AreOf (cs : List Constant) (ts : List Ty) (vs : List Value) : Prop where
  tys : cs.map Constant.ty = ts
  values : cs.map (fun c => c.value.canonical) = vs.map Value.canonical

namespace Fold

/-- The constructor gives the value, up to the bits of NaN. -/
def Builds (t : Ty) (cs : List Constant) (v : Value) : Prop :=
  ∃ w, construct t cs = .value ⟨t, w⟩ ∧ w.canonical = v.canonical

theorem areOf_scalars {k : ScalarKind} {ss : List Scalar} (hk : ∀ s ∈ ss, s.kind = k)
    {cs : List Constant} (h : AreOf cs (ss.map fun _ => .scalar k) (ss.map .scalar)) :
    ∃ rs : List Scalar, cs = rs.map .ofScalar ∧
      rs.map Scalar.canonical = ss.map Scalar.canonical ∧ ∀ r ∈ rs, r.kind = k := by
  induction ss generalizing cs with
  | nil =>
    have hnil := h.tys
    simp only [List.map_nil, List.map_eq_nil_iff] at hnil
    exact ⟨[], hnil, rfl, by simp⟩
  | cons s ss ih =>
    obtain ⟨htys, hvalues⟩ := h
    obtain ⟨⟨ty, v⟩, cs, rfl, hty, hrest⟩ := List.map_eq_cons_iff.mp htys
    simp only [List.map_cons, List.cons.injEq] at hvalues
    obtain ⟨r, rfl, hr⟩ := Value.canonical_eq_scalar hvalues.1
    obtain ⟨rs, rfl, hrs, hkinds⟩ := ih (fun a ha => hk a (by simp [ha])) ⟨hrest, hvalues.2⟩
    have hkind : r.kind = k := by
      rw [← Scalar.kind_canonical, hr, Scalar.kind_canonical, hk s (by simp)]
    refine ⟨r :: rs, ?_, by simp [hr, hrs], by simpa using ⟨hkind, hkinds⟩⟩
    obtain rfl : ty = .scalar k := hty
    rw [List.map_cons, Constant.ofScalar, hkind]

theorem builds_vector {k : ScalarKind} {n : Dim} {ss : List Scalar}
    (hfit : (Value.vector ss).Fits (.basic (.vector k n))) {cs : List Constant}
    (h : AreOf cs (ss.map fun _ => .scalar k) (ss.map .scalar)) :
    Builds (.basic (.vector k n)) cs (.vector ss) := by
  obtain ⟨hlength, hkinds⟩ := hfit
  obtain ⟨rs, rfl, hrs, hk⟩ := areOf_scalars hkinds h
  have hlen : rs.length = n.toNat := by
    rw [← hlength]
    simpa using congrArg List.length hrs
  refine ⟨.vector rs, ?_, by simp [Value.canonical, hrs]⟩
  rw [construct_vector hlen, Scalar.map_convert_kind hk]

theorem canonical_toBinary32 {r : Scalar} (h : r.kind = .float) :
    r.toBinary32.canonical = r.canonical.toBinary32 := by
  obtain ⟨x, rfl⟩ := Scalar.kind_eq_float.mp h
  rfl

theorem builds_matrix {c r : Dim} {data : List Binary32}
    (hfit : (Value.matrix c.toNat r.toNat data).Fits (.basic (.matrix c r))) {cs : List Constant}
    (h : AreOf cs (data.map fun _ => .float) (data.map fun x => .scalar (.float x))) :
    Builds (.basic (.matrix c r)) cs (.matrix c.toNat r.toNat data) := by
  have hkinds : ∀ s ∈ data.map Scalar.float, s.kind = .float := by
    simp
  have hscalars : AreOf cs ((data.map Scalar.float).map fun _ => .scalar .float)
      ((data.map Scalar.float).map .scalar) := by
    rw [List.map_map, List.map_map]
    exact h
  obtain ⟨rs, rfl, hrs, hk⟩ := areOf_scalars hkinds hscalars
  have hlen : rs.length = c.toNat * r.toNat := by
    rw [← hfit.2.2]
    simpa using congrArg List.length hrs
  have hvalues : (rs.map Scalar.toBinary32).map Binary32.canonical =
      data.map Binary32.canonical := by
    have hcomm : (rs.map Scalar.toBinary32).map Binary32.canonical =
        (rs.map Scalar.canonical).map Scalar.toBinary32 := by
      simp only [List.map_map]
      exact List.map_congr_left fun r hr => canonical_toBinary32 (hk r hr)
    rw [hcomm, hrs]
    simp [Scalar.canonical, Scalar.toBinary32]
  exact ⟨_, construct_matrix hlen, by simp only [Value.canonical, hvalues]⟩

theorem canonicalFields_zipWith {fields : List (String × Ty)} {values : List (String × Value)}
    (hfit : Value.FieldsFit values fields) {cs : List Constant}
    (h : cs.map (fun c => c.value.canonical) = (values.map Prod.snd).map Value.canonical) :
    Value.canonicalFields (fields.zipWith (fun f a => (f.1, a.value)) cs) =
      Value.canonicalFields values := by
  induction values generalizing fields cs with
  | nil =>
    cases fields with
    | nil => rfl
    | cons f fields => exact hfit.elim
  | cons v values ih =>
    cases fields with
    | nil => exact hfit.elim
    | cons f fields =>
      obtain ⟨x, v⟩ := v
      obtain ⟨y, t⟩ := f
      obtain ⟨rfl, -, hfit⟩ := hfit
      obtain ⟨a, cs, rfl, ha, hcs⟩ := List.map_eq_cons_iff.mp h
      simp only [List.zipWith_cons_cons, Value.canonicalFields, ha, ih hfit hcs]

theorem builds_struct {id : Nat} {x : Option String} {fields : List (String × Ty)}
    {values : List (String × Value)} (hfit : Value.FieldsFit values fields) {cs : List Constant}
    (h : AreOf cs (fields.map Prod.snd) (values.map Prod.snd)) :
    Builds (.struct id x fields) cs (.struct values) := by
  exact ⟨_, construct_struct h.tys.symm, by
    simp only [Value.canonical, canonicalFields_zipWith hfit h.values]⟩

theorem builds_array {t : Ty} {values : List Value} {cs : List Constant}
    (h : AreOf cs (values.map fun _ => t) values) :
    Builds (.array t (some values.length)) cs (.array values) := by
  have hlength : cs.length = values.length := by simpa using congrArg List.length h.tys
  have htys : ∀ a ∈ cs, a.ty = t := by
    intro a ha
    have hmem : a.ty ∈ values.map fun _ => t := h.tys ▸ List.mem_map_of_mem ha
    obtain ⟨_, -, hty⟩ := List.mem_map.mp hmem
    exact hty.symm
  refine ⟨.array (cs.map Constant.value), ?_, ?_⟩
  · rw [← hlength, construct_array htys]
  · simp only [Value.canonical, Value.canonicalElements_eq_map, List.map_map]
    exact congrArg _ h.values

end Fold

namespace Bind

/-- Bound at the given place, the expression folds to the value, up to the bits of NaN, and nothing
is reported. -/
def Denotes (s : BindState) (e : Expr) (t : Ty) (v : Value) : Prop :=
  ∃ e', (expr e).run s = (e', s) ∧
    ∃ c, e'.fold = .value c ∧ c.ty = t ∧ c.value.canonical = v.canonical

def DenoteAll (s : BindState) (es : List Expr) (ts : List Ty) (vs : List Value) : Prop :=
  ∃ es', (exprs es).run s = (es', s) ∧ ∃ cs, Expr.foldAll es' = .value cs ∧ AreOf cs ts vs

variable {s : BindState} {e : Expr} {es : List Expr} {t : Ty} {ts : List Ty} {v : Value}
  {vs : List Value} {text : String} {note : Note}

-- Their equations are long to make; made here, they are there for all the proofs below.
attribute [local simp] expr exprs arraySuffix Expr.fold

theorem run_bind_eq {α β : Type} {x : Bind α} {f : α → Bind β} {a : α} {s' : BindState}
    (h : x.run s = (a, s')) : (x >>= f).run s = (f a).run s' := by
  rw [StateT.run_bind, h]
  rfl

theorem denoteAll_nil : DenoteAll s [] [] [] :=
  ⟨[], rfl, [], rfl, rfl, rfl⟩

theorem Denotes.cons (h : Denotes s e t v) (hs : DenoteAll s es ts vs) :
    DenoteAll s (e :: es) (t :: ts) (v :: vs) := by
  obtain ⟨e', hbind, c, hfold, hty, hv⟩ := h
  obtain ⟨es', hbinds, cs, hfolds, hare⟩ := hs
  refine ⟨e' :: es', ?_, c :: cs, ?_, ?_, ?_⟩
  · rw [exprs, run_bind_eq hbind, run_bind_eq hbinds]
    rfl
  · simp only [Expr.foldAll, hfold, hfolds, Outcome.value_bind]
    rfl
  · simp [hty, hare.tys]
  · simp [hv, hare.values]

theorem denotes_int {a : Scalar} (h : Literal.int text = .ok a) :
    Denotes s (.int text note) (.scalar a.kind) (.scalar a) := by
  refine ⟨.int text note, rfl, .ofScalar a, ?_, rfl, rfl⟩
  simp [Expr.fold, h, Except.toOption]

theorem denotes_float {x : Binary32} (h : Literal.float? text = some x) :
    Denotes s (.float text note) .float (.scalar (.float x)) := by
  refine ⟨.float text note, rfl, .ofScalar (.float x), ?_, rfl, rfl⟩
  simp [Expr.fold, h]

theorem denotes_bool (b : Bool) : Denotes s (.bool b note) .bool (.scalar (.bool b)) :=
  ⟨.bool b note, rfl, .ofBool b, rfl, rfl, rfl⟩

theorem fold_neg_int {i : Int32} {m : Note} (h : Literal.int text = .ok (.int i)) :
    (Expr.unary .neg (.int text note) m).fold = .value (.ofScalar (.int (-i))) := by
  simp only [Expr.fold, h, Except.toOption, Outcome.ofOption_some, Outcome.value_bind]
  rfl

theorem fold_neg_float {x : Binary32} {m : Note} (h : Literal.float? text = some x) :
    (Expr.unary .neg (.float text note) m).fold = .value (.ofScalar (.float x.neg)) := by
  simp only [Expr.fold, h, Outcome.ofOption_some, Outcome.value_bind]
  rfl

theorem denotes_neg_int {i : Int32} {m : Note} (h : Literal.int text = .ok (.int i)) :
    Denotes s (.unary .neg (.int text note) m) .int (.scalar (.int (-i))) :=
  ⟨_, rfl, _, fold_neg_int h, rfl, rfl⟩

theorem denotes_neg_float {x : Binary32} {m : Note} (h : Literal.float? text = some x) :
    Denotes s (.unary .neg (.float text note) m) .float (.scalar (.float x.neg)) :=
  ⟨_, rfl, _, fold_neg_float h, rfl, rfl⟩

theorem denotes_quotient {a b x : Binary32} {l r : Expr}
    (hl : Denotes s l .float (.scalar (.float a))) (ha : a.isNaN = false)
    (hr : Denotes s r .float (.scalar (.float b))) (hb : b.isNaN = false)
    (hx : (a.div b).canonical = x.canonical) :
    Denotes s (.binary .div l r note) .float (.scalar (.float x)) := by
  obtain ⟨l, hbindl, ⟨_, v⟩, hfoldl, rfl, hvl⟩ := hl
  obtain ⟨r, hbindr, ⟨_, w⟩, hfoldr, rfl, hvr⟩ := hr
  obtain rfl := Value.eq_float_of_canonical hvl ha
  obtain rfl := Value.eq_float_of_canonical hvr hb
  refine ⟨.binary .div l r note, ?_, .ofScalar (.float (a.div b)), ?_, rfl, ?_⟩
  · rw [expr, run_bind_eq hbindl, run_bind_eq hbindr]
    rfl
  · simp only [Expr.fold, hfoldl, hfoldr, Outcome.value_bind]
    rfl
  · show Value.scalar (.float _) = Value.scalar (.float _)
    rw [hx]

/-- In front of arguments the name and its brackets call the constructor of the type. -/
def Constructs (s : BindState) (callee : Callee) (suffix : Option (ArraySuffix Expr)) (t : Ty) :
    Prop :=
  ∀ args args' note, (exprs args).run s = (args', s) →
    (expr (.call callee suffix args .unresolved note)).run s =
      (.call callee suffix args' (.constructor t) note, s)

variable {span : Span} {x : String} {b : BasicTy}

theorem constructs_basic : Constructs s ⟨.basic b, span⟩ none (.basic b) := by
  intro args args' note hargs
  rw [expr, run_bind_eq hargs]
  rfl

theorem constructs_struct (h : s.scopes.lookup? x = some (.struct t)) :
    Constructs s ⟨.named x, span⟩ none t := by
  intro args args' note hargs
  have htarget : (plainTarget x span).run s = (.constructor t, s) := by
    unfold plainTarget
    rw [run_bind_eq (show (lookup? x).run s = (some (.struct t), s) from by rw [← h]; rfl)]
    rfl
  rw [expr, run_bind_eq hargs]
  simp only []
  rw [run_bind_eq htarget]
  rfl

/-- The text is that of the array size `n`. -/
def IsSize (text : String) (n : Nat) : Prop :=
  0 < n ∧ ∃ i : Int32, Literal.int text = .ok (.int i) ∧ i.toInt = n

theorem namedTy_run (h : s.scopes.lookup? x = some (.struct t)) :
    (namedTy x span).run s = (some t, s) := by
  unfold namedTy
  rw [run_bind_eq (show (lookup? x).run s = (some (.struct t), s) from by rw [← h]; rfl)]
  rfl

theorem arraySuffix_run {n : Nat} (h : IsSize text n) :
    (arraySuffix (some ⟨some (.int text note), span⟩)).run s =
      ((some ⟨some (.int text note), span⟩, .sized n), s) := by
  obtain ⟨hpos, i, hi, hn⟩ := h
  obtain ⟨n, rfl⟩ := Nat.exists_eq_succ_of_ne_zero (Nat.pos_iff_ne_zero.mp hpos)
  have hfold : (Expr.int text note).constant? = some (.ofScalar (.int i)) := by
    simp only [Expr.constant?, Expr.fold, hi, Except.toOption, Outcome.ofOption_some,
      Outcome.value_bind]
    rfl
  have hindex : (Constant.ofScalar (.int i)).index? = some (.ofNat (n + 1)) := congrArg some hn
  have hsize : (size (.int text note) span).run s = (.sized (n + 1), s) := by
    simp only [size, hfold, hindex]
    rfl
  rw [arraySuffix, run_bind_eq (show (expr (.int text note)).run s = (.int text note, s) from rfl),
    run_bind_eq hsize]
  rfl

theorem constructs_basicArray {n : Nat} {inner : Span} (h : IsSize text n) :
    Constructs s ⟨.basic b, span⟩ (some ⟨some (.int text note), inner⟩)
      (.array (.basic b) (some n)) := by
  intro args args' note hargs
  rw [expr, run_bind_eq hargs]
  simp only []
  rw [run_bind_eq (arraySuffix_run h)]
  rfl

theorem constructs_structArray {n : Nat} {inner : Span} (h : IsSize text n)
    (hx : s.scopes.lookup? x = some (.struct t)) :
    Constructs s ⟨.named x, span⟩ (some ⟨some (.int text note), inner⟩) (.array t (some n)) := by
  intro args args' note hargs
  rw [expr, run_bind_eq hargs]
  simp only []
  rw [run_bind_eq (namedTy_run hx), run_bind_eq (arraySuffix_run h)]
  rfl

theorem denotes_call {callee : Callee} {suffix : Option (ArraySuffix Expr)} {args : List Expr}
    (hc : Constructs s callee suffix t) (hargs : DenoteAll s args ts vs)
    (hbuild : ∀ cs, AreOf cs ts vs → Fold.Builds t cs v) :
    Denotes s (.call callee suffix args .unresolved note) t v := by
  obtain ⟨args', hbinds, cs, hfolds, hare⟩ := hargs
  obtain ⟨w, hw, hv⟩ := hbuild cs hare
  refine ⟨_, hc args args' note hbinds, ⟨t, w⟩, ?_, rfl, hv⟩
  simp only [Expr.fold, hfolds, Outcome.value_bind]
  exact hw

end Bind

end Shader
