import Shader.Proofs.Fold.Access
import Shader.Proofs.Fold.Call
import Shader.Proofs.Token
import Shader.Proofs.Tree

/-! Folding bound expressions. Where the variables have constants of their own types and the builtin
functions are the declared ones, folding meets no fault, and a constant has the shape of its
type. -/

namespace Shader

/-- The type goes by a name. -/
def Ty.HasName : Ty → Prop
  | .basic _ => True
  | .struct _ (some x) _ => IsTag x
  | _ => False

/-- A constructor of the type can be called. -/
def Ty.HasConstructor : Ty → Prop
  | .array element _ => element.HasName
  | t => t.HasName

namespace Value

mutual

/-- All structs and arrays in the value have types with constructors. -/
def Writable : Value → Ty → Prop
  | struct values, .struct _ (some x) fields => IsTag x ∧ FieldsWritable values fields
  | array values, .array t _ => t.HasName ∧ ElementsWritable values t
  | struct _, _ | array _, _ => False
  | _, _ => True

def FieldsWritable : List (String × Value) → List (String × Ty) → Prop
  | (_, v) :: vs, (_, t) :: ts => v.Writable t ∧ FieldsWritable vs ts
  | _, _ => True

def ElementsWritable : List Value → Ty → Prop
  | [], _ => True
  | v :: vs, t => v.Writable t ∧ ElementsWritable vs t

end

variable {v : Value} {values : List Value}

theorem elementsWritable_iff {t : Ty} :
    ElementsWritable values t ↔ ∀ v ∈ values, v.Writable t := by
  induction values with
  | nil => simp [ElementsWritable]
  | cons v vs ih => simp [ElementsWritable, ih]

theorem Fits.writable {b : BasicTy} (h : v.Fits (.basic b)) : v.Writable (.basic b) := by
  cases v <;> simp_all [Fits, Writable]

theorem FieldsWritable.lookup {values : List (String × Value)} {fields : List (String × Ty)}
    (hfit : FieldsFit values fields) (h : FieldsWritable values fields) {x : String} {t : Ty}
    (ht : fields.lookup x = some t) {v : Value} (hv : values.lookup x = some v) :
    v.Writable t := by
  induction fields generalizing values with
  | nil => simp at ht
  | cons f fields ih =>
    obtain ⟨y, u⟩ := f
    cases values with
    | nil => simp at hv
    | cons w values =>
      obtain ⟨z, w⟩ := w
      obtain ⟨rfl, -, hrest⟩ := hfit
      by_cases hx : x == z
      · simp only [List.lookup_cons, hx, Option.some.injEq] at ht hv
        exact ht ▸ hv ▸ h.1
      · simp only [List.lookup_cons, hx] at ht hv
        exact ih hrest h.2 ht hv

theorem fieldsWritable_zipWith {fields : List (String × Ty)} {args : List Constant}
    (hty : fields.map Prod.snd = args.map Constant.ty)
    (hargs : ∀ a ∈ args, a.value.Writable a.ty) :
    FieldsWritable (fields.zipWith (fun f a => (f.1, a.value)) args) fields := by
  induction fields generalizing args with
  | nil => simp [FieldsWritable]
  | cons f fields ih =>
    cases args with
    | nil => simp at hty
    | cons a args =>
      simp only [List.map_cons, List.cons.injEq] at hty
      refine ⟨?_, ih hty.2 fun b hb => hargs b (by simp [hb])⟩
      rw [hty.1]
      exact hargs a (by simp)

end Value

/-- The constant has the shape of its type, and all types in it have constructors. -/
structure Constant.Sound (c : Constant) : Prop where
  shaped : c.WellShaped
  writable : c.value.Writable c.ty

/-- The constant of a variable is one of the type of the variable. -/
def Variable.Sound (v : Variable) : Prop :=
  ∀ c, v.constant = some c → c.Sound ∧ v.ty = some c.ty

def Target.Sound : Target → Prop
  | .unresolved => True
  | .function f => f.Genuine
  | .constructor ty => ty.HasConstructor

/-- What is recorded at the node itself is sound. -/
def Expr.Sound : Expr → Prop
  | .var _ binding _ => ∀ v, binding = some v → v.Sound
  | .call _ _ _ target _ => target.Sound
  | _ => True

def Part.Sound : Part → Prop
  | .node e => e.Sound
  | .binding v => v.Sound
  | .tag x => IsTag x

theorem Constant.Sound.of_basic {c : Constant} {b : BasicTy} (h : c.WellShaped)
    (hty : c.ty = .basic b) : c.Sound := by
  obtain ⟨ty, v⟩ := c
  obtain rfl : ty = .basic b := hty
  exact ⟨h, Value.Fits.writable h⟩

theorem Constant.sound_ofScalar (s : Scalar) : (Constant.ofScalar s).Sound :=
  .of_basic (Value.fits_ofScalar s) rfl

namespace Fold

theorem unary_sound {op : UnaryOp} {c : Constant} (hc : c.Sound) :
    (unary op c).Meets True Constant.Sound := by
  refine (unary_typed hc.shaped ⟨0, 0⟩).mono (fun _ => trivial) fun r h => ?_
  obtain ⟨hty, hr⟩ := h
  unfold Check.unaryTy at hty
  split at hty
  · exact .of_basic hr (Option.some.inj hty).symm
  · cases hty

theorem binary_sound {op : BinaryOp} {a b : Constant} (ha : a.Sound) (hb : b.Sound) :
    (binary op a b).Meets True Constant.Sound := by
  refine (binary_typed ha.shaped hb.shaped ⟨0, 0⟩).mono (fun _ => trivial) fun r h => ?_
  obtain ⟨hty, hr⟩ := h
  unfold Check.binaryTy at hty
  split at hty
  · exact .of_basic hr (Option.some.inj hty).symm
  · split at hty
    · split at hty
      · exact .of_basic hr (Option.some.inj hty).symm
      · cases hty
    · cases hty

theorem construct_sound {ty : Ty} {args : List Constant} (hty : ty.HasConstructor)
    (hargs : ∀ a ∈ args, a.Sound) :
    (construct ty args).Meets True fun c => c.ty = ty ∧ c.Sound := by
  have hsound := construct_typed ty fun a ha => (hargs a ha).shaped
  cases ty with
  | basic b => exact hsound.mono id fun c hc => ⟨hc.1, .of_basic hc.2 hc.1⟩
  | struct id tag fields =>
    cases tag with
    | none => exact hty.elim
    | some x =>
      simp only [construct, constructValue] at hsound ⊢
      split
      · rename_i hfields
        simp only [hfields, if_true] at hsound
        exact ⟨rfl, hsound.2, hty,
          Value.fieldsWritable_zipWith hfields fun a ha => (hargs a ha).writable⟩
      · trivial
  | array element size =>
    cases size with
    | none => trivial
    | some n =>
      simp only [construct, constructValue] at hsound ⊢
      split
      · rename_i helements
        rw [if_pos helements] at hsound
        simp only [Bool.and_eq_true, decide_eq_true_eq, List.all_eq_true] at helements
        refine ⟨rfl, hsound.2, hty, Value.elementsWritable_iff.mpr ?_⟩
        simp only [List.mem_map]
        rintro w ⟨a, ha, rfl⟩
        rw [← helements.2 a ha]
        exact (hargs a ha).writable
      · trivial

theorem call_sound {target : Target} {args : List Constant} (htarget : target.Sound)
    (hargs : ∀ a ∈ args, a.Sound) : (call target args).Meets True Constant.Sound := by
  cases target with
  | unresolved => trivial
  | function f =>
    refine (builtinCall_typed htarget fun a ha => (hargs a ha).shaped).mono id fun c hc => ?_
    obtain ⟨hc, ⟨b, hb⟩, -⟩ := hc
    exact .of_basic hc hb
  | constructor ty => exact (construct_sound htarget hargs).mono id fun c hc => hc.2

theorem select_sound {condition whenTrue whenFalse : Constant} (ht : whenTrue.Sound)
    (hf : whenFalse.Sound) :
    (select condition whenTrue whenFalse).Meets True Constant.Sound := by
  unfold select
  split
  · split
    · rename_i b _
      cases b
      · exact hf
      · exact ht
    · trivial
  · trivial

theorem length_sound (ty : Ty) : (length ty).Meets True Constant.Sound := by
  unfold length
  cases ty.length? with
  | none => trivial
  | some n => exact Constant.sound_ofScalar _

theorem field_sound {c : Constant} (hc : c.Sound) (name : String) :
    (field c name).Meets True Constant.Sound := by
  have hmeets := field_typed hc.shaped name ⟨0, 0⟩
  obtain ⟨ty, v⟩ := c
  cases ty with
  | array element size => trivial
  | struct id tag fields =>
    obtain ⟨values, rfl, hfields⟩ := Value.fits_struct_iff.mp hc.shaped
    cases tag with
    | none => exact hc.writable.elim
    | some x =>
      cases hlookup : fields.lookup name with
      | none => simp [field, hlookup]
      | some t =>
        obtain ⟨w, hw, hfits⟩ := hfields.lookup hlookup
        have hwritable := hc.writable.2.lookup hfields hlookup hw
        simp only [field, hlookup, hw, Outcome.ofOption_some, Outcome.value_bind]
        exact ⟨hfits, hwritable⟩
  | basic b =>
    refine hmeets.mono (fun _ => trivial) fun r hr => ?_
    obtain ⟨hty, hr⟩ := hr
    unfold Check.fieldTy at hty
    split at hty
    · split at hty
      · exact .of_basic hr (Option.some.inj hty).symm
      · cases hty
    · rename_i heq
      cases heq
    · split at hty <;> cases hty
    · cases hty

theorem index_sound {a i : Constant} (ha : a.Sound) :
    (index a i).Meets True Constant.Sound := by
  have hmeets := index_typed (i := i) ha.shaped
  obtain ⟨ty, v⟩ := a
  cases ty with
  | struct id tag fields =>
    exact hmeets.mono (fun _ => trivial) fun r hr => by simp [Check.elementOf?] at hr
  | array element size =>
    obtain ⟨values, rfl, rfl, hvalues⟩ := Value.fits_array_iff.mp ha.shaped
    have hwritable := Value.elementsWritable_iff.mp ha.writable.2
    cases hp : place? i with
    | none => simp [index, hp]
    | some p =>
      by_cases hlt : p < values.length
      · simp only [index, hp, Outcome.ofOption_some, Outcome.value_bind,
          List.getElem?_eq_getElem hlt]
        exact ⟨hvalues _ (List.getElem_mem hlt), hwritable _ (List.getElem_mem hlt)⟩
      · simp [index, hp, List.getElem?_eq_none (Nat.le_of_not_lt hlt)]
  | basic b =>
    refine hmeets.mono id fun r hr => ?_
    obtain ⟨hty, hr⟩ := hr
    cases b <;> simp [Check.elementOf?] at hty
    · exact .of_basic hr hty.symm
    · exact .of_basic hr hty.symm

end Fold

theorem Expr.foldAll_meets {P : Constant → Prop} {e : Prop} {es : List Expr}
    (h : ∀ a ∈ es, a.fold.Meets e P) :
    (Expr.foldAll es).Meets e fun cs => ∀ c ∈ cs, P c := by
  induction es with
  | nil => simp [Expr.foldAll]
  | cons a es ih =>
    simp only [Expr.foldAll]
    refine (h a (by simp)).bind fun c hc => ?_
    refine (ih fun b hb => h b (by simp [hb])).bind fun cs hcs => ?_
    simpa using ⟨hc, hcs⟩

/-- Folding a tree of sound parts meets no fault, and what it gives is sound. -/
theorem Expr.fold_sound {e : Expr} (h : Part.All Part.Sound e.parts) :
    e.fold.Meets True Constant.Sound := by
  induction e using Expr.induction with
  | int text n =>
    simp only [Expr.fold]
    cases (Literal.int text).toOption with
    | none => trivial
    | some s => exact Constant.sound_ofScalar s
  | float text n =>
    simp only [Expr.fold]
    cases Literal.float? text with
    | none => trivial
    | some x => exact Constant.sound_ofScalar (.float x)
  | bool b n =>
    simp only [Expr.fold]
    exact Constant.sound_ofScalar (.bool b)
  | var x binding n =>
    simp only [Expr.fold]
    cases binding with
    | none => trivial
    | some v =>
      have hv : v.Sound := h (.node (.var x (some v) n)) (by simp [Expr.parts]) v rfl
      cases hc : v.constant with
      | none => simp [hc]
      | some c => simpa [hc] using (hv c hc).1
  | unary op e n ih =>
    simp only [Expr.parts, Part.all_cons] at h
    simp only [Expr.fold]
    exact (ih h.2).bind fun c hc => Fold.unary_sound hc
  | binary op l r n ihl ihr =>
    simp only [Expr.parts, Part.all_cons, Part.all_append] at h
    simp only [Expr.fold]
    refine (ihl h.2.1).bind fun a ha => ?_
    exact (ihr h.2.2).bind fun b hb => Fold.binary_sound ha hb
  | ternary c t e n ihc iht ihe =>
    simp only [Expr.parts, Part.all_cons, Part.all_append] at h
    simp only [Expr.fold]
    refine (ihc h.2.1.1).bind fun _ _ => ?_
    refine (iht h.2.1.2).bind fun a ha => ?_
    exact (ihe h.2.2).bind fun b hb => Fold.select_sound ha hb
  | call callee suffix args target n _ ih =>
    simp only [Expr.parts, Part.all_cons, Part.all_append, Expr.all_allParts] at h
    simp only [Expr.fold]
    refine (Expr.foldAll_meets fun a ha => ih a ha (h.2.2 a ha)).bind fun cs hcs => ?_
    exact Fold.call_sound h.1 hcs
  | field e name n ih =>
    simp only [Expr.parts, Part.all_cons] at h
    simp only [Expr.fold]
    exact (ih h.2).bind fun c hc => Fold.field_sound hc name
  | index a i n iha ihi =>
    simp only [Expr.parts, Part.all_cons, Part.all_append] at h
    simp only [Expr.fold]
    refine (iha h.2.1).bind fun a ha => ?_
    exact (ihi h.2.2).bind fun i _ => Fold.index_sound ha
  | length e n ih =>
    simp only [Expr.parts, Part.all_cons] at h
    simp only [Expr.fold]
    split
    · exact Fold.length_sound _
    · exact (ih h.2).bind fun c _ => Fold.length_sound c.ty
  | update | assign | comma => simp [Expr.fold]

theorem Expr.constant?_sound {e : Expr} (h : Part.All Part.Sound e.parts) {c : Constant}
    (hc : e.constant? = some c) : c.Sound :=
  (e.fold_sound h).of_value (Outcome.value?_eq_some_iff.mp hc)

end Shader
