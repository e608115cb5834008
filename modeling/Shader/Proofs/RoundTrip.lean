import Shader.Proofs.Phrase
import Shader.Proofs.Soundness

/-! Texts of constants. Where the structs of its type go by their names, the text of a constant
reads, binds and folds back to the type and, up to the bits of NaN, the value. -/

namespace Shader

namespace Ty

mutual

/-- The type and all types of elements and fields in it. -/
def occurring : Ty → List Ty
  | basic b => [basic b]
  | array t n => array t n :: t.occurring
  | struct id x fields => struct id x fields :: occurringIn fields

def occurringIn : List (String × Ty) → List Ty
  | [] => []
  | (_, t) :: fields => t.occurring ++ occurringIn fields

end

/-- Arrays in the type have between 1 and 2147483647 elements, and the structs in it are what their
names mean at the place. -/
structure Denotable (s : BindState) (t : Ty) : Prop where
  sizes : ∀ e n, array e n ∈ t.occurring → ∃ m, n = some m ∧ 1 ≤ m ∧ m < twoPow 31
  names : ∀ id x fields, struct id (some x) fields ∈ t.occurring →
    s.scopes.lookup? x = some (.struct (struct id (some x) fields))

variable {s : BindState} {t : Ty}

theorem mem_occurring (t : Ty) : t ∈ t.occurring := by
  cases t <;> simp [occurring]

theorem Denotable.of_subset {u : Ty} (h : t.Denotable s) (hsub : u.occurring ⊆ t.occurring) :
    u.Denotable s where
  sizes e n hmem := h.sizes e n (hsub hmem)
  names id x fields hmem := h.names id x fields (hsub hmem)

theorem Denotable.element {n : Option Nat} (h : (array t n).Denotable s) : t.Denotable s :=
  h.of_subset fun _ hu => List.mem_cons_of_mem _ hu

theorem occurring_subset_occurringIn {fields : List (String × Ty)} {f : String × Ty}
    (hf : f ∈ fields) : f.2.occurring ⊆ occurringIn fields := by
  induction fields with
  | nil => cases hf
  | cons g fields ih =>
    intro u hu
    rcases List.mem_cons.mp hf with rfl | hf
    · exact List.mem_append_left _ hu
    · exact List.mem_append_right _ (ih hf hu)

theorem Denotable.field {id : Nat} {x : Option String} {fields : List (String × Ty)}
    (h : (struct id x fields).Denotable s) {f : String × Ty} (hf : f ∈ fields) : f.2.Denotable s :=
  h.of_subset fun _ hu => List.mem_cons_of_mem _ (occurring_subset_occurringIn hf hu)

end Ty

theorem BasicTy.mem_withComponents {b : BasicTy} {k : ScalarKind}
    (h : b.componentKind? = some k) : b ∈ withComponents := by
  cases b with
  | void => cases h
  | sampler => cases h
  | scalar k => cases k <;> decide
  | vector k n => cases k <;> cases n <;> decide
  | matrix c r => cases c <;> cases r <;> decide

theorem BasicTy.isWord_name {b : BasicTy} (h : b ∈ withComponents) :
    IsWord b.name ∧ ofName? b.name = some b := by
  have hall : ∀ b ∈ withComponents, b.name.toList.head?.any Scan.isWordStart = true ∧
      b.name.toList.tail.all Scan.isWordPart = true ∧ Keyword.ofText? b.name = none ∧
      ofName? b.name = some b := by
    decide +kernel
  obtain ⟨hstart, hpart, hfree, hname⟩ := hall b h
  refine ⟨⟨?_, hfree⟩, hname⟩
  cases hchars : b.name.toList with
  | nil => simp [hchars] at hstart
  | cons c cs =>
    rw [hchars] at hstart hpart
    exact ⟨c, cs, rfl, hstart, hpart⟩

section Names

variable {s : BindState} {t : Ty} {v : Value}

theorem not_void_of_ofName? {x : String} (h : BasicTy.ofName? x ≠ some .void) : x ≠ "void" := by
  rintro rfl
  exact h (by decide +kernel)

theorem isTypeName_basic {b : BasicTy} {k : ScalarKind} (h : b.componentKind? = some k) :
    IsTypeName s b.name (.basic b) := by
  obtain ⟨hword, hname⟩ := BasicTy.isWord_name (BasicTy.mem_withComponents h)
  have hcallee : Parse.calleeName b.name = .basic b := by simp [Parse.calleeName, hname]
  refine ⟨hword, not_void_of_ofName? ?_, ?_, ?_⟩
  · rw [hname]
    rintro hvoid
    rw [Option.some.inj hvoid] at h
    cases h
  · rw [hcallee]
    exact fun span => Bind.constructs_basic
  · rw [hcallee]
    exact fun span inner text note n hsize => Bind.constructs_basicArray hsize

theorem isTypeName_struct {x : String} (hx : IsTag x)
    (h : s.scopes.lookup? x = some (.struct t)) : IsTypeName s x t := by
  have hcallee : Parse.calleeName x = .named x := by simp [Parse.calleeName, hx.fresh]
  refine ⟨hx.word, not_void_of_ofName? (by simp [hx.fresh]), ?_, ?_⟩
  · rw [hcallee]
    exact fun span => Bind.constructs_struct h
  · rw [hcallee]
    exact fun span inner text note n hsize => Bind.constructs_structArray hsize h

theorem isTypeName_of_hasName (h : t.HasName) (hv : v.Fits t) (ht : t.Denotable s) :
    IsTypeName s t.constructorName t := by
  cases t with
  | basic b =>
    obtain ⟨k, hk, -⟩ := hv.components
    exact isTypeName_basic hk
  | array t n => exact h.elim
  | struct id x fields =>
    cases x with
    | none => exact h.elim
    | some x => exact isTypeName_struct h (ht.names id x fields (Ty.mem_occurring _))

end Names

section Values

variable {s : BindState} {t : Ty} {v : Value} {ts : List Ty} {vs : List Value}

theorem isPhrase_constructorCall {kinds : List TokenKind} {ps : List String}
    (h : IsHead s t.constructorName.toList kinds t) (hargs : ArePhrases s ps ts vs)
    (hbuild : ∀ cs, AreOf cs ts vs → Fold.Builds t cs v) :
    ∃ kinds, IsPhrase s (constructorCall t ps).toList kinds t v := by
  have htext : (constructorCall t ps).toList =
      t.constructorName.toList ++ ('(' :: ((", ".intercalate ps).toList ++ [')'])) := by
    simp [constructorCall]
  rw [htext]
  exact h.call hargs hbuild

theorem arePhrases_map {α : Type} (f : α → String) (g : α → Ty) (h : α → Value) {as : List α}
    (hall : ∀ a ∈ as, ∃ kinds, IsPhrase s (f a).toList kinds (g a) (h a)) :
    ArePhrases s (as.map f) (as.map g) (as.map h) := by
  induction as with
  | nil => exact .nil
  | cons a as ih =>
    obtain ⟨kinds, ha⟩ := hall a (by simp)
    exact .cons ha (ih fun b hb => hall b (by simp [hb]))

theorem isPhrase_vector {k : ScalarKind} {n : Dim} {cs : List Scalar}
    (hfit : (Value.vector cs).Fits (.basic (.vector k n))) :
    ∃ kinds, IsPhrase s (constructorCall (.basic (.vector k n)) (cs.map Scalar.text)).toList kinds
      (.basic (.vector k n)) (.vector cs) := by
  have hargs : ArePhrases s (cs.map Scalar.text) (cs.map fun _ => .scalar k)
      (cs.map Value.scalar) := by
    refine arePhrases_map _ _ _ fun a ha => ?_
    rw [← hfit.2 a ha]
    exact isPhrase_scalar a
  exact isPhrase_constructorCall (isTypeName_basic rfl).isHead hargs
    fun _ h => Fold.builds_vector hfit h

theorem isPhrase_matrix {c r : Dim} {data : List Binary32}
    (hfit : (Value.matrix c.toNat r.toNat data).Fits (.basic (.matrix c r))) :
    ∃ kinds, IsPhrase s (constructorCall (.basic (.matrix c r)) (data.map Scalar.floatText)).toList
      kinds (.basic (.matrix c r)) (.matrix c.toNat r.toNat data) :=
  isPhrase_constructorCall (isTypeName_basic rfl).isHead
    (arePhrases_map _ (fun _ => .float) (fun x => .scalar (.float x)) fun x _ => isPhrase_float x)
    fun _ h => Fold.builds_matrix hfit h

theorem isHead_array {n : Nat} {values : List Value} (h : t.HasName)
    (hlength : values.length = n) (hfit : Value.ElementsFit values t)
    (ht : (Ty.array t (some n)).Denotable s) :
    ∃ kinds, IsHead s (Ty.array t (some n)).constructorName.toList kinds (.array t (some n)) := by
  obtain ⟨_, hm, hpos, hlt⟩ := ht.sizes t (some n) (Ty.mem_occurring _)
  obtain rfl := Option.some.inj hm
  cases values with
  | nil => simp at hlength; omega
  | cons v values =>
    have hname := isTypeName_of_hasName h hfit.1 ht.element
    have htext : (Ty.array t (some n)).constructorName.toList =
        t.constructorName.toList ++ ('[' :: ((toString n).toList ++ [']'])) := by
      simp only [Ty.constructorName, String.toList_append, List.append_assoc]
      rfl
    rw [htext]
    exact ⟨_, hname.isHead_array hpos hlt⟩

end Values

namespace Value

variable {s : BindState}

theorem Fits.isPhrase_basic {v : Value} {b : BasicTy} (h : v.Fits (.basic b)) :
    ∃ text kinds, v.text (.basic b) = .ok text ∧ IsPhrase s text.toList kinds (.basic b) v := by
  cases b with
  | void => exact (not_fits_void h).elim
  | sampler => exact (not_fits_sampler h).elim
  | scalar k =>
    obtain ⟨a, rfl, rfl⟩ := fits_scalar_iff.mp h
    obtain ⟨kinds, hphrase⟩ := isPhrase_scalar (s := s) a
    exact ⟨a.text, kinds, by simp only [Value.text], hphrase⟩
  | vector k n =>
    obtain ⟨cs, rfl, -⟩ := fits_vector_iff.mp h
    obtain ⟨kinds, hphrase⟩ := isPhrase_vector (s := s) h
    exact ⟨_, kinds, by simp only [Value.text], hphrase⟩
  | matrix c r =>
    obtain ⟨data, rfl, -⟩ := fits_matrix_iff.mp h
    obtain ⟨kinds, hphrase⟩ := isPhrase_matrix (s := s) h
    exact ⟨_, kinds, by simp only [Value.text], hphrase⟩

mutual

theorem Fits.isPhrase : ∀ {v : Value} {t : Ty}, v.Fits t → v.Writable t → t.Denotable s →
    ∃ text kinds, v.text t = .ok text ∧ IsPhrase s text.toList kinds t v
  | _, .basic _, hfit, _, _ => hfit.isPhrase_basic
  | struct values, .struct id (some x) fields, hfit, hw, ht => by
    obtain ⟨parts, hparts, hargs⟩ := FieldsFit.arePhrases hfit hw.2 fun f hf => ht.field hf
    have hname := isTypeName_struct hw.1 (ht.names id x fields (Ty.mem_occurring _))
    obtain ⟨kinds, hphrase⟩ := isPhrase_constructorCall (t := .struct id (some x) fields)
      hname.isHead hargs fun _ h => Fold.builds_struct hfit h
    exact ⟨_, kinds, by simp only [Value.text, hparts]; rfl, hphrase⟩
  | array values, .array t (some n), hfit, hw, ht => by
    obtain ⟨parts, hparts, hargs⟩ := ElementsFit.arePhrases hfit.2 hw.2 ht.element
    obtain ⟨_, hhead⟩ := isHead_array hw.1 hfit.1 hfit.2 ht
    obtain ⟨kinds, hphrase⟩ := isPhrase_constructorCall hhead hargs fun _ h =>
      hfit.1 ▸ Fold.builds_array h
    exact ⟨_, kinds, by simp only [Value.text, hparts]; rfl, hphrase⟩
  | struct _, .struct _ none _, _, h, _ | struct _, .array _ _, _, h, _ => h.elim
  | array _, .array _ none, h, _, _ | array _, .struct _ _ _, h, _, _ => h.elim
  | scalar _, .array _ _, h, _, _ | scalar _, .struct _ _ _, h, _, _ => h.elim
  | vector _, .array _ _, h, _, _ | vector _, .struct _ _ _, h, _, _ => h.elim
  | matrix _ _ _, .array _ _, h, _, _ | matrix _ _ _, .struct _ _ _, h, _, _ => h.elim

theorem FieldsFit.arePhrases : ∀ {values : List (String × Value)} {fields : List (String × Ty)},
    FieldsFit values fields → FieldsWritable values fields →
    (∀ f ∈ fields, f.2.Denotable s) →
    ∃ parts, fieldTexts values fields = .ok parts ∧
      ArePhrases s parts (fields.map Prod.snd) (values.map Prod.snd)
  | [], [], _, _, _ => ⟨[], by simp only [fieldTexts], .nil⟩
  | [], _ :: _, h, _, _ | (_, _) :: _, [], h, _, _ => by simp [FieldsFit] at h
  | (x, v) :: vs, (y, t) :: ts, h, hw, ht => by
    obtain ⟨text, kinds, htext, hphrase⟩ :=
      Fits.isPhrase h.2.1 hw.1 (ht (y, t) List.mem_cons_self)
    obtain ⟨parts, hparts, hargs⟩ :=
      FieldsFit.arePhrases h.2.2 hw.2 fun f hf => ht f (List.mem_cons_of_mem _ hf)
    exact ⟨text :: parts, by simp only [fieldTexts, htext, hparts]; rfl, .cons hphrase hargs⟩

theorem ElementsFit.arePhrases : ∀ {values : List Value} {t : Ty},
    ElementsFit values t → ElementsWritable values t → t.Denotable s →
    ∃ parts, elementTexts values t = .ok parts ∧
      ArePhrases s parts (values.map fun _ => t) values
  | [], _, _, _, _ => ⟨[], by simp only [elementTexts], .nil⟩
  | v :: vs, t, h, hw, ht => by
    obtain ⟨text, kinds, htext, hphrase⟩ := Fits.isPhrase h.1 hw.1 ht
    obtain ⟨parts, hparts, hargs⟩ := ElementsFit.arePhrases h.2 hw.2 ht
    exact ⟨text :: parts, by simp only [elementTexts, htext, hparts]; rfl, .cons hphrase hargs⟩

end

end Value

/-- Reads a source that is one expression. -/
def parseExpression (source : String) : Option Expr :=
  match tokenize source with
  | .ok (t :: ts) =>
    match (Parse.expression (Parse.fuelFor ts.length)).run (.ofTokens t ts) with
    | .ok (e, c) => if c.kind = .eof then some e else none
    | .error _ => none
  | _ => none

theorem IsPhrase.parseExpression {s : BindState} {text : String} {kinds : List TokenKind} {t : Ty}
    {v : Value} (h : IsPhrase s text.toList kinds t v) :
    ∃ e, parseExpression text = some e ∧ Bind.Denotes s e t v := by
  obtain ⟨tokens, htokens, hkinds⟩ := (h.scans [] Scan.delimited_nil).tokenize
  rw [String.ofList_toList] at htokens
  have hlength : tokens.length = kinds.length + 1 := by
    simpa using congrArg List.length hkinds
  cases tokens with
  | nil => simp at hlength
  | cons t ts =>
    have hend : Parse.Closes .eof := by simp [Parse.Closes]
    have hfuel : 24 * kinds.length + 14 + 2 ≤ Parse.fuelFor ts.length := by
      simp only [List.length_cons] at hlength
      simp only [Parse.fuelFor]
      omega
    have hreads : Parse.Reads (Parse.expression (Parse.fuelFor ts.length)) (kinds ++ [.eof]) [.eof]
        fun e => Bind.Denotes s e _ v :=
      Parse.reads_expression (by simp) (fun n hn => h.assignment hend hn) hfuel
    obtain ⟨e, c, he, -, hc, hdenotes⟩ := hreads (.ofTokens t ts) hkinds
    refine ⟨e, ?_, hdenotes⟩
    simp only [Shader.parseExpression, htokens, StateT.run, he, Cursor.kind_eq hc, if_true]

/-- The text of a sound constant denotes it wherever its type can be named. -/
theorem Constant.Sound.denotes_text {c : Constant} (h : c.Sound) {s : BindState}
    (ht : c.ty.Denotable s) :
    ∃ text e, c.text = .ok text ∧ parseExpression text = some e ∧
      Bind.Denotes s e c.ty c.value := by
  obtain ⟨text, kinds, htext, hphrase⟩ := Value.Fits.isPhrase h.shaped h.writable ht
  obtain ⟨e, he, hdenotes⟩ := hphrase.parseExpression
  exact ⟨text, e, htext, he, hdenotes⟩

/-- A constant that folding gives in a bound or checked tree survives being written and read. -/
theorem constant_text_reads_back {source : String} {unit : TranslationUnit}
    (h : parse source = .ok unit) (stage : Stage) {tree : TranslationUnit}
    (htree : tree ∈ [(bind unit).unit, (check stage (bind unit).unit).value]) {e : Expr}
    (he : e ∈ TranslationUnit.nodes tree) {c : Constant} (hc : e.constant? = some c)
    {s : BindState} (ht : c.ty.Denotable s) :
    ∃ text parsed bound c', c.text = .ok text ∧ parseExpression text = some parsed ∧
      (Bind.expr parsed).run s = (bound, s) ∧ bound.constant? = some c' ∧ c'.ty = c.ty ∧
      c'.value.canonical = c.value.canonical := by
  have hfold := TranslationUnit.fold_meets (parts_sound_of_parse h stage tree htree) he
  have hsound : c.Sound := hfold.of_value (Outcome.value?_eq_some_iff.mp hc)
  obtain ⟨text, parsed, htext, hparsed, bound, hbound, c', hc', hty, hvalue⟩ :=
    hsound.denotes_text ht
  exact ⟨text, parsed, bound, c', htext, hparsed, hbound, Outcome.value?_eq_some_iff.mpr hc', hty,
    hvalue⟩

/-- A struct with an array in it, of a number, a negative zero and NaN. -/
def nestedSource : String :=
  "struct P { float k[3]; }; const P p = P(float[3](1.5, -0.0, 0.0 / 0.0));"

def nestedTy : Ty :=
  .struct (Prelude.depthRangeId + 1) (some "P") [("k", .array .float (some 3))]

/-- The place behind the last declaration of a unit. -/
def placeBehind (unit : TranslationUnit) : BindState :=
  ⟨⟨some Prelude.scope, (bind unit).globals, []⟩, 0, []⟩

/-- Whether the name of a binding is the name of the struct `t`. -/
def isStructName (t : Ty) : Option Binding → Bool
  | some (.struct u) => decide (u = t)
  | _ => false

theorem eq_struct_of_isStructName {t : Ty} {b : Option Binding} (h : isStructName t b = true) :
    b = some (.struct t) := by
  unfold isStructName at h
  split at h
  · rw [of_decide_eq_true h]
  · cases h

theorem denotable_nestedTy {s : BindState}
    (h : s.scopes.lookup? "P" = some (.struct nestedTy)) : nestedTy.Denotable s := by
  constructor
  · intro e n hmem
    obtain ⟨rfl, rfl⟩ : e = .float ∧ n = some 3 := by
      simpa [nestedTy, Ty.occurring, Ty.occurringIn, Ty.float] using hmem
    exact ⟨3, rfl, by decide, by decide⟩
  · intro id x fields hmem
    obtain ⟨rfl, rfl, rfl⟩ : id = Prelude.depthRangeId + 1 ∧ x = "P" ∧
        fields = [("k", .array .float (some 3))] := by
      simpa [nestedTy, Ty.occurring, Ty.occurringIn, Ty.float] using hmem
    exact h

theorem constant_text_nestedSource :
    ∃ unit, parse nestedSource = .ok unit ∧ ∃ e ∈ TranslationUnit.nodes (bind unit).unit,
      ∃ c, e.constant? = some c ∧ c.ty = nestedTy ∧ c.ty.Denotable (placeBehind unit) ∧
      ∃ text parsed bound c', c.text = .ok text ∧ parseExpression text = some parsed ∧
        (Bind.expr parsed).run (placeBehind unit) = (bound, placeBehind unit) ∧
        bound.constant? = some c' ∧ c'.ty = c.ty ∧ c'.value.canonical = c.value.canonical := by
  have hany : ((parse nestedSource).toOption.any fun unit =>
      isStructName nestedTy ((placeBehind unit).scopes.lookup? "P") &&
      (TranslationUnit.nodes (bind unit).unit).any fun e =>
        e.constant?.any fun c => decide (c.ty = nestedTy)) = true := by
    decide +kernel
  obtain ⟨unit, hparse, hunit⟩ := exists_unit_of_any hany
  obtain ⟨hname, hnodes⟩ := Bool.and_eq_true_iff.mp hunit
  obtain ⟨e, he, hec⟩ := List.any_eq_true.mp hnodes
  have hscope := eq_struct_of_isStructName hname
  cases hc : e.constant? with
  | none => simp [hc] at hec
  | some c =>
    have hty : c.ty = nestedTy := by simpa [hc] using hec
    have ht : c.ty.Denotable (placeBehind unit) := hty ▸ denotable_nestedTy hscope
    exact ⟨unit, hparse, e, he, c, hc, hty, ht,
      constant_text_reads_back hparse .vertex (by simp) he hc ht⟩

end Shader
