import Shader.Proofs.Proper
import Shader.Proofs.Soundness

/-! The types that an analysis without a problem leaves in the tree. They are well formed if and
only if none of the brackets that nobody looks at is in it. -/

namespace Shader

namespace Check

variable {span : Span} {t : Ty}

theorem proper_ofTy {x : Option Ty} {f : Ty → Checked (Option Ty)} (hx : ∀ t ∈ x, t.Proper)
    (hf : ∀ t, t.Proper → ∀ u ∈ (f t).value, u.Proper) : ∀ u ∈ (ofTy x f).value, u.Proper := by
  intro u hu
  rw [value_ofTy] at hu
  obtain ⟨t, ht, hu⟩ := Option.bind_eq_some_iff.mp hu
  exact hf t (hx t ht) u hu

theorem proper_unaryTy (op : UnaryOp) (t : Ty) : ∀ u ∈ (unaryTy op t span).value, u.Proper := by
  intro u hu
  unfold unaryTy at hu
  split at hu
  · exact Option.some.inj hu ▸ .basic _
  · cases hu

theorem proper_binaryTy (op : BinaryOp) (a b : Ty) :
    ∀ u ∈ (binaryTy op a b span).value, u.Proper := by
  intro u hu
  unfold binaryTy at hu
  split at hu
  · exact Option.some.inj hu ▸ .basic _
  · split at hu
    · split at hu
      · exact Option.some.inj hu ▸ .basic _
      · cases hu
    · cases hu

theorem proper_updateTy (op : UpdateOp) (ht : t.Proper) :
    ∀ u ∈ (updateTy op t span).value, u.Proper := by
  intro u hu
  unfold updateTy at hu
  split at hu
  · exact Option.some.inj hu ▸ ht
  · cases hu

theorem proper_assignTy (op : AssignOp) (ht : t.Proper) (v : Ty) :
    ∀ u ∈ (assignTy op t v span).value, u.Proper := by
  intro u hu
  unfold assignTy at hu
  split at hu
  · exact Option.some.inj hu ▸ ht
  · simp only [Checked.value_bind] at hu
    split at hu
    · cases hu
    · exact Option.some.inj hu ▸ ht

theorem proper_branchTy (ht : t.Proper) (e : Ty) : ∀ u ∈ (branchTy t e span).value, u.Proper := by
  intro u hu
  unfold branchTy at hu
  split at hu
  · exact Option.some.inj hu ▸ ht
  · cases hu

theorem proper_fieldTy (ht : t.Proper) (x : String) :
    ∀ u ∈ (fieldTy t x span).value, u.Proper := by
  intro u hu
  unfold fieldTy at hu
  split at hu
  · split at hu
    · exact Option.some.inj hu ▸ .basic _
    · cases hu
  · split at hu
    · rename_i fields v hv
      cases ht with
      | struct id tag hfields =>
        obtain ⟨before, after, heq, -⟩ := List.lookup_eq_some_iff.mp hv
        exact Option.some.inj hu ▸ hfields (x, v) (by simp [heq])
    · cases hu
  · split at hu <;> cases hu
  · cases hu

theorem proper_elementOf? {u : Ty} {bound : Option Nat} (ht : t.Proper)
    (h : elementOf? t = some (u, bound)) : u.Proper := by
  unfold elementOf? at h
  split at h
  · cases h
    cases ht with
    | array he => exact he
  · cases h
    exact .basic _
  · cases h
    exact .basic _
  · cases h

theorem proper_lengthTy (t : Ty) : ∀ u ∈ (lengthTy t span).value, u.Proper := by
  intro u hu
  unfold lengthTy at hu
  split at hu
  · exact Option.some.inj hu ▸ .basic _
  · cases hu

end Check

/-- The expression is resolved, its brackets are looked at, and its arguments are counted. -/
structure Expr.Guarded (stage : Stage) (e : Expr) : Prop where
  checked : e.Passes stage ∨ e.Settled
  resolved : e.Resolved Binding.Proper
  guarded : e.unguarded = false
  counted : e.Counted

namespace Expr

open Check

variable {stage : Stage} {e : Expr}

theorem Guarded.proper_of_rule (h : e.Guarded stage)
    (hrule : ∀ t ∈ (rule stage e).value, t.Proper) : ∀ t ∈ e.ty, t.Proper := by
  rcases h.checked with hpasses | hsettled
  · rwa [hpasses.ty]
  · simp [ty_eq_none_of_bound hsettled.1]

theorem Guarded.exists_declared {x : String} {binding : Option Variable} {n : Note}
    (h : (var x binding n).Guarded stage) :
    ∃ t, binding.bind Variable.ty = some t ∧ t.Declared := by
  obtain ⟨v, rfl, hv⟩ := h.resolved
  exact hv

theorem Guarded.proper_target {callee : Callee} {suffix : Option (ArraySuffix Expr)}
    {args : List Expr} {target : Target} {n : Note}
    (h : (call callee suffix args target n).Guarded stage) :
    ∀ t ∈ target.resultTy args, t.Proper := by
  intro t ht
  cases target with
  | unresolved => cases ht
  | function f =>
    obtain ⟨types, -, ht⟩ := Option.bind_eq_some_iff.mp ht
    obtain ⟨o, ho, ht⟩ := Option.bind_eq_some_iff.mp ht
    have hf : f.Proper := Calls.of_function h.resolved
    obtain ⟨u, hu, hproper⟩ := hf o (Function.overload?_eq_some ho).1
    obtain rfl := Option.some.inj (hu.symm.trans ht)
    exact hproper
  | constructor u =>
    obtain rfl := Option.some.inj ht
    exact Calls.proper h.resolved h.guarded h.counted.length_eq

theorem proper_ty (h : Part.All (Part.Holds (Guarded stage)) e.parts) : ∀ t ∈ e.ty, t.Proper := by
  induction e using Expr.induction with
  | int text n =>
    refine (Part.all_cons.mp h).1.proper_of_rule fun t ht => ?_
    simp only [rule] at ht
    split at ht
    · exact Option.some.inj ht ▸ .basic _
    · cases ht
  | float text n | bool b n =>
    exact (Part.all_cons.mp h).1.proper_of_rule fun t ht => Option.some.inj ht ▸ .basic _
  | var x binding n =>
    have hnode := (Part.all_cons.mp h).1
    refine hnode.proper_of_rule fun t ht => ?_
    obtain ⟨u, hu, hdeclared⟩ := hnode.exists_declared
    obtain rfl := Option.some.inj (hu.symm.trans ht)
    exact hdeclared.proper
  | unary op e n ih =>
    obtain ⟨hnode, h⟩ := Part.all_cons.mp h
    exact hnode.proper_of_rule (proper_ofTy (ih h) fun t _ => proper_unaryTy op t)
  | update op before e n ih =>
    obtain ⟨hnode, h⟩ := Part.all_cons.mp h
    exact hnode.proper_of_rule (proper_ofTy (ih h) fun t ht => proper_updateTy op ht)
  | binary op l r n ihl ihr =>
    obtain ⟨hnode, h⟩ := Part.all_cons.mp h
    obtain ⟨hl, hr⟩ := Part.all_append.mp h
    refine hnode.proper_of_rule (proper_ofTy (ihl hl) fun a ha => ?_)
    exact proper_ofTy (ihr hr) fun b _ => proper_binaryTy op a b
  | assign op l r n ihl ihr =>
    obtain ⟨hnode, h⟩ := Part.all_cons.mp h
    obtain ⟨hl, hr⟩ := Part.all_append.mp h
    refine hnode.proper_of_rule (proper_ofTy (ihl hl) fun a ha => ?_)
    exact proper_ofTy (ihr hr) fun b _ => proper_assignTy op ha b
  | ternary c t e n ihc iht ihe =>
    obtain ⟨hnode, h⟩ := Part.all_cons.mp h
    obtain ⟨hct, he⟩ := Part.all_append.mp h
    obtain ⟨-, ht⟩ := Part.all_append.mp hct
    refine hnode.proper_of_rule (proper_ofTy (iht ht) fun a ha => ?_)
    exact proper_ofTy (ihe he) fun b _ => proper_branchTy ha b
  | comma l r n ihl ihr =>
    obtain ⟨hnode, h⟩ := Part.all_cons.mp h
    exact hnode.proper_of_rule (ihr (Part.all_append.mp h).2)
  | call callee suffix args target n ihsuffix ihargs =>
    have hnode := (Part.all_cons.mp h).1
    refine hnode.proper_of_rule ?_
    rw [rule, value_targetTy]
    exact hnode.proper_target
  | field e x n ih =>
    obtain ⟨hnode, h⟩ := Part.all_cons.mp h
    exact hnode.proper_of_rule (proper_ofTy (ih h) fun t ht => proper_fieldTy ht x)
  | index a i n iha ihi =>
    obtain ⟨hnode, h⟩ := Part.all_cons.mp h
    have ha := iha (Part.all_append.mp h).1
    refine hnode.proper_of_rule fun t ht => ?_
    rw [rule, value_indexTy] at ht
    obtain ⟨s, hs, ht⟩ := Option.bind_eq_some_iff.mp ht
    obtain ⟨⟨u, bound⟩, hu, rfl⟩ := Option.map_eq_some_iff.mp ht
    exact proper_elementOf? (ha s hs) hu
  | length e n ih =>
    obtain ⟨hnode, h⟩ := Part.all_cons.mp h
    exact hnode.proper_of_rule (proper_ofTy (ih h) fun t _ => proper_lengthTy t)

theorem Guarded.isWellTyped (h : e.Guarded stage) (hty : ∀ t ∈ e.ty, t.Proper) :
    e.isWellTyped = true := by
  have hformed : e.ty.all Ty.isWellFormed = true := by
    cases ht : e.ty with
    | none => rfl
    | some t => exact (hty t ht).isWellFormed
  refine Bool.and_eq_true_iff.mpr ⟨hformed, ?_⟩
  cases e with
  | var x binding n =>
    obtain ⟨t, ht, hdeclared⟩ := h.exists_declared
    simp [ht, hdeclared.isDeclarable]
  | call callee suffix args target n =>
    cases target with
    | unresolved | function f => rfl
    | constructor t => exact (h.proper_target t rfl).isWellFormed
  | int | float | bool | unary | update | binary | assign | ternary | comma | field | index
  | length => rfl

end Expr

section Checked

variable {B : Binding → Prop} {stage : Stage} {ms : List (Member TypeSpec)} {e : Entry}

theorem Expr.length_allUntyped (es : List Expr) : (Expr.allUntyped es).length = es.length := by
  induction es with
  | nil => rfl
  | cons e es ih => exact congrArg (· + 1) ih

theorem Expr.unguarded_untyped (e : Expr) : e.untyped.unguarded = e.unguarded := by
  cases e with
  | call callee suffix args target n =>
    have hargs : (Expr.allUntyped args).isEmpty = args.isEmpty := by cases args <;> rfl
    rcases suffix with _ | ⟨_ | size, span⟩
    · rfl
    · simp [Expr.untyped, untypedSuffix, Expr.unguarded, hargs]
    · simp [Expr.untyped, untypedSuffix, Expr.unguarded]
  | int | float | bool | var | unary | update | binary | assign | ternary | comma | field | index
  | length => rfl

theorem Expr.counted_untyped (e : Expr) : e.untyped.Counted ↔ e.Counted := by
  cases e with
  | call callee suffix args target n =>
    simp only [Expr.untyped, Expr.Counted, Expr.length_allUntyped]
  | int | float | bool | var | unary | update | binary | assign | ternary | comma | field | index
  | length => exact Iff.rfl

theorem guarded_of_kept {es ds : List Expr} (h : List.Forall₂ Expr.Kept es ds)
    (hds : ∀ d ∈ ds, d.unguarded = false ∧ d.Counted) :
    ∀ e ∈ es, e.unguarded = false ∧ e.Counted := by
  induction h with
  | nil => simp
  | @cons e d es ds hed _ ih =>
    obtain ⟨⟨hd, hcount⟩, hds⟩ := List.forall_mem_cons.mp hds
    refine List.forall_mem_cons.mpr ⟨⟨?_, ?_⟩, ih hds⟩
    · rw [← Expr.unguarded_untyped, ← hed.untyped, Expr.unguarded_untyped, hd]
    · rwa [← Expr.counted_untyped, ← hed.untyped, Expr.counted_untyped]

theorem TypeSpec.isVoid_mapExprs (f : Expr → Expr) (spec : TypeSpec) :
    (spec.mapExprs f).isVoid = spec.isVoid := by
  cases spec with
  | basic b note => cases b <;> rfl
  | named x note | struct tag members span note => rfl

theorem TypeSpec.array_mapExprs (f : Expr → Expr) (spec : TypeSpec) :
    (spec.mapExprs f).note.array = spec.note.array.map (.map f) := by
  cases spec <;> rfl

theorem TypeSpec.isVoidArray_mapExprs (f : Expr → Expr) (spec : TypeSpec) :
    (spec.mapExprs f).isVoidArray = spec.isVoidArray := by
  rw [isVoidArray, isVoid_mapExprs, array_mapExprs, Option.isSome_map, isVoidArray]

theorem unguarded_mapMembers (f : Expr → Expr) (ms : List (Member TypeSpec)) :
    (mapMembers f ms).any Member.unguarded = ms.any Member.unguarded := by
  induction ms with
  | nil => rfl
  | cons m ms ih =>
    simp only [mapMembers, List.any_cons, ih]
    simp [Member.unguarded, TypeSpec.isVoidArray_mapExprs, TypeSpec.array_mapExprs,
      MemberName.mapExprs, Function.comp_def]

theorem Entry.unguarded_mapExprs (f : Expr → Expr) (e : Entry) :
    (e.mapExprs f).unguarded = e.unguarded := by
  cases e with
  | members ms => exact unguarded_mapMembers f ms
  | block b => exact unguarded_mapMembers f b.members
  | «variable» q spec d => rfl
  | parameter p =>
    simp [Entry.mapExprs, Entry.unguarded, ParamDecl.mapExprs, TypeSpec.array_mapExprs]
  | function g =>
    simp only [Entry.mapExprs, Entry.unguarded, FunctionDecl.mapExprs,
      TypeSpec.isVoidArray_mapExprs, TypeSpec.array_mapExprs, Option.any_map]
    simp [ArraySuffix.map]

theorem isWellTyped_mapMembers (h : ∀ m ∈ ms, m.Resolved B)
    (hbound : Part.All Part.Bound (memberNameParts ms)) :
    (mapMembers (Expr.checked stage) ms).all Member.isWellTyped = ms.all Member.isWellTyped := by
  induction ms with
  | nil => rfl
  | cons m ms ih =>
    obtain ⟨hm, hms⟩ := List.forall_mem_cons.mp h
    obtain ⟨hnames, hbound⟩ := Part.all_append.mp hbound
    have htypes : (m.names.map (.mapExprs (Expr.checked stage))).map (MemberName.ty m.spec.ty) =
        m.names.map (MemberName.ty m.spec.ty) := by
      rw [List.map_map]
      refine List.map_congr_left fun x hx => ?_
      exact MemberName.ty_checked (Part.all_flatMap.mp hnames x hx) (hm.names x hx).1 m.spec.ty
    have hline : ∀ names : List MemberName,
        (names.all fun x => (x.ty m.spec.ty).any Ty.isDeclarable) =
          (names.map (MemberName.ty m.spec.ty)).all (Option.any Ty.isDeclarable) :=
      fun names => by rw [List.all_map, Function.comp_def]
    rw [mapMembers, List.all_cons, List.all_cons, ih hms hbound]
    simp only [Member.isWellTyped, TypeSpec.ty_mapExprs, hline, htypes]

theorem Entry.isWellTyped_checked (h : e.Resolved B) (hbound : Part.All Part.Bound e.parts) :
    (e.mapExprs (Expr.checked stage)).isWellTyped = e.isWellTyped := by
  cases e with
  | members ms => exact isWellTyped_mapMembers h hbound
  | block b =>
    have hmembers : (mapMembers (Expr.checked stage) b.members).all Member.isWellTyped =
        b.members.all Member.isWellTyped := isWellTyped_mapMembers h.1 hbound
    simp only [Entry.mapExprs, Entry.isWellTyped, InterfaceBlock.mapExprs, hmembers, Option.all_map]
    rfl
  | «variable» q spec d => rfl
  | parameter p =>
    have hty : (p.mapExprs (Expr.checked stage)).ty = p.ty := ParamDecl.ty_checked hbound h.2.1
    simp only [Entry.mapExprs, Entry.isWellTyped, hty]
    rfl
  | function g =>
    simp only [Entry.mapExprs, Entry.isWellTyped, FunctionDecl.mapExprs, TypeSpec.ty_mapExprs]

end Checked

/-- All types in the tree are well formed. -/
structure TranslationUnit.WellTyped (unit : TranslationUnit) : Prop where
  entries : ∀ e ∈ entries unit, e.isWellTyped = true
  nodes : ∀ e ∈ nodes unit, e.isWellTyped = true

/-- None of the brackets that are not looked at is in the tree. -/
structure TranslationUnit.Guarded (unit : TranslationUnit) : Prop where
  entries : ∀ e ∈ entries unit, e.unguarded = false
  nodes : ∀ e ∈ nodes unit, e.unguarded = false

namespace CleanRun

variable {source : String} {stage : Stage} {unit : TranslationUnit}

theorem exists_entry {e : Entry}
    (he : e ∈ TranslationUnit.entries (check stage (bind unit).unit).value) :
    ∃ d ∈ TranslationUnit.entries (bind unit).unit, d.mapExprs (Expr.checked stage) = e := by
  rw [check_value, TranslationUnit.entries_mapExprs] at he
  exact List.mem_map.mp he

theorem isWellTyped_entry (h : CleanRun source stage unit) {e : Entry}
    (he : e ∈ TranslationUnit.entries (bind unit).unit) :
    (e.mapExprs (Expr.checked stage)).isWellTyped = e.isWellTyped :=
  Entry.isWellTyped_checked (h.resolved.entries e he)
    (TranslationUnit.entries_allParts h.parts_bound e he)

theorem guarded_of_wellTyped (h : CleanRun source stage unit)
    (hty : TranslationUnit.WellTyped (check stage (bind unit).unit).value) :
    TranslationUnit.Guarded (check stage (bind unit).unit).value := by
  constructor
  · intro e he
    obtain ⟨d, hd, rfl⟩ := exists_entry he
    by_contra hbad
    rw [Entry.unguarded_mapExprs, Bool.not_eq_false] at hbad
    have hill := Entry.not_isWellTyped (h.resolved.entries d hd) hbad
    rw [← h.isWellTyped_entry hd, hty.entries _ he] at hill
    cases hill
  · intro e he
    by_contra hbad
    have hill := Expr.not_isWellTyped (h.resolved_nodes h.resolved.parts e he) (by simpa using hbad)
    rw [hty.nodes e he] at hill
    cases hill

theorem wellTyped_of_guarded (h : CleanRun source stage unit)
    (hg : TranslationUnit.Guarded (check stage (bind unit).unit).value) :
    TranslationUnit.WellTyped (check stage (bind unit).unit).value := by
  have hnodes := guarded_of_kept (TranslationUnit.kept_nodes stage h.parts_bound)
    fun d hd => ⟨hg.nodes d hd, h.counted d hd⟩
  have hguarded : ∀ e ∈ TranslationUnit.entries (bind unit).unit, e.Guarded := by
    intro e he
    refine ⟨accepted_of_check h.checked e he, ?_, ?_⟩
    · rw [← Entry.unguarded_mapExprs (Expr.checked stage)]
      refine hg.entries _ ?_
      rw [check_value, TranslationUnit.entries_mapExprs]
      exact List.mem_map_of_mem he
    · exact TranslationUnit.entries_allParts (Part.all_holds.mpr hnodes) e he
  have hproper := bind_proper (parse_allPlain h.parsed) (parse_bare h.parsed) h.bound hguarded
  have hall : ∀ d ∈ TranslationUnit.nodes (check stage (bind unit).unit).value, d.Guarded stage :=
    fun d hd => ⟨h.passes_or_settled d hd, h.resolved_nodes hproper.parts d hd, hg.nodes d hd,
      h.counted d hd⟩
  constructor
  · intro e he
    obtain ⟨d, hd, rfl⟩ := exists_entry he
    rw [h.isWellTyped_entry hd]
    exact (hproper.entries d hd).isWellTyped (hguarded d hd)
  · intro e he
    have hparts := (TranslationUnit.closed_parts _).all_parts (Part.all_holds.mpr hall)
      (TranslationUnit.mem_nodes.mp he)
    exact (hall e he).isWellTyped (Expr.proper_ty hparts)

end CleanRun

/-- The types of an analysis without a problem are well formed exactly where all brackets are looked
at. -/
theorem types_wellFormed_iff {source : String} {stage : Stage} {a : Analysis}
    (h : analyze source stage = .ok a) (hclean : a.isClean = true) :
    TranslationUnit.WellTyped a.unit ↔ TranslationUnit.Guarded a.unit := by
  obtain ⟨unit, hrun, htree⟩ := exists_cleanRun h hclean
  rw [htree]
  exact ⟨hrun.guarded_of_wellTyped, hrun.wellTyped_of_guarded⟩

/-- Arrays at every kind of place. -/
def arraySource : String :=
  "struct S { float[2] a; }; S s[3]; S[3] f(int n[2]); float x[] = float[](1.0);"

theorem types_wellFormed_arraySource :
    ∃ a, analyze arraySource .any = .ok a ∧ a.isClean = true ∧
      TranslationUnit.Guarded a.unit ∧ TranslationUnit.WellTyped a.unit := by
  have hany : ((analyze arraySource .any).toOption.any fun a => a.isClean &&
      ((TranslationUnit.entries a.unit).all fun e => !e.unguarded) &&
      (TranslationUnit.nodes a.unit).all fun e => !e.unguarded) = true := by
    decide +kernel
  obtain ⟨a, ha, hfacts⟩ := exists_ok_of_any hany
  simp only [Bool.and_eq_true, List.all_eq_true, Bool.not_eq_true'] at hfacts
  obtain ⟨⟨hclean, hentries⟩, hnodes⟩ := hfacts
  have hguarded : TranslationUnit.Guarded a.unit := ⟨hentries, hnodes⟩
  exact ⟨a, ha, hclean, hguarded, (types_wellFormed_iff ha hclean).mpr hguarded⟩

/-- A member with brackets on both sides. -/
def nestedArraySource : String :=
  "struct S { float[2] a[3]; };"

/-- A clean analysis in which a member is an array of arrays. -/
theorem member_array_of_arrays :
    ∃ a ms m x, analyze nestedArraySource .any = .ok a ∧ a.isClean = true ∧
      .members ms ∈ TranslationUnit.entries a.unit ∧ m ∈ ms ∧ x ∈ m.names ∧
      x.ty m.spec.ty = some (.array (.array .float (some 2)) (some 3)) := by
  have hany : ((analyze nestedArraySource .any).toOption.any fun a => a.isClean &&
      (TranslationUnit.entries a.unit).any fun e =>
        match e with
        | .members ms => ms.any fun m => m.names.any fun x =>
            x.ty m.spec.ty = some (.array (.array .float (some 2)) (some 3))
        | _ => false) = true := by
    decide +kernel
  obtain ⟨a, ha, hboth⟩ := exists_ok_of_any hany
  obtain ⟨hclean, hmember⟩ := Bool.and_eq_true_iff.mp hboth
  obtain ⟨e, he, hmember⟩ := List.any_eq_true.mp hmember
  split at hmember
  · obtain ⟨m, hm, hmember⟩ := List.any_eq_true.mp hmember
    obtain ⟨x, hx, hty⟩ := List.any_eq_true.mp hmember
    exact ⟨a, _, m, x, ha, hclean, he, hm, hx, of_decide_eq_true hty⟩
  · cases hmember

end Shader
