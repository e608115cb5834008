import Shader.Check
import Shader.Proofs.Bind
import Shader.Proofs.Check.Expr

/-! Checking a bound unit keeps what binding recorded, and the types that it records agree with
folding at every node. -/

namespace Shader

namespace Check

theorem checked_suffix (stage : Stage) {suffix : Option (ArraySuffix Expr)}
    (h : Part.All Part.Bound (suffixParts suffix)) :
    Part.All Part.Checked (suffixParts (suffix.mapM (arraySuffix stage)).value) := by
  match suffix, h with
  | none, _ => exact Part.all_nil
  | some ⟨none, _⟩, _ => exact Part.all_nil
  | some ⟨some e, _⟩, h => exact right_expr stage h

theorem checked_memberNames (stage : Stage) {names : List MemberName}
    (h : ∀ m ∈ names, Part.All Part.Bound m.parts) :
    ∀ m ∈ (memberNames stage names).value, Part.All Part.Checked m.parts := by
  unfold memberNames
  simp only [Checked.value_mapM, List.mem_map]
  rintro _ ⟨m, hm, rfl⟩
  exact checked_suffix stage (h m hm)

theorem checked_memberLines_of (stage : Stage) {ms : List (Member TypeSpec)}
    (hspec : ∀ m ∈ ms, Part.All Part.Checked (typeSpec stage m.spec).value.parts)
    (hnames : ∀ m ∈ ms, ∀ x ∈ m.names, Part.All Part.Bound x.parts) :
    Part.All Part.Checked (memberParts (memberLines stage ms).value) := by
  induction ms with
  | nil =>
    unfold memberLines
    exact Part.all_nil
  | cons m ms ih =>
    unfold memberLines
    refine Part.all_append.mpr ⟨Part.all_append.mpr ⟨hspec m (by simp), ?_⟩, ?_⟩
    · exact Part.all_flatMap.mpr (checked_memberNames stage (hnames m (by simp)))
    · exact ih (fun a ha => hspec a (by simp [ha])) fun a ha => hnames a (by simp [ha])

theorem checked_typeSpec (stage : Stage) {spec : TypeSpec} (h : Part.All Part.Bound spec.parts) :
    Part.All Part.Checked (typeSpec stage spec).value.parts := by
  induction spec using TypeSpec.induction with
  | basic b note =>
    unfold typeSpec
    exact checked_suffix stage h
  | named x note =>
    unfold typeSpec
    exact checked_suffix stage h
  | struct tag members span note ih =>
    simp only [TypeSpec.parts, Part.all_append, all_memberParts] at h
    obtain ⟨⟨htag, hmembers⟩, hsuffix⟩ := h
    unfold typeSpec
    refine Part.all_append.mpr ⟨Part.all_append.mpr ⟨?_, ?_⟩, checked_suffix stage hsuffix⟩
    · exact htag.mono fun _ => Part.Bound.checked
    · exact checked_memberLines_of stage (fun m hm => ih m hm (hmembers m hm).1)
        fun m hm => (hmembers m hm).2

theorem checked_optionExpr (stage : Stage) {e : Option Expr}
    (h : Part.All Part.Bound (e.toList.flatMap Expr.parts)) :
    Part.All Part.Checked ((e.mapM (expr stage)).value.toList.flatMap Expr.parts) := by
  cases e with
  | none => exact Part.all_nil
  | some e => exact Part.all_append.mpr ⟨right_expr stage (Part.all_append.mp h).1, Part.all_nil⟩

theorem declarator_value (stage : Stage) (storage : Option Storage) (d : Declarator) :
    (declarator stage storage d).value =
      { d with
        array := (d.array.mapM (arraySuffix stage)).value
        init := (d.init.mapM (expr stage)).value } := by
  unfold declarator
  simp only [Checked.value_bind]
  split
  · split <;> rfl
  · rfl

theorem checked_declarator (stage : Stage) (storage : Option Storage) {d : Declarator}
    (h : Part.All Part.Bound d.parts) :
    Part.All Part.Checked (declarator stage storage d).value.parts := by
  simp only [Declarator.parts, Part.all_append] at h
  rw [declarator_value]
  refine Part.all_append.mpr ⟨Part.all_append.mpr ⟨checked_suffix stage h.1.1, ?_⟩, ?_⟩
  · exact checked_optionExpr stage h.1.2
  · exact h.2.mono fun _ => Part.Bound.checked

theorem blockMember_value (stage : Stage) (m : Member TypeSpec) :
    (blockMember stage m).value =
      { m with
        spec := (typeSpec stage m.spec).value
        names := (memberNames stage m.names).value } := by
  unfold blockMember
  simp only [Checked.value_bind]
  split <;> rfl

theorem interfaceBlock_value (place : Place) (b : InterfaceBlock) (span : Span) :
    (interfaceBlock place b span).value =
      { b with
        members := (b.members.mapM (blockMember place.stage)).value
        instance? := b.instance?.map fun d =>
          { d with array := (d.array.mapM (arraySuffix place.stage)).value } } := by
  unfold interfaceBlock
  split <;> cases h : b.instance? <;> rfl

theorem checked_interfaceBlock (place : Place) {b : InterfaceBlock} (span : Span)
    (h : Part.All Part.Bound b.parts) :
    Part.All Part.Checked (interfaceBlock place b span).value.parts := by
  simp only [InterfaceBlock.parts, Part.all_append, all_memberParts, Part.all_flatMap,
    Option.mem_toList] at h
  rw [interfaceBlock_value]
  simp only [InterfaceBlock.parts, Part.all_append, all_memberParts, Part.all_flatMap,
    Option.mem_toList]
  refine ⟨?_, ?_⟩
  · simp only [Checked.value_mapM, List.mem_map]
    rintro _ ⟨m, hm, rfl⟩
    rw [blockMember_value]
    exact ⟨checked_typeSpec _ (h.1 m hm).1, checked_memberNames _ (h.1 m hm).2⟩
  · intro d' hd'
    obtain ⟨d, hd, rfl⟩ := Option.map_eq_some_iff.mp hd'
    have hparts := h.2 d hd
    simp only [Declarator.parts, Part.all_append] at hparts
    refine Part.all_append.mpr ⟨Part.all_append.mpr ⟨checked_suffix _ hparts.1.1, ?_⟩, ?_⟩
    · exact hparts.1.2.mono fun _ => Part.Bound.checked
    · exact hparts.2.mono fun _ => Part.Bound.checked

theorem checked_declaration (place : Place) {d : Declaration} (h : Part.All Part.Bound d.parts) :
    Part.All Part.Checked (declaration place d).value.parts := by
  cases d with
  | vars q spec ds span =>
    simp only [Declaration.parts, Part.all_append, Part.all_flatMap] at h
    refine Part.all_append.mpr ⟨checked_typeSpec _ h.1, Part.all_flatMap.mpr ?_⟩
    simp only [Checked.value_mapM, List.mem_map]
    rintro _ ⟨d, hd, rfl⟩
    exact checked_declarator _ _ (h.2 d hd)
  | block b span => exact checked_interfaceBlock place span h
  | precision p spec span => exact checked_typeSpec _ h
  | invariant targets span => exact h.mono fun _ => Part.Bound.checked

theorem checked_statements_of (ctx : Context) {ss : List Stmt}
    (h : ∀ s ∈ ss, Part.All Part.Checked (stmt ctx s).value.parts) :
    Part.All Part.Checked (Stmt.allParts (statements ctx ss).value) := by
  induction ss with
  | nil =>
    unfold statements
    exact Part.all_nil
  | cons s ss ih =>
    unfold statements
    exact Part.all_append.mpr ⟨h s (by simp), ih fun a ha => h a (by simp [ha])⟩

theorem checked_optionCondition (stage : Stage) {e : Option Expr}
    (h : Part.All Part.Bound (e.toList.flatMap Expr.parts)) :
    Part.All Part.Checked ((e.mapM (condition stage)).value.toList.flatMap Expr.parts) := by
  cases e with
  | none => exact Part.all_nil
  | some e => exact Part.all_append.mpr ⟨right_expr stage (Part.all_append.mp h).1, Part.all_nil⟩

theorem checked_stmt {s : Stmt} (ctx : Context) (h : Part.All Part.Bound s.parts) :
    Part.All Part.Checked (stmt ctx s).value.parts := by
  induction s using Stmt.induction generalizing ctx with
  | expr e span | caseLabel e span =>
    unfold stmt
    exact right_expr _ h
  | giveBack value span =>
    unfold stmt
    cases value with
    | none => exact Part.all_nil
    | some e => exact right_expr _ h
  | empty span | defaultLabel span | continueLoop span | breakLoop span | discard span =>
    unfold stmt
    exact Part.all_nil
  | block stmts inner span ih =>
    have hall := Stmt.all_allParts.mp h
    unfold stmt
    exact checked_statements_of ctx fun s hs => ih s hs ctx (hall s hs)
  | decl d span =>
    unfold stmt
    exact checked_declaration _ h
  | branch c t e span iht ihe =>
    cases e with
    | none =>
      simp only [Stmt.parts, Part.all_append] at h
      unfold stmt
      exact Part.all_append.mpr ⟨right_expr _ h.1, iht ctx h.2⟩
    | some e =>
      simp only [Stmt.parts, Part.all_append] at h
      unfold stmt
      exact Part.all_append.mpr
        ⟨Part.all_append.mpr ⟨right_expr _ h.1.1, iht ctx h.1.2⟩, ihe e rfl ctx h.2⟩
  | switch e stmts inner span ih =>
    simp only [Stmt.parts, Part.all_append, Stmt.all_allParts] at h
    unfold stmt
    refine Part.all_append.mpr ⟨right_expr _ h.1, ?_⟩
    exact checked_statements_of _ fun s hs => ih s hs _ (h.2 s hs)
  | whileLoop c body span ih | doLoop body c span ih =>
    simp only [Stmt.parts, Part.all_append] at h
    unfold stmt
    exact Part.all_append.mpr ⟨right_expr _ h.1, ih ctx h.2⟩
  | forLoop init c u body span ihinit ihbody =>
    cases init with
    | none =>
      simp only [Stmt.parts, Part.all_append] at h
      unfold stmt
      refine Part.all_append.mpr ⟨Part.all_append.mpr ⟨?_, ?_⟩, ihbody ctx h.2⟩
      · exact checked_optionCondition _ h.1.1
      · exact checked_optionExpr _ h.1.2
    | some s =>
      simp only [Stmt.parts, Part.all_append] at h
      unfold stmt
      refine Part.all_append.mpr ⟨Part.all_append.mpr ⟨Part.all_append.mpr ⟨?_, ?_⟩, ?_⟩, ?_⟩
      · exact ihinit s rfl ctx h.1.1.1
      · exact checked_optionCondition _ h.1.1.2
      · exact checked_optionExpr _ h.1.2
      · exact ihbody ctx h.2

theorem parameter_value (stage : Stage) (p : ParamDecl) :
    (parameter stage p).value =
      { p with
        spec := (typeSpec stage p.spec).value
        array := (p.array.mapM (arraySuffix stage)).value } := by
  unfold parameter
  simp only [Checked.value_bind]
  split <;> rfl

theorem checked_parameter (stage : Stage) {p : ParamDecl} (h : Part.All Part.Bound p.parts) :
    Part.All Part.Checked (parameter stage p).value.parts := by
  simp only [ParamDecl.parts, Part.all_append] at h
  rw [parameter_value]
  refine Part.all_append.mpr ⟨Part.all_append.mpr ⟨checked_typeSpec _ h.1.1, ?_⟩, ?_⟩
  · exact checked_suffix _ h.1.2
  · exact h.2.mono fun _ => Part.Bound.checked

theorem function_value (stage : Stage) (f : FunctionDecl) :
    (function stage f).value =
      { f with
        spec := (typeSpec stage f.spec).value
        params := f.params.map fun p => (parameter stage p).value
        body := f.body.map fun b =>
          { b with
            stmts :=
              (statements ⟨stage, (typeSpec stage f.spec).value.ty, none⟩ b.stmts).value } } := by
  unfold function
  simp only [Checked.value_bind, Checked.value_pure, Checked.value_mapM,
    Checked.value_mapM_option]

theorem checked_function (stage : Stage) {f : FunctionDecl} (h : Part.All Part.Bound f.parts) :
    Part.All Part.Checked (function stage f).value.parts := by
  simp only [FunctionDecl.parts, Part.all_append, Part.all_flatMap, Option.mem_toList] at h
  rw [function_value]
  refine Part.all_append.mpr ⟨Part.all_append.mpr ⟨checked_typeSpec _ h.1.1, ?_⟩, ?_⟩
  · refine Part.all_flatMap.mpr fun q hq => ?_
    obtain ⟨p, hp, rfl⟩ := List.mem_map.mp hq
    exact checked_parameter stage (h.1.2 p hp)
  · refine Part.all_flatMap.mpr fun b hb => ?_
    obtain ⟨body, hbody, rfl⟩ := Option.map_eq_some_iff.mp (Option.mem_toList.mp hb)
    have hstmts := Stmt.all_allParts.mp (h.2 body hbody)
    exact checked_statements_of _ fun s hs => checked_stmt _ (hstmts s hs)

theorem checked_topLevel (stage : Stage) {d : TopLevel} (h : Part.All Part.Bound d.parts) :
    Part.All Part.Checked (topLevel stage d).value.parts := by
  cases d with
  | declaration d => exact checked_declaration _ h
  | function f => exact checked_function stage h

end Check

/-- Checking a bound unit leaves all its parts checked. -/
theorem check_checked (stage : Stage) {unit : TranslationUnit}
    (h : Part.All Part.Bound (TranslationUnit.parts unit)) :
    Part.All Part.Checked (TranslationUnit.parts (check stage unit).value) := by
  have hunit := Part.all_flatMap.mp h
  refine Part.all_flatMap.mpr ?_
  simp only [check, Checked.value_mapM, List.mem_map]
  rintro _ ⟨d, hd, rfl⟩
  exact Check.checked_topLevel stage (hunit d hd)

end Shader
