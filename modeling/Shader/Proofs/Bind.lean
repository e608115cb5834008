import Shader.Bind
import Shader.Proofs.Bind.Expr

/-! Binding a parsed unit: everything that is recorded in its tree is sound, and so is its global
scope. -/

namespace Shader

namespace Bind

theorem keeps_requireSized (ty : Option Ty) (name : String) (span : Span) :
    Keeps (requireSized ty name span) fun _ => True := by
  unfold requireSized
  split
  · exact (keeps_report _ _).bind fun _ _ => .pure trivial
  · exact .pure trivial

theorem keeps_memberNames {base : Option Ty} {ms : List MemberName} {fields : List Field}
    (h : ∀ m ∈ ms, Part.All Part.Bare m.parts) :
    Keeps (memberNames base ms fields) fun r => ∀ m ∈ r.1, Part.All Part.Bound m.parts := by
  induction ms generalizing fields with
  | nil =>
    unfold memberNames
    exact .pure (by simp)
  | cons m ms ih =>
    unfold memberNames
    refine (keeps_arraySuffix (h m (by simp))).bind fun r hr => ?_
    refine (keeps_requireSized _ _ _).bind fun ty _ => ?_
    have hrest : ∀ fields, Keeps
        (memberNames base ms fields >>= fun rest =>
          pure ({ m with array := r.1 } :: rest.1, rest.2))
        fun r => ∀ m ∈ r.1, Part.All Part.Bound m.parts := by
      intro fields
      refine (ih fun a ha => h a (by simp [ha])).bind fun rest hrest => .pure ?_
      simpa [MemberName.parts] using ⟨hr, hrest⟩
    exact .ite ((keeps_report _ _).bind fun _ _ => hrest _) (hrest _)

theorem keeps_reportStruct (spec : TypeSpec) : Keeps (reportStruct spec) fun _ => True := by
  unfold reportStruct
  split
  · exact keeps_report _ _
  · exact .pure trivial

theorem keeps_memberLines_of {ms : List (Member TypeSpec)} {fields : List Field}
    (hspec : ∀ m ∈ ms, Keeps (typeSpec m.spec) fun r => Part.All Part.Bound r.parts)
    (hnames : ∀ m ∈ ms, ∀ x ∈ m.names, Part.All Part.Bare x.parts) :
    Keeps (memberLines ms fields) fun r => Part.All Part.Bound (memberParts r.1) := by
  induction ms generalizing fields with
  | nil =>
    unfold memberLines
    exact .pure Part.all_nil
  | cons m ms ih =>
    unfold memberLines
    refine (keeps_reportStruct _).bind fun _ _ => (hspec m (by simp)).bind fun spec hspec' => ?_
    refine (keeps_memberNames (hnames m (by simp))).bind fun names hnames' => ?_
    refine (ih (fun a ha => hspec a (by simp [ha])) fun a ha => hnames a (by simp [ha])).bind
      fun rest hrest => .pure ?_
    refine Part.all_append.mpr ⟨Part.all_append.mpr ⟨hspec', ?_⟩, hrest⟩
    exact Part.all_flatMap.mpr hnames'

theorem keeps_typeSpec {spec : TypeSpec} (h : Part.All Part.Bare spec.parts) :
    Keeps (typeSpec spec) fun r => Part.All Part.Bound r.parts := by
  induction spec using TypeSpec.induction with
  | basic b note =>
    unfold typeSpec
    exact (keeps_arraySuffix h).bind fun r hr => .pure hr
  | named x note =>
    unfold typeSpec
    refine (keeps_namedTy _ _).bind fun _ _ => ?_
    exact (keeps_arraySuffix h).bind fun r hr => .pure hr
  | struct tag members span note ih =>
    simp only [TypeSpec.parts, Part.all_append, all_memberParts] at h
    obtain ⟨⟨htag, hmembers⟩, hsuffix⟩ := h
    unfold typeSpec
    refine (keeps_memberLines_of (fun m hm => ih m hm (hmembers m hm).1)
      fun m hm => (hmembers m hm).2).bind fun members hmembers => ?_
    refine keeps_freshStruct.bind fun id _ => ?_
    cases tag with
    | none =>
      refine (keeps_arraySuffix hsuffix).bind fun r hr => .pure ?_
      exact Part.all_append.mpr ⟨Part.all_append.mpr ⟨Part.all_nil, hmembers⟩, hr⟩
    | some x =>
      have hx : IsTag x := (Part.all_cons.mp htag).1
      have hty : (Binding.struct (.struct id (some x) (members.2.map Field.entry))).Sound x false :=
        hx
      refine (keeps_define hty _).bind fun _ _ => ?_
      refine (keeps_arraySuffix hsuffix).bind fun r hr => .pure ?_
      refine Part.all_append.mpr ⟨Part.all_append.mpr ⟨?_, hmembers⟩, hr⟩
      exact Part.all_cons.mpr ⟨hx, Part.all_nil⟩

theorem keeps_memberLines {ms : List (Member TypeSpec)} {fields : List Field}
    (h : Part.All Part.Bare (memberParts ms)) :
    Keeps (memberLines ms fields) fun r => Part.All Part.Bound (memberParts r.1) :=
  keeps_memberLines_of (fun m hm => keeps_typeSpec (all_memberParts.mp h m hm).1)
    fun m hm => (all_memberParts.mp h m hm).2

theorem keeps_declaratorTy (base : Option Ty) (extent : Extent) (d : Declarator) :
    Keeps (declaratorTy base extent d) fun _ => True := by
  unfold declaratorTy
  split
  · exact .pure trivial
  · refine .ite ((keeps_report _ _).bind fun _ _ => .pure trivial) ?_
    split
    · split
      · exact .pure trivial
      · exact (keeps_report _ _).bind fun _ _ => .pure trivial
    · exact .pure trivial

theorem sound_constantOf {quals : Qualifiers} {ty : Option Ty} {init : Option Expr}
    (hinit : ∀ e, init = some e → Part.All Part.Bound e.parts) {c : Constant}
    (hc : constantOf quals ty init = some c) : c.Sound ∧ ty = some c.ty := by
  unfold constantOf at hc
  split at hc
  · obtain ⟨hfold, hty⟩ := Option.filter_eq_some_iff.mp hc
    obtain ⟨e, he, hconst⟩ := Option.bind_eq_some_iff.mp hfold
    refine ⟨Expr.constant?_sound ((hinit e he).mono fun p hp => hp.sound) hconst, ?_⟩
    simpa using hty
  · cases hc

theorem keeps_declarator {quals : Qualifiers} {base : Option Ty} {kind : VariableKind}
    {d : Declarator} (h : Part.All Part.Bare d.parts) :
    Keeps (declarator quals base kind d) fun r => Part.All Part.Bound r.parts := by
  simp only [Declarator.parts, Part.all_append, Part.all_flatMap, Option.mem_toList] at h
  unfold declarator
  refine (Keeps.mapM_option fun e he => keeps_expr (h.1.2 e he)).bind fun init hinit => ?_
  refine (keeps_arraySuffix h.1.1).bind fun r hr => ?_
  refine (keeps_declaratorTy _ _ _).bind fun ty _ => ?_
  have hv : Variable.Sound ⟨d.name, ty, kind, quals.storage, constantOf quals ty init, d.span⟩ :=
    fun c hc => sound_constantOf hinit hc
  refine (keeps_define (b := .variable _) hv _).bind fun _ _ => .pure ?_
  refine Part.all_append.mpr ⟨Part.all_append.mpr ⟨hr, ?_⟩, ?_⟩
  · simpa using hinit
  · exact Part.all_cons.mpr ⟨hv, Part.all_nil⟩

theorem sound_of_constant_none {v : Variable} (h : v.constant = none) : v.Sound := by
  simp [Variable.Sound, h]

theorem keeps_interfaceBlock {b : InterfaceBlock} (h : Part.All Part.Bare b.parts) :
    Keeps (interfaceBlock b) fun r => Part.All Part.Bound r.parts := by
  simp only [InterfaceBlock.parts, Part.all_append, Part.all_flatMap, Option.mem_toList] at h
  unfold interfaceBlock
  refine (keeps_memberLines h.1).bind fun r hr => ?_
  obtain ⟨members, fields⟩ := r
  dsimp only
  split
  · rename_i d hd
    have hplain := h.2 d hd
    simp only [Declarator.parts, Part.all_append] at hplain
    refine keeps_freshStruct.bind fun id _ => (keeps_arraySuffix hplain.1.1).bind fun a ha => ?_
    refine (keeps_requireSized _ _ _).bind fun ty _ => keeps_declarationKind.bind fun kind _ => ?_
    refine (keeps_define (b := .variable _) (sound_of_constant_none rfl) _).bind fun _ _ => .pure ?_
    refine Part.all_append.mpr ⟨hr, Part.all_append.mpr ⟨?_, Part.all_nil⟩⟩
    have hb := hplain.1.2.mono fun _ => Part.Bare.bound
    refine Part.all_append.mpr ⟨Part.all_append.mpr ⟨ha, hb⟩, ?_⟩
    exact Part.all_cons.mpr ⟨sound_of_constant_none rfl, Part.all_nil⟩
  · rename_i hnone
    refine Keeps.bind (Keeps.forIn fun f _ => ?_) fun _ _ => .pure ?_
    · exact keeps_define (b := .variable _) (sound_of_constant_none rfl) _
    refine Part.all_append.mpr ⟨hr, ?_⟩
    simp [hnone]

theorem keeps_declaration {d : Declaration} (h : Part.All Part.Bare d.parts) :
    Keeps (declaration d) fun r => Part.All Part.Bound r.parts := by
  cases d with
  | vars quals spec ds span =>
    simp only [Declaration.parts, Part.all_append, Part.all_flatMap] at h
    unfold declaration
    refine (keeps_typeSpec h.1).bind fun spec hspec => keeps_declarationKind.bind fun _ _ => ?_
    refine (Keeps.mapM fun d hd => keeps_declarator (h.2 d hd)).bind fun ds hds => .pure ?_
    exact Part.all_append.mpr ⟨hspec, Part.all_flatMap.mpr hds⟩
  | block b span =>
    unfold declaration
    exact (keeps_interfaceBlock h).bind fun b hb => .pure hb
  | precision p spec span =>
    unfold declaration
    exact (keeps_typeSpec h).bind fun spec hspec => .pure hspec
  | invariant targets span =>
    unfold declaration
    refine Keeps.bind (P := fun ts => ∀ t ∈ ts, ∀ v, t.binding = some v → v.Sound)
      (Keeps.mapM fun t _ => ?_) fun ts hts => .pure ?_
    · exact (keeps_reference _ _).bind fun v hv => .pure hv
    · refine Part.all_flatMap.mpr fun t ht => ?_
      cases hb : t.binding with
      | none => exact Part.all_nil
      | some v => exact Part.all_cons.mpr ⟨hts t ht v hb, Part.all_nil⟩

theorem keeps_ownScope {s : Stmt} {x : Bind Stmt} {Q : Stmt → Prop} (hx : Keeps x Q) :
    Keeps (ownScope s x) Q :=
  .ite hx (keeps_nested hx)

theorem keeps_statements_of {ss : List Stmt}
    (h : ∀ s ∈ ss, Keeps (stmt s) fun r => Part.All Part.Bound r.parts) :
    Keeps (statements ss) fun rs => Part.All Part.Bound (Stmt.allParts rs) := by
  induction ss with
  | nil =>
    unfold statements
    exact .pure Part.all_nil
  | cons s ss ih =>
    unfold statements
    refine (h s (by simp)).bind fun r hr => ?_
    refine (ih fun a ha => h a (by simp [ha])).bind fun rs hrs => .pure ?_
    exact Part.all_append.mpr ⟨hr, hrs⟩

theorem keeps_optionExpr {e : Option Expr} (h : Part.All Part.Bare (e.toList.flatMap Expr.parts)) :
    Keeps (e.mapM expr) fun r => Part.All Part.Bound (r.toList.flatMap Expr.parts) := by
  simp only [Part.all_flatMap, Option.mem_toList] at h ⊢
  exact Keeps.mapM_option fun e he => keeps_expr (h e he)

theorem keeps_stmt {s : Stmt} (h : Part.All Part.Bare s.parts) :
    Keeps (stmt s) fun r => Part.All Part.Bound r.parts := by
  induction s using Stmt.induction with
  | expr e span | caseLabel e span =>
    unfold stmt
    exact (keeps_expr h).bind fun e he => .pure he
  | giveBack value span =>
    cases value with
    | none =>
      unfold stmt
      exact .pure Part.all_nil
    | some e =>
      unfold stmt
      exact (keeps_expr h).bind fun e he => .pure he
  | empty span | defaultLabel span | continueLoop span | breakLoop span | discard span =>
    unfold stmt
    exact .pure Part.all_nil
  | block stmts inner span ih =>
    have hall := Stmt.all_allParts.mp h
    unfold stmt
    exact (keeps_nested (keeps_statements_of fun s hs => ih s hs (hall s hs))).bind
      fun ss hss => .pure hss
  | decl d span =>
    unfold stmt
    exact (keeps_declaration h).bind fun d hd => .pure hd
  | branch c t e span iht ihe =>
    cases e with
    | none =>
      simp only [Stmt.parts, Part.all_append] at h
      unfold stmt
      refine (keeps_expr h.1).bind fun c hc => (keeps_ownScope (iht h.2)).bind fun t ht => .pure ?_
      exact Part.all_append.mpr ⟨hc, ht⟩
    | some e =>
      simp only [Stmt.parts, Part.all_append] at h
      unfold stmt
      refine (keeps_expr h.1.1).bind fun c hc => (keeps_ownScope (iht h.1.2)).bind fun t ht => ?_
      refine (keeps_ownScope (ihe e rfl h.2)).bind fun e he => .pure ?_
      exact Part.all_append.mpr ⟨Part.all_append.mpr ⟨hc, ht⟩, he⟩
  | switch e stmts inner span ih =>
    simp only [Stmt.parts, Part.all_append, Stmt.all_allParts] at h
    unfold stmt
    refine (keeps_expr h.1).bind fun e he => ?_
    refine (keeps_nested (keeps_statements_of fun s hs => ih s hs (h.2 s hs))).bind
      fun ss hss => .pure ?_
    exact Part.all_append.mpr ⟨he, hss⟩
  | whileLoop c body span ih =>
    simp only [Stmt.parts, Part.all_append] at h
    unfold stmt
    refine (keeps_expr h.1).bind fun c hc => (keeps_ownScope (ih h.2)).bind fun b hb => .pure ?_
    exact Part.all_append.mpr ⟨hc, hb⟩
  | doLoop body c span ih =>
    simp only [Stmt.parts, Part.all_append] at h
    unfold stmt
    refine (keeps_ownScope (ih h.2)).bind fun b hb => (keeps_expr h.1).bind fun c hc => .pure ?_
    exact Part.all_append.mpr ⟨hc, hb⟩
  | forLoop init c u body span ihinit ihbody =>
    cases init with
    | none =>
      simp only [Stmt.parts, Part.all_append] at h
      unfold stmt
      refine keeps_nested ((keeps_optionExpr h.1.1).bind fun c hc => ?_)
      refine (keeps_optionExpr h.1.2).bind fun u hu => ?_
      refine (keeps_ownScope (ihbody h.2)).bind fun b hb => .pure ?_
      exact Part.all_append.mpr ⟨Part.all_append.mpr ⟨hc, hu⟩, hb⟩
    | some s =>
      simp only [Stmt.parts, Part.all_append] at h
      unfold stmt
      refine keeps_nested ((ihinit s rfl h.1.1.1).bind fun s hs => ?_)
      refine (keeps_optionExpr h.1.1.2).bind fun c hc => ?_
      refine (keeps_optionExpr h.1.2).bind fun u hu => ?_
      refine (keeps_ownScope (ihbody h.2)).bind fun b hb => .pure ?_
      exact Part.all_append.mpr ⟨Part.all_append.mpr ⟨Part.all_append.mpr ⟨hs, hc⟩, hu⟩, hb⟩

theorem keeps_statements {ss : List Stmt} (h : Part.All Part.Bare (Stmt.allParts ss)) :
    Keeps (statements ss) fun rs => Part.All Part.Bound (Stmt.allParts rs) :=
  keeps_statements_of fun s hs => keeps_stmt (Stmt.all_allParts.mp h s hs)

theorem keeps_parameter {p : ParamDecl} (h : Part.All Part.Bare p.parts) :
    Keeps (parameter p) fun r => Part.All Part.Bound r.1.parts := by
  simp only [ParamDecl.parts, Part.all_append] at h
  unfold parameter
  refine (keeps_typeSpec h.1.1).bind fun spec hspec => (keeps_arraySuffix h.1.2).bind fun r hr => ?_
  refine (keeps_requireSized _ _ _).bind fun ty _ => .pure ?_
  exact Part.all_append.mpr ⟨Part.all_append.mpr ⟨hspec, hr⟩, h.2.mono fun _ => Part.Bare.bound⟩

theorem keeps_parameterVariable {p : ParamDecl × Parameter} (h : Part.All Part.Bound p.1.parts) :
    Keeps (parameterVariable p) fun r => Part.All Part.Bound r.parts := by
  unfold parameterVariable
  split
  · exact .pure h
  · refine (keeps_define (b := .variable _) (sound_of_constant_none rfl) _).bind fun _ _ => .pure ?_
    simp only [ParamDecl.parts, Part.all_append] at h
    refine Part.all_append.mpr ⟨Part.all_append.mpr h.1, ?_⟩
    exact Part.all_cons.mpr ⟨sound_of_constant_none rfl, Part.all_nil⟩

theorem keeps_function {f : FunctionDecl} (h : Part.All Part.Bare f.parts) :
    Keeps (function f) fun r => Part.All Part.Bound r.parts := by
  simp only [FunctionDecl.parts, Part.all_append, Part.all_flatMap, Option.mem_toList] at h
  unfold function
  refine (keeps_typeSpec h.1.1).bind fun spec hspec => ?_
  refine (Keeps.mapM fun p hp => keeps_parameter (h.1.2 p hp)).bind fun params hparams => ?_
  refine (keeps_addOverload _ _).bind fun _ _ => ?_
  split
  · rename_i hbody
    refine .pure (Part.all_append.mpr ⟨Part.all_append.mpr ⟨hspec, ?_⟩, by simp [hbody]⟩)
    simpa using fun p q hp => hparams (p, q) hp
  · rename_i body hbody
    refine keeps_nested ?_
    refine (Keeps.mapM fun p hp => keeps_parameterVariable (hparams p hp)).bind fun ps hps => ?_
    refine (keeps_statements (h.2 body hbody)).bind fun ss hss => .pure ?_
    refine Part.all_append.mpr ⟨Part.all_append.mpr ⟨hspec, Part.all_flatMap.mpr hps⟩, ?_⟩
    exact Part.all_append.mpr ⟨hss, Part.all_nil⟩

theorem keeps_topLevel {d : TopLevel} (h : Part.All Part.Bare d.parts) :
    Keeps (topLevel d) fun r => Part.All Part.Bound r.parts := by
  cases d with
  | declaration d => exact (keeps_declaration h).bind fun d hd => .pure hd
  | function f => exact (keeps_function h).bind fun f hf => .pure hf

theorem sound_start : start.scopes.Sound where
  builtins b hb := Option.some.inj hb ▸ Prelude.sound_scope
  inner := Scope.sound_empty
  outer := by simp [start, ScopeStack.new]

end Bind

/-- Binding a bare tree records only what is sound, in the tree and in the global scope. -/
theorem bind_bound {unit : TranslationUnit} (h : Part.All Part.Bare (TranslationUnit.parts unit)) :
    (bind unit).globals.Sound false ∧
      Part.All Part.Bound (TranslationUnit.parts (bind unit).unit) := by
  have hunit := Part.all_flatMap.mp h
  obtain ⟨hscopes, hparts⟩ := Bind.Keeps.mapM (fun d hd => Bind.keeps_topLevel (hunit d hd))
    Bind.start Bind.sound_start
  exact ⟨hscopes.global, Part.all_flatMap.mpr hparts⟩

end Shader
