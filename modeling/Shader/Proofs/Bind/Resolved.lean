import Shader.Proofs.Bind.Given
import Shader.Proofs.Bind.Known
import Shader.Proofs.Parse.Instance

/-! The binder resolves every name and gives every declaration its type, or reports why it cannot.
The traversal is made once, for any property of the visible bindings. -/

namespace Shader

/-- The expressions among the parts and the declarations at the places are resolved. -/
structure Resolution (B : Binding → Prop) (ps : List Part) (es : List Entry) : Prop where
  parts : Part.All (Part.Resolved B) ps
  entries : ∀ e ∈ es, e.Resolved B

namespace Resolution

variable {B : Binding → Prop} {ps qs : List Part} {es ds : List Entry}

theorem nil : Resolution B [] [] :=
  ⟨Part.all_nil, by simp⟩

theorem exprs (h : Part.All (Part.Resolved B) ps) : Resolution B ps [] :=
  ⟨h, by simp⟩

theorem append (h : Resolution B ps es) (h' : Resolution B qs ds) :
    Resolution B (ps ++ qs) (es ++ ds) :=
  ⟨Part.all_append.mpr ⟨h.parts, h'.parts⟩, List.forall_mem_append.mpr ⟨h.entries, h'.entries⟩⟩

theorem snoc (h : Resolution B ps es) {e : Entry} (he : e.Resolved B) :
    Resolution B ps (es ++ [e]) :=
  ⟨h.parts, List.forall_mem_append.mpr ⟨h.entries, List.forall_mem_singleton.mpr he⟩⟩

theorem flatMap {α : Type} {parts : α → List Part} {entries : α → List Entry} {as : List α}
    (h : ∀ a ∈ as, Resolution B (parts a) (entries a)) :
    Resolution B (as.flatMap parts) (as.flatMap entries) := by
  refine ⟨Part.all_flatMap.mpr fun a ha => (h a ha).parts, fun e he => ?_⟩
  obtain ⟨a, ha, he⟩ := List.mem_flatMap.mp he
  exact (h a ha).entries e he

end Resolution

def TopLevel.signatures : TopLevel → List (String × Overload)
  | .declaration _ => []
  | .function f => [(f.name, f.overload)]

def TranslationUnit.signatures (unit : TranslationUnit) : List (String × Overload) :=
  unit.flatMap TopLevel.signatures

namespace Bind

structure ResolvedSuffix (B : Binding → Prop) (r : Option (ArraySuffix Expr) × Extent) : Prop where
  parts : Part.All (Part.Resolved B) (suffixParts r.1)
  extent : r.2 = suffixExtent r.1
  valid : suffixExtent r.1 ≠ .invalid

variable {J : Nat → ScopeStack → Prop} {k : Nat} {B : Binding → Prop} {F : Entry → Prop} {p : Prop}

section Expressions

variable (law : Invariant J B F)

include law

theorem finds_reference (name : String) (span : Span) :
    Finds (J k) p (reference name span) fun r => ∃ v, r = some v ∧ B (.variable v) := by
  refine (finds_lookup law name).bind fun r => ?_
  split
  · exact .pure fun hp _ => ⟨_, rfl, hp.2 _ rfl⟩
  · exact finds_reported _ _ _
  · exact finds_reported _ _ _

theorem finds_namedTy (name : String) (span : Span) :
    Finds (J k) p (namedTy name span) fun r => ∃ t, r = some t ∧ B (.struct t) := by
  refine (finds_lookup law name).bind fun r => ?_
  split
  · exact .pure fun hp _ => ⟨_, rfl, hp.2 _ rfl⟩
  · exact finds_reported _ _ _
  · exact finds_reported _ _ _

omit law in
theorem finds_size (e : Expr) (span : Span) :
    Finds (J k) p (size e span) fun extent => extent = suffixExtent (some ⟨some e, span⟩) ∧
      suffixExtent (some ⟨some e, span⟩) ≠ .invalid := by
  unfold size
  split
  · exact finds_reported _ _ _
  · rename_i c hc
    split
    · rename_i n hn
      have hextent : suffixExtent (some ⟨some e, span⟩) = .sized (n + 1) := by
        simp only [suffixExtent, hc, Option.bind_some, hn]
      exact .pure fun _ _ => ⟨hextent.symm, by simp [hextent]⟩
    · exact finds_reported _ _ _

theorem finds_plainTarget (name : String) (span : Span) (args : List Expr) :
    Finds (J k) p (plainTarget name span) (Calls B args (.named name) none) := by
  refine (finds_lookup law name).bind fun r => ?_
  split
  · exact .pure fun hp _ => .function name (hp.2 _ rfl)
  · exact .pure fun hp _ => .struct name (hp.2 _ rfl)
  · exact finds_reported _ _ _
  · exact finds_reported _ _ _

omit law in
theorem finds_exprs_of {es : List Expr}
    (h : ∀ e ∈ es, ∀ p, Finds (J k) p (expr e) fun r => Part.All (Part.Resolved B) r.parts) :
    Finds (J k) p (exprs es) fun rs => Part.All (Part.Resolved B) (Expr.allParts rs) := by
  induction es generalizing p with
  | nil =>
    unfold exprs
    exact .pure fun _ _ => Part.all_nil
  | cons e es ih =>
    unfold exprs
    refine (h e (by simp) p).bind fun r => ?_
    refine (ih fun a ha => h a (by simp [ha])).bind fun rs => .pure fun hp _ => ?_
    exact Part.all_append.mpr ⟨hp.1.2, hp.2⟩

omit law in
theorem finds_arraySuffix_of {suffix : Option (ArraySuffix Expr)}
    (h : ∀ e span, suffix = some ⟨some e, span⟩ →
      ∀ p, Finds (J k) p (expr e) fun r => Part.All (Part.Resolved B) r.parts) :
    Finds (J k) p (arraySuffix suffix) (ResolvedSuffix B) := by
  rcases suffix with _ | ⟨_ | e, span⟩
  · unfold arraySuffix
    exact .pure fun _ _ => ⟨Part.all_nil, rfl, by simp [suffixExtent]⟩
  · unfold arraySuffix
    exact .pure fun _ _ => ⟨Part.all_nil, rfl, by simp [suffixExtent]⟩
  · unfold arraySuffix
    refine (h e span rfl p).bind fun r => (finds_size r span).bind fun extent => ?_
    exact .pure fun hp _ => ⟨hp.1.2, hp.2.1, hp.2.2⟩

theorem finds_expr (e : Expr) :
    Finds (J k) p (expr e) fun r => Part.All (Part.Resolved B) r.parts := by
  induction e using Expr.induction generalizing p with
  | int text n | float text n | bool b n =>
    unfold expr
    exact .pure fun _ _ => holds_node rfl trivial Part.all_nil
  | var x binding n =>
    unfold expr
    refine (finds_reference law x n.span).bind fun r => .pure fun hp _ => ?_
    exact holds_node rfl hp.2 Part.all_nil
  | unary op e n ih | update op before e n ih | length e n ih | field e x n ih =>
    unfold expr
    exact ih.bind fun r => .pure fun hp _ => holds_node rfl trivial hp.2
  | binary op l r n ihl ihr | comma l r n ihl ihr | assign op l r n ihl ihr | index l r n ihl ihr =>
    unfold expr
    refine ihl.bind fun l => ihr.bind fun r => .pure fun hp _ => ?_
    exact holds_node rfl trivial (Part.all_append.mpr ⟨hp.1.2, hp.2⟩)
  | ternary c t e n ihc iht ihe =>
    unfold expr
    refine ihc.bind fun c => iht.bind fun t => ihe.bind fun e => .pure fun hp _ => ?_
    obtain ⟨⟨⟨-, hc⟩, ht⟩, he⟩ := hp
    exact holds_node rfl trivial (Part.all_append.mpr ⟨Part.all_append.mpr ⟨hc, ht⟩, he⟩)
  | call callee suffix args target n ihsuffix ihargs =>
    have hsuffix : ∀ p, Finds (J k) p (arraySuffix suffix) (ResolvedSuffix B) :=
      fun p => finds_arraySuffix_of fun e span heq p => ihsuffix e span heq
    unfold expr
    refine (finds_exprs_of fun a ha p => ihargs a ha).bind fun args => ?_
    split
    · -- a function or a struct
      rename_i x hx
      refine (finds_plainTarget law x _ args).bind fun target => .pure fun hp _ => ?_
      refine holds_node rfl ?_ (Part.all_append.mpr ⟨Part.all_nil, hp.1.2⟩)
      rw [Expr.Resolved, hx]
      exact hp.2
    · -- an array of structs
      rename_i x hx _
      refine (finds_namedTy law x _).bind fun base => (hsuffix _).bind fun r => .pure fun hp _ => ?_
      obtain ⟨⟨⟨-, hargs⟩, t, rfl, ht⟩, hr⟩ := hp
      refine holds_node rfl ?_ (Part.all_append.mpr ⟨hr.parts, hargs⟩)
      rw [Expr.Resolved, hx, hr.extent]
      exact .array x ht hr.valid
    · -- a basic type or an array of one
      rename_i _ b hb
      refine (hsuffix _).bind fun r => .pure fun hp _ => ?_
      obtain ⟨⟨-, hargs⟩, hr⟩ := hp
      refine holds_node rfl ?_ (Part.all_append.mpr ⟨hr.parts, hargs⟩)
      rw [Expr.Resolved, hb, hr.extent]
      exact .basic b hr.valid

theorem finds_arraySuffix (suffix : Option (ArraySuffix Expr)) :
    Finds (J k) p (arraySuffix suffix) (ResolvedSuffix B) :=
  finds_arraySuffix_of fun e _ _ _ => finds_expr law e

theorem finds_optionExpr (e : Option Expr) :
    Finds (J k) p (e.mapM expr)
      fun r => Part.All (Part.Resolved B) (r.toList.flatMap Expr.parts) := by
  refine (Finds.mapM_option fun e _ => finds_expr law e).mono fun r h => ?_
  exact Part.all_flatMap.mpr fun d hd => h d (Option.mem_toList.mp hd)

end Expressions

theorem finds_requireSized (ty : Option Ty) (name : String) (span : Span) :
    Finds (J k) p (requireSized ty name span) fun t => t = ty ∧ Sized ty := by
  unfold requireSized
  split
  · exact finds_reported _ _ _
  · rename_i hopen
    exact .pure fun _ _ => ⟨rfl, hopen⟩

/-- The names of a line of members, whose type is given, and the fields that come from them. -/
structure ResolvedNames (B : Binding → Prop) (base : Option Ty) (fields : List Field)
    (r : List MemberName × List Field) : Prop where
  parts : Part.All (Part.Resolved B) (r.1.flatMap MemberName.parts)
  names : ∀ x ∈ r.1, suffixExtent x.array ≠ .invalid ∧ Sized (x.ty base)
  fields : r.2 = fields ++ r.1.filterMap (MemberName.field? base)

structure ResolvedMembers (B : Binding → Prop) (fields : List Field)
    (r : List (Member TypeSpec) × List Field) : Prop where
  resolution : Resolution B (memberParts r.1) (memberEntries r.1)
  members : ∀ m ∈ r.1, m.Resolved B
  fields : r.2 = fields ++ memberFields r.1

/-- What binding makes of a specifier. -/
structure ResolvedSpec (B : Binding → Prop) (spec r : TypeSpec) : Prop where
  resolution : Resolution B r.parts r.entries
  kind : r.isStruct = spec.isStruct
  resolved : r.Resolved B

theorem finds_memberNames (law : Invariant J B F) (base : Option Ty) (ms : List MemberName)
    (fields : List Field) :
    Finds (J k) p (memberNames base ms fields) (ResolvedNames B base fields) := by
  induction ms generalizing fields p with
  | nil =>
    unfold memberNames
    exact .pure fun _ _ => ⟨Part.all_nil, by simp, by simp⟩
  | cons m ms ih =>
    unfold memberNames
    refine (finds_arraySuffix law m.array).bind fun r => ?_
    refine (finds_requireSized _ _ _).bind fun ty => ?_
    simp only [pure_bind]
    refine .ite (fun _ => (finds_report _ _).bind fun _ => ?_) fun _ => ?_
    · refine (ih fields).bind fun r => ?_
      obtain ⟨names, fields'⟩ := r
      exact .pure fun hp => hp.1.2.elim
    · refine (ih _).bind fun s => ?_
      obtain ⟨names, fields'⟩ := s
      refine .pure fun hp _ => ?_
      obtain ⟨⟨⟨-, hr⟩, rfl, hsized⟩, hrest⟩ := hp
      rw [hr.extent] at hsized
      refine ⟨Part.all_append.mpr ⟨hr.parts, hrest.parts⟩, ?_, ?_⟩
      · exact List.forall_mem_cons.mpr ⟨⟨hr.valid, hsized⟩, hrest.names⟩
      · rw [hrest.fields, List.filterMap_cons, MemberName.field?, MemberName.ty, hr.extent]
        cases (suffixExtent r.1).apply base <;> simp

theorem finds_reportStruct (spec : TypeSpec) :
    Finds (J k) p (reportStruct spec) fun _ => spec.isStruct = false := by
  cases spec with
  | basic b note | named x note => exact .pure fun _ _ => rfl
  | struct tag ms span note => exact (finds_report _ _).mono fun _ h => h.elim

theorem given_memberLines_of (law : Invariant J B F) {ms : List (Member TypeSpec)}
    (fields : List Field)
    (h : ∀ m ∈ ms, ∀ p, Given (J k) p (fun r => ∀ e ∈ r.entries, F e) (typeSpec m.spec)
      (ResolvedSpec B m.spec)) :
    Given (J k) p (fun r => ∀ e ∈ memberEntries r.1, F e) (memberLines ms fields)
      (ResolvedMembers B fields) := by
  induction ms generalizing fields p with
  | nil =>
    unfold memberLines
    exact .pure fun _ _ => ⟨.nil, by simp, by simp [memberFields]⟩
  | cons m ms ih =>
    unfold memberLines
    refine (finds_reportStruct _).bind fun _ => ?_
    refine (h m (by simp) _).bind (fun spec s hF => (List.forall_mem_append.mp hF).1) fun spec => ?_
    refine (finds_memberNames law _ _ _).bind fun names => ?_
    refine (ih _ fun a ha => h a (by simp [ha])).bind
      (fun rest s hF => (List.forall_mem_append.mp hF).2) fun rest => .pure fun hp _ => ?_
    obtain ⟨⟨⟨⟨-, hnamed⟩, -, hspec⟩, hnames⟩, -, hrest⟩ := hp
    refine ⟨?_, ?_, ?_⟩
    · have hline := hspec.resolution.append (.exprs hnames.parts)
      rw [List.append_nil] at hline
      exact hline.append hrest.resolution
    · refine List.forall_mem_cons.mpr ⟨?_, hrest.members⟩
      exact ⟨hspec.kind.trans hnamed, hspec.resolved, hnames.names⟩
    · rw [hrest.fields, hnames.fields, List.append_assoc]
      rfl

section Members

variable {r : List (Member TypeSpec) × List Field}

theorem ResolvedMembers.whole (h : ResolvedMembers B [] r) :
    Resolution B (memberParts r.1) (memberEntries r.1 ++ [.members r.1]) :=
  h.resolution.snoc h.members

theorem declared_struct (law : Invariant J B F) (hF : F (.members r.1)) (h : ResolvedMembers B [] r)
    (id : Nat) (tag : Option String) : B (.struct (.struct id tag (r.2.map Field.entry))) := by
  refine law.declared hF h.members ⟨id, tag, ?_⟩
  rw [h.fields, List.nil_append]

end Members

theorem given_typeSpec (law : Invariant J B F) (spec : TypeSpec) :
    Given (J k) p (fun r => ∀ e ∈ r.entries, F e) (typeSpec spec) (ResolvedSpec B spec) := by
  induction spec using TypeSpec.induction generalizing p with
  | basic b note =>
    unfold typeSpec
    refine (finds_arraySuffix law _).bind fun r => .pure fun hp _ => ?_
    obtain ⟨-, hr⟩ := hp
    exact ⟨.exprs hr.parts, rfl, hr.valid, _, rfl, by rw [hr.extent]; rfl⟩
  | named x note =>
    unfold typeSpec
    refine (finds_namedTy law x _).bind fun base => ?_
    refine (finds_arraySuffix law _).bind fun r => .pure fun hp _ => ?_
    obtain ⟨⟨-, t, rfl, ht⟩, hr⟩ := hp
    exact ⟨.exprs hr.parts, rfl, hr.valid, t, ht, by rw [hr.extent]; rfl⟩
  | struct tag ms span note ih =>
    have hmembers : ∀ p, Given (J k) p (fun r => ∀ e ∈ memberEntries r.1 ++ [.members r.1], F e)
        (memberLines ms []) (ResolvedMembers B []) := fun p =>
      (given_memberLines_of law [] fun m hm p => ih m hm).ask fun r hF =>
        (List.forall_mem_append.mp hF).1
    have hresult : ∀ {tag} {r a} {id : Nat}, ResolvedMembers B [] r → ResolvedSuffix B a →
        B (.struct (.struct id tag (r.2.map Field.entry))) →
        ResolvedSpec B (.struct tag ms span note) (.struct tag r.1 span
          { note with array := a.1, ty := a.2.apply (some (.struct id tag (r.2.map Field.entry))) })
        := by
      intro tag r a id hr ha hstruct
      refine ⟨?_, rfl, ha.valid, _, hstruct, by rw [ha.extent]; rfl⟩
      have htag : Part.All (Part.Resolved B) (tag.toList.map .tag) := by
        cases tag <;> simp [Part.All, Part.Holds]
      have hparts := ((Resolution.exprs htag).append hr.whole).append (.exprs ha.parts)
      rwa [List.append_nil] at hparts
    cases tag with
    | none =>
      unfold typeSpec
      refine (hmembers p).bind (fun r s hF => hF) fun r => finds_freshStruct.bind fun id => ?_
      refine (finds_arraySuffix law _).bind fun a => .pure fun hp _ => ?_
      obtain ⟨⟨⟨-, hF, hr⟩, -⟩, ha⟩ := hp
      exact hresult hr ha (declared_struct law (hF _ (by simp)) hr id none)
    | some x =>
      unfold typeSpec
      refine (hmembers p).bind (fun r s hF => hF) fun r => finds_freshStruct.bind fun id => ?_
      have hstruct : (p ∧ (∀ e ∈ memberEntries r.1 ++ [.members r.1], F e) ∧
          ResolvedMembers B [] r) ∧ True →
          B (.struct (.struct id (some x) (r.2.map Field.entry))) := fun hp =>
        declared_struct law (hp.1.2.1 _ (by simp)) hp.1.2.2 id (some x)
      refine Finds.bind (given_define law (fun hp _ => hstruct hp) (by simp) _) fun _ => ?_
      refine (finds_arraySuffix law _).bind fun a => .pure fun hp _ => ?_
      exact hresult hp.1.1.1.2.2 hp.2 (hstruct hp.1.1)

theorem given_memberLines (law : Invariant J B F) (ms : List (Member TypeSpec)) :
    Given (J k) p (fun r => ∀ e ∈ memberEntries r.1, F e) (memberLines ms [])
      (ResolvedMembers B []) :=
  given_memberLines_of law [] fun m _ _ => given_typeSpec law m.spec

theorem suffixExtent_eq_none {a : Option (ArraySuffix Expr)} (h : suffixExtent a = .none) :
    a = none := by
  rcases a with _ | ⟨_ | e, span⟩
  · rfl
  · cases h
  · simp only [suffixExtent] at h
    split at h <;> simp at h

theorem finds_declaratorTy (base : Option Ty) {extent : Extent} {d : Declarator}
    (hextent : p → extent = suffixExtent d.array) (hvalid : p → suffixExtent d.array ≠ .invalid) :
    Finds (J k) p (declaratorTy base extent d) (d.HasTy base) := by
  unfold declaratorTy
  split
  · refine .pure fun hp _ => ⟨hvalid hp, by simp, ?_, ?_⟩
    · cases suffixExtent d.array <;> simp [Extent.apply]
    · cases suffixExtent d.array <;> simp [Extent.apply]
  · rename_i t
    refine .ite (fun _ => finds_reported _ _ _) fun hsingle => ?_
    have hsingle : p → (some t).any Ty.isArray = true → d.array = none := by
      intro hp harray
      refine suffixExtent_eq_none ?_
      have hextent := hextent hp
      have hvalid := hvalid hp
      cases hcase : suffixExtent d.array <;> simp_all
    split
    · rename_i element hopen
      split
      · rename_i n hn
        refine .pure fun hp _ => ?_
        rw [hextent hp] at hopen
        refine ⟨hvalid hp, hsingle hp, fun hsized => absurd hopen (hsized element), ?_⟩
        intro e he
        obtain ⟨rfl, -⟩ := Ty.array.inj (Option.some.inj (hopen.symm.trans he))
        exact ⟨n, hn, rfl⟩
      · exact finds_reported _ _ _
    · rename_i hsized
      refine .pure fun hp _ => ?_
      rw [hextent hp] at hsized ⊢
      exact ⟨hvalid hp, hsingle hp, fun _ => rfl, fun e he => absurd he (hsized e)⟩

/-- A bound declarator of a line that starts with the given specifier. -/
structure ResolvedDeclarator (B : Binding → Prop) (q : Qualifiers) (spec : TypeSpec)
    (d : Declarator) : Prop where
  parts : Part.All (Part.Resolved B) d.parts
  entry : Entry.Resolved B (.variable q spec d)

theorem given_declarator (law : Invariant J B F) (q : Qualifiers) {spec : TypeSpec}
    (kind : VariableKind) (d : Declarator) (hspec : p → spec.Resolved B) :
    Given (J k) p (fun r => F (.variable q spec r)) (declarator q spec.ty kind d)
      (ResolvedDeclarator B q spec) := by
  unfold declarator
  refine (Finds.mapM_option fun e _ => finds_expr law e).bind fun init => ?_
  refine (finds_arraySuffix law d.array).bind fun a => ?_
  refine (finds_declaratorTy _ (d := { d with init, array := a.1 }) (fun hp => hp.2.extent)
    fun hp => hp.2.valid).bind fun ty => ?_
  -- The variable is declared before the result is there, but with all that the result holds.
  let v : Variable := ⟨d.name, ty, kind, q.storage, constantOf q ty init, d.span⟩
  let result : Declarator := { d with init, array := a.1, binding := some v }
  have hentry : ((p ∧ ∀ e, init = some e → Part.All (Part.Resolved B) e.parts) ∧
      ResolvedSuffix B a) ∧ Declarator.HasTy spec.ty { d with init, array := a.1 } ty →
      Entry.Resolved B (.variable q spec result) := by
    rintro ⟨⟨⟨hp, hinit⟩, -⟩, hty⟩
    exact ⟨hspec hp, hinit, v, rfl, rfl, hty.valid, hty.single, hty.sized, hty.unsized⟩
  refine Leads.bind (C := fun _ => F (.variable q spec result))
    (given_define law (b := .variable v) (fun hp hF => ?_) (by simp) _) (fun _ s hF => hF)
    fun _ => .pure fun hp _ => ⟨?_, hentry hp.1⟩
  · exact law.declared hF (hentry hp) ⟨v, rfl, rfl⟩
  · obtain ⟨⟨⟨⟨-, hinit⟩, ha⟩, -⟩, -⟩ := hp
    refine Part.all_append.mpr ⟨Part.all_append.mpr ⟨ha.parts, ?_⟩, ?_⟩
    · exact Part.all_flatMap.mpr fun e he => hinit e (Option.mem_toList.mp he)
    · simp [Part.All, Part.Holds]

theorem given_interfaceBlock (law : Invariant J B F) {b : InterfaceBlock}
    (h : Site.AllPlain b.sites) :
    Given (J k) p (fun r => ∀ e ∈ r.entries, F e) (interfaceBlock b)
      fun r => Resolution B r.parts r.entries := by
  obtain ⟨q, name, ms, inst⟩ := b
  unfold interfaceBlock
  cases inst with
  | none =>
    let result (r : List (Member TypeSpec) × List Field) : InterfaceBlock := ⟨q, name, r.1, none⟩
    have hmembers : Given (J k) p (fun r => ∀ e ∈ (result r).entries, F e) (memberLines ms [])
        (ResolvedMembers B []) := (given_memberLines law ms).ask fun r hF =>
      (List.forall_mem_append.mp (List.forall_mem_append.mp hF).1).1
    refine hmembers.bind (fun r s hF => hF) fun r => ?_
    have hentry : ResolvedMembers B [] r → Entry.Resolved B (.block (result r)) := fun hr =>
      ⟨hr.members, by simp [result]⟩
    refine Finds.bind (Finds.forIn fun f hf => ?_) fun _ => .pure fun hp _ => ?_
    · refine given_define law (fun hp _ => ?_) (by simp) _
      obtain ⟨-, hF, hr⟩ := hp
      rw [hr.fields, List.nil_append] at hf
      exact law.declared (hF _ (by simp [InterfaceBlock.entries, result])) (hentry hr)
        (.inr ⟨f, hf, rfl, rfl⟩)
    · obtain ⟨⟨-, -, hr⟩, -⟩ := hp
      refine hr.whole.append ⟨Part.all_nil, ?_⟩
      simpa using hentry hr
  | some d =>
    have hinit : d.init = none := h (.blockInstance d) (by simp [InterfaceBlock.sites])
    have hmembers : Given (J k) p (fun r => ∀ e ∈ memberEntries r.1 ++ [.members r.1], F e)
        (memberLines ms []) (ResolvedMembers B []) := (given_memberLines law ms).ask fun r hF =>
      (List.forall_mem_append.mp hF).1
    refine hmembers.bind (fun r s hF => (List.forall_mem_append.mp hF).1) fun r => ?_
    refine finds_freshStruct.bind fun id => (finds_arraySuffix law d.array).bind fun a => ?_
    refine (finds_requireSized _ _ _).bind fun ty => finds_declarationKind.bind fun kind => ?_
    let v : Variable := ⟨d.name, ty, kind, q.storage, none, d.span⟩
    let result : InterfaceBlock := ⟨q, name, r.1, some { d with array := a.1, binding := some v }⟩
    have hentry : ((((p ∧ (∀ e ∈ memberEntries r.1 ++ [.members r.1], F e) ∧
        ResolvedMembers B [] r) ∧ True) ∧ ResolvedSuffix B a) ∧
        ty = a.2.apply (some (.struct id (some name) (r.2.map Field.entry))) ∧
        Sized (a.2.apply (some (.struct id (some name) (r.2.map Field.entry))))) ∧ True →
        Entry.Resolved B (.block result) := by
      rintro ⟨⟨⟨⟨⟨-, hF, hr⟩, -⟩, ha⟩, hty, hsized⟩, -⟩
      refine ⟨hr.members, fun d' hd' => ?_⟩
      obtain rfl := Option.some.inj hd'
      refine ⟨ha.valid, v, _, rfl, declared_struct law (hF _ (by simp)) hr id (some name), ?_, ?_⟩
      · exact hty.trans (by rw [ha.extent])
      · rw [← hty] at hsized
        exact hsized
    refine Leads.bind (C := fun _ => ∀ e ∈ result.entries, F e)
      (given_define law (b := .variable v) (fun hp hF => ?_) (by simp) _) (fun _ s hF => hF)
      fun _ => .pure fun hp _ => ?_
    · exact law.declared (hF _ (by simp [InterfaceBlock.entries])) (hentry hp)
        (.inl ⟨_, v, rfl, rfl, rfl⟩)
    · have hblock := hentry hp.1
      obtain ⟨⟨⟨⟨⟨⟨-, -, hr⟩, -⟩, ha⟩, -⟩, -⟩, -⟩ := hp
      refine hr.whole.append ⟨?_, by simpa using hblock⟩
      simp [Declarator.parts, hinit, ha.parts, Part.Holds]

theorem given_declaration (law : Invariant J B F) {d : Declaration} (h : Site.AllPlain d.sites) :
    Given (J k) p (fun r => ∀ e ∈ r.entries, F e) (declaration d)
      fun r => Resolution B r.parts r.entries := by
  cases d with
  | vars q spec ds span =>
    unfold declaration
    refine (given_typeSpec law spec).bind (fun r s hF => (List.forall_mem_append.mp hF).1)
      fun spec => finds_declarationKind.bind fun kind => ?_
    refine (Given.mapM fun d _ => given_declarator law q kind d fun hp => hp.1.2.2.resolved).bind
      (fun ds s hF => ?_) fun ds => .pure fun hp _ => ?_
    · exact List.forall_mem_map.mp (List.forall_mem_append.mp hF).2
    · obtain ⟨⟨⟨-, -, hspec⟩, -⟩, -, hds⟩ := hp
      refine hspec.resolution.append ⟨?_, ?_⟩
      · exact Part.all_flatMap.mpr fun d hd => (hds d hd).parts
      · exact List.forall_mem_map.mpr fun d hd => (hds d hd).entry
  | block b span =>
    unfold declaration
    exact (given_interfaceBlock law h).bind (fun r s hF => hF) fun b => .pure fun hp _ => hp.2.2
  | precision prec spec span =>
    unfold declaration
    exact (given_typeSpec law spec).bind (fun r s hF => hF) fun spec => .pure fun hp _ =>
      hp.2.2.resolution
  | invariant targets span =>
    unfold declaration
    refine Finds.bind (Finds.mapM (R := fun _ => True) fun t _ => ?_) fun ts => .pure fun _ _ => ?_
    · exact (finds_reference law _ _).bind fun v => .pure fun _ _ => trivial
    · refine .exprs (Part.all_flatMap.mpr fun t _ => ?_)
      cases t.binding <;> simp [Part.All, Part.Holds]

theorem given_ownScope (law : Invariant J B F) {s : Stmt} {x : Bind Stmt} {C Q : Stmt → Prop}
    (hx : ∀ k, Given (J k) p C x Q) : Given (J k) p C (ownScope s x) Q :=
  .ite (fun _ => hx k) fun _ => given_nested law (hx (k + 1))

/-- The statement with what is declared in it. -/
abbrev ResolvedStmt (B : Binding → Prop) (s : Stmt) : Prop :=
  Resolution B s.parts s.entries

theorem given_statements_of {ss : List Stmt} (hplain : Site.AllPlain (Stmt.allSites ss))
    (h : ∀ s ∈ ss, Site.AllPlain s.sites → ∀ p,
      Given (J k) p (fun r => ∀ e ∈ r.entries, F e) (stmt s) (ResolvedStmt B)) :
    Given (J k) p (fun rs => ∀ e ∈ Stmt.allEntries rs, F e) (statements ss)
      fun rs => Resolution B (Stmt.allParts rs) (Stmt.allEntries rs) := by
  induction ss generalizing p with
  | nil =>
    unfold statements
    exact .pure fun _ _ => .nil
  | cons s ss ih =>
    obtain ⟨hs, hss⟩ := List.forall_mem_append.mp hplain
    unfold statements
    refine (h s (by simp) hs p).bind (fun r t hF => (List.forall_mem_append.mp hF).1) fun r => ?_
    refine (ih hss fun a ha => h a (by simp [ha])).bind
      (fun rs t hF => (List.forall_mem_append.mp hF).2) fun rs => .pure fun hp _ => ?_
    exact hp.1.2.2.append hp.2.2

theorem given_stmt (law : Invariant J B F) {s : Stmt} (h : Site.AllPlain s.sites) :
    Given (J k) p (fun r => ∀ e ∈ r.entries, F e) (stmt s) (ResolvedStmt B) := by
  -- Nested statements stand deeper and behind other declarations, so the depth and the premise
  -- vary.
  induction s using Stmt.induction generalizing p k with
  | expr e span | caseLabel e span =>
    unfold stmt
    exact (finds_expr law e).bind fun e => .pure fun hp _ => .exprs hp.2
  | giveBack value span =>
    cases value with
    | none =>
      unfold stmt
      exact .pure fun _ _ => .nil
    | some e =>
      unfold stmt
      exact (finds_expr law e).bind fun e => .pure fun hp _ => .exprs hp.2
  | empty span | defaultLabel span | continueLoop span | breakLoop span | discard span =>
    unfold stmt
    exact .pure fun _ _ => .nil
  | block stmts inner span ih =>
    unfold stmt
    exact (given_nested law (given_statements_of h fun s hs hplain p => ih s hs hplain)).bind
      (fun ss t hF => hF) fun ss => .pure fun hp _ => hp.2.2
  | decl d span =>
    unfold stmt
    exact (given_declaration law h).bind (fun d t hF => hF) fun d => .pure fun hp _ => hp.2.2
  | branch c t e span iht ihe =>
    cases e with
    | none =>
      have ht := (List.forall_mem_cons.mp h).2
      unfold stmt
      refine (finds_expr law c).bind fun c => ?_
      refine (given_ownScope law fun k => iht ht).bind (fun t s hF => hF)
        fun t => .pure fun hp _ => ?_
      exact (Resolution.exprs hp.1.2).append hp.2.2
    | some e =>
      obtain ⟨ht, he⟩ := List.forall_mem_append.mp (List.forall_mem_cons.mp h).2
      unfold stmt
      refine (finds_expr law c).bind fun c => ?_
      refine (given_ownScope law fun k => iht ht).bind
        (fun t s hF => (List.forall_mem_append.mp hF).1) fun t => ?_
      refine (given_ownScope law fun k => ihe e rfl he).bind
        (fun e s hF => (List.forall_mem_append.mp hF).2) fun e => .pure fun hp _ => ?_
      exact ((Resolution.exprs hp.1.1.2).append hp.1.2.2).append hp.2.2
  | switch e stmts inner span ih =>
    have hbody := (List.forall_mem_cons.mp h).2
    unfold stmt
    refine (finds_expr law e).bind fun e => ?_
    refine (given_nested law (given_statements_of hbody fun s hs hplain p => ih s hs hplain)).bind
      (fun ss t hF => hF) fun ss => .pure fun hp _ => ?_
    exact (Resolution.exprs hp.1.2).append hp.2.2
  | whileLoop c body span ih =>
    have hbody := (List.forall_mem_cons.mp h).2
    unfold stmt
    refine (finds_expr law c).bind fun c => ?_
    refine (given_ownScope law fun k => ih hbody).bind (fun b s hF => hF)
      fun b => .pure fun hp _ => ?_
    exact (Resolution.exprs hp.1.2).append hp.2.2
  | doLoop body c span ih =>
    have hbody := (List.forall_mem_cons.mp h).2
    unfold stmt
    refine (given_ownScope law fun k => ih hbody).bind (fun b s hF => hF) fun b => ?_
    refine (finds_expr law c).bind fun c => .pure fun hp _ => ?_
    exact (Resolution.exprs hp.2).append hp.1.2.2
  | forLoop init c u body span ihinit ihbody =>
    cases init with
    | none =>
      have hbody := (List.forall_mem_append.mp h).2
      unfold stmt
      refine given_nested law ?_
      refine (finds_optionExpr law c).bind fun c => (finds_optionExpr law u).bind fun u => ?_
      refine (given_ownScope law fun k => ihbody hbody).bind (fun b s hF => hF)
        fun b => .pure fun hp _ => ?_
      exact ((Resolution.exprs hp.1.1.2).append (.exprs hp.1.2)).append hp.2.2
    | some s =>
      obtain ⟨hheader, hbody⟩ := List.forall_mem_append.mp h
      have hs := (List.forall_mem_append.mp (List.forall_mem_append.mp hheader).1).1
      unfold stmt
      refine given_nested law ?_
      refine (ihinit s rfl hs).bind (fun s t hF => (List.forall_mem_append.mp hF).1) fun s => ?_
      refine (finds_optionExpr law c).bind fun c => (finds_optionExpr law u).bind fun u => ?_
      refine (given_ownScope law fun k => ihbody hbody).bind
        (fun b s hF => (List.forall_mem_append.mp hF).2) fun b => .pure fun hp _ => ?_
      obtain ⟨⟨⟨⟨-, -, hs⟩, hc⟩, hu⟩, -, hb⟩ := hp
      have hall := ((hs.append (.exprs hc)).append (.exprs hu)).append hb
      rwa [List.append_nil, List.append_nil] at hall

theorem given_statements (law : Invariant J B F) {ss : List Stmt}
    (h : Site.AllPlain (Stmt.allSites ss)) :
    Given (J k) p (fun rs => ∀ e ∈ Stmt.allEntries rs, F e) (statements ss)
      fun rs => Resolution B (Stmt.allParts rs) (Stmt.allEntries rs) :=
  given_statements_of h fun _ _ hs _ => given_stmt law hs

structure ResolvedParameter (B : Binding → Prop) (r : ParamDecl × Parameter) : Prop where
  resolution : Resolution B (r.1.spec.parts ++ suffixParts r.1.array) r.1.spec.entries
  spec : r.1.spec.Resolved B
  valid : suffixExtent r.1.array ≠ .invalid
  sized : Sized r.1.ty
  parameter : r.2 = r.1.parameter
  binding : r.1.binding = none

theorem given_parameter (law : Invariant J B F) {d : ParamDecl} (h : d.binding = none) :
    Given (J k) p (fun r => ∀ e ∈ r.1.spec.entries, F e) (parameter d) (ResolvedParameter B) := by
  unfold parameter
  refine (given_typeSpec law _).bind (fun spec s hF => hF) fun spec => ?_
  refine (finds_arraySuffix law _).bind fun a => ?_
  refine (finds_requireSized _ _ _).bind fun ty => .pure fun hp _ => ?_
  obtain ⟨⟨⟨-, -, hspec⟩, ha⟩, rfl, hsized⟩ := hp
  have hparts := hspec.resolution.append (.exprs ha.parts)
  rw [List.append_nil] at hparts
  rw [ha.extent] at hsized ⊢
  exact ⟨hparts, hspec.resolved, ha.valid, hsized, rfl, h⟩

theorem ResolvedParameter.entry {r : ParamDecl × Parameter} (h : ResolvedParameter B r)
    {v : Option Variable} (hv : ∀ w, v = some w → w.ty = r.1.ty) :
    Resolution B (r.1.spec.parts ++ suffixParts r.1.array ++ v.toList.map .binding)
      (r.1.spec.entries ++ [.parameter { r.1 with binding := v }]) := by
  refine h.resolution.append ⟨?_, ?_⟩
  · cases v <;> simp [Part.All, Part.Holds]
  · simp only [List.mem_singleton, forall_eq]
    exact ⟨h.spec, h.valid, h.sized, hv⟩

theorem given_parameterVariable (law : Invariant J B F) {r : ParamDecl × Parameter}
    (h : p → ResolvedParameter B r) :
    Given (J k) p (fun d => ∀ e ∈ d.entries, F e) (parameterVariable r)
      fun d => Resolution B d.parts d.entries := by
  unfold parameterVariable
  split
  · refine .pure fun hp _ => ?_
    have hnone := (h hp).binding
    have hentry := (h hp).entry (v := none) (by simp)
    obtain ⟨⟨q, spec, x, array, span, v⟩, o⟩ := r
    obtain rfl : v = none := hnone
    exact hentry
  · rename_i x hx
    let v : Variable := ⟨x, r.2.ty, .parameter, r.1.qualifiers.storage, none, r.1.span⟩
    let result : ParamDecl := { r.1 with binding := some v }
    have hv : p → ∀ w, some v = some w → w.ty = r.1.ty := by
      rintro hp w hw
      obtain rfl := Option.some.inj hw
      exact congrArg Parameter.ty (h hp).parameter
    refine Leads.bind (C := fun _ => ∀ e ∈ result.entries, F e)
      (given_define law (b := .variable v) (fun hp hF => ?_) (by simp) _) (fun _ s hF => hF)
      fun _ => .pure fun hp _ => (h hp.1).entry (hv hp.1)
    have hmem : .parameter result ∈ result.entries :=
      List.mem_append_right _ (List.mem_singleton_self _)
    exact law.declared (hF _ hmem) (((h hp).entry (hv hp)).entries _ hmem) ⟨v, rfl, rfl⟩

/-- The first half of binding a function: what its signature says. -/
def header (f : FunctionDecl) : Bind (TypeSpec × List (ParamDecl × Parameter)) := do
  let spec ← typeSpec f.spec
  let params ← f.params.mapM parameter
  return (spec, params)

/-- The second half, once the function is declared. -/
def rest (f : FunctionDecl) (h : TypeSpec × List (ParamDecl × Parameter)) : Bind FunctionDecl :=
  match f.body with
  | none => return { f with spec := h.1, params := h.2.map Prod.fst }
  | some body => nested do
    let params ← h.2.mapM parameterVariable
    let stmts ← statements body.stmts
    return { f with spec := h.1, params, body := some { body with stmts } }

theorem function_eq (f : FunctionDecl) :
    function f = header f >>= fun h =>
      addOverload f.name ⟨h.2.map Prod.snd, h.1.ty, f.span, f.body.isSome⟩ >>= fun _ =>
        rest f h := by
  obtain ⟨q, spec, name, params, body, span⟩ := f
  cases body <;> simp only [function, header, rest, bind_assoc, pure_bind]

structure ResolvedHeader (B : Binding → Prop) (spec : TypeSpec)
    (h : TypeSpec × List (ParamDecl × Parameter)) : Prop where
  spec : ResolvedSpec B spec h.1
  params : ∀ r ∈ h.2, ResolvedParameter B r

theorem given_header (law : Invariant J B F) {f : FunctionDecl}
    (hparams : ∀ d ∈ f.params, d.binding = none) :
    Given (J k) p (fun h => (∀ e ∈ h.1.entries, F e) ∧ ∀ r ∈ h.2, ∀ e ∈ r.1.spec.entries, F e)
      (header f) (ResolvedHeader B f.spec) := by
  unfold header
  refine (given_typeSpec law _).bind (fun spec s hF => hF.1) fun spec => ?_
  refine (Given.mapM fun d hd => given_parameter law (hparams d hd)).bind (fun ps s hF => hF.2)
    fun ps => .pure fun hp _ => ⟨hp.1.2.2, hp.2.2⟩

theorem parameter_parameterVariable (r : ParamDecl × Parameter) (s : BindState) :
    (parameterVariable r s).1.parameter = r.1.parameter := by
  obtain ⟨⟨q, spec, x, array, span, v⟩, o⟩ := r
  cases x <;> rfl

theorem type_parameterVariable (r : ParamDecl × Parameter) (s : BindState) :
    ((parameterVariable r s).1.spec, (parameterVariable r s).1.array) = (r.1.spec, r.1.array) := by
  obtain ⟨⟨q, spec, x, array, span, v⟩, o⟩ := r
  cases x <;> rfl

theorem map_parameterVariables {α : Type} {g : ParamDecl → α}
    (h : ∀ r s, g (parameterVariable r s).1 = g r.1) (rs : List (ParamDecl × Parameter))
    (s : BindState) : ((rs.mapM parameterVariable) s).1.map g = rs.map fun r => g r.1 := by
  induction rs generalizing s with
  | nil => rfl
  | cons r rs ih =>
    rw [List.mapM_cons, List.map_cons, ← ih (parameterVariable r s).2, ← h r s]
    rfl

theorem spec_rest (f : FunctionDecl) (h : TypeSpec × List (ParamDecl × Parameter)) (s : BindState) :
    (rest f h s).1.spec = h.1 := by
  obtain ⟨q, spec, name, params, body, span⟩ := f
  cases body <;> rfl

theorem name_rest (f : FunctionDecl) (h : TypeSpec × List (ParamDecl × Parameter)) (s : BindState) :
    (rest f h s).1.name = f.name := by
  obtain ⟨q, spec, name, params, body, span⟩ := f
  cases body <;> rfl

theorem map_params_rest {α : Type} {g : ParamDecl → α}
    (hg : ∀ r s, g (parameterVariable r s).1 = g r.1) (f : FunctionDecl)
    (h : TypeSpec × List (ParamDecl × Parameter)) (s : BindState) :
    (rest f h s).1.params.map g = h.2.map fun r => g r.1 := by
  obtain ⟨q, spec, name, params, body, span⟩ := f
  cases body with
  | none => exact List.map_map ..
  | some body => exact map_parameterVariables hg h.2 _

theorem overload_rest (f : FunctionDecl) (h : TypeSpec × List (ParamDecl × Parameter))
    (s : BindState) : (rest f h s).1.overload =
      ⟨h.2.map fun r => r.1.parameter, h.1.ty, f.span, f.body.isSome⟩ := by
  rw [← map_params_rest parameter_parameterVariable f h s]
  obtain ⟨q, spec, name, params, body, span⟩ := f
  cases body <;> rfl

theorem mem_params_rest (f : FunctionDecl) {h : TypeSpec × List (ParamDecl × Parameter)}
    (s : BindState) {r : ParamDecl × Parameter} (hr : r ∈ h.2) :
    ∃ d ∈ (rest f h s).1.params, d.spec = r.1.spec ∧ d.array = r.1.array := by
  have hmem : (r.1.spec, r.1.array) ∈ (rest f h s).1.params.map fun d => (d.spec, d.array) := by
    rw [map_params_rest type_parameterVariable f h s]
    exact List.mem_map.mpr ⟨r, hr, rfl⟩
  obtain ⟨d, hd, heq⟩ := List.mem_map.mp hmem
  exact ⟨d, hd, (Prod.mk.inj heq).1, (Prod.mk.inj heq).2⟩

theorem ResolvedHeader.signed {f : FunctionDecl} {h : TypeSpec × List (ParamDecl × Parameter)}
    (hh : ResolvedHeader B f.spec h) (s : BindState) : (rest f h s).1.Signed B := by
  refine ⟨spec_rest f h s ▸ hh.spec.resolved, fun d hd => ?_⟩
  have hmem : (d.spec, d.array) ∈ (rest f h s).1.params.map fun d => (d.spec, d.array) :=
    List.mem_map.mpr ⟨d, hd, rfl⟩
  rw [map_params_rest type_parameterVariable f h s] at hmem
  obtain ⟨r, hr, heq⟩ := List.mem_map.mp hmem
  obtain ⟨hspec, harray⟩ := Prod.mk.inj heq
  exact ⟨hspec ▸ (hh.params r hr).spec, harray ▸ (hh.params r hr).valid⟩

theorem entries_rest {f : FunctionDecl} {h : TypeSpec × List (ParamDecl × Parameter)}
    {s : BindState} (hF : ∀ e ∈ (rest f h s).1.entries, F e) :
    (∀ e ∈ h.1.entries, F e) ∧ ∀ r ∈ h.2, ∀ e ∈ r.1.spec.entries, F e := by
  obtain ⟨hheader, -⟩ := List.forall_mem_append.mp hF
  obtain ⟨hheader, -⟩ := List.forall_mem_append.mp hheader
  obtain ⟨hresult, hheader⟩ := List.forall_mem_append.mp hheader
  refine ⟨spec_rest f h s ▸ hresult, fun r hr e he => ?_⟩
  obtain ⟨d, hd, heq, -⟩ := mem_params_rest f s hr
  refine hheader e (List.mem_flatMap.mpr ⟨d, hd, ?_⟩)
  exact List.mem_append_left _ (heq ▸ he)

theorem given_rest (law : Invariant J B F) {f : FunctionDecl}
    {h : TypeSpec × List (ParamDecl × Parameter)} (hplain : Site.AllPlain f.sites)
    (hh : p → ResolvedHeader B f.spec h) :
    Given (J k) p (fun r => ∀ e ∈ r.entries, F e) (rest f h)
      fun r => Resolution B r.parts r.entries := by
  obtain ⟨q, spec, name, params, body, span⟩ := f
  cases body with
  | none =>
    refine .pure fun hp _ => ?_
    have hparams : Resolution B ((h.2.map Prod.fst).flatMap ParamDecl.parts)
        ((h.2.map Prod.fst).flatMap ParamDecl.entries) := by
      refine .flatMap fun d hd => ?_
      obtain ⟨r, hr, rfl⟩ := List.mem_map.mp hd
      have hparam := (hh hp).params r hr
      have hentry := hparam.entry (v := r.1.binding) (by simp [hparam.binding])
      exact hentry
    have hheader := ((hh hp).spec.resolution.append hparams).snoc
      (e := .function ⟨q, h.1, name, h.2.map Prod.fst, none, span⟩) (hh hp).spec.resolved
    exact hheader.append .nil
  | some body =>
    have hbody : Site.AllPlain (Stmt.allSites body.stmts) := fun s hs =>
      hplain s (List.mem_append_right _ (by simpa using hs))
    refine given_nested law ?_
    refine Leads.bind (Given.mapM fun r hr =>
      given_parameterVariable law fun hp => (hh hp).params r hr) (fun ds s hF => ?_) fun ds => ?_
    · have hheader := (List.forall_mem_append.mp hF).1
      have hparams := (List.forall_mem_append.mp (List.forall_mem_append.mp hheader).1).2
      exact fun d hd e he => hparams e (List.mem_flatMap.mpr ⟨d, hd, he⟩)
    · refine (given_statements law hbody).bind (fun ss s hF => ?_) fun ss => .pure fun hp _ => ?_
      · exact fun e he => (List.forall_mem_append.mp hF).2 e (List.mem_append_left _ he)
      · obtain ⟨⟨hp, -, hds⟩, -, hss⟩ := hp
        have hheader := ((hh hp).spec.resolution.append (.flatMap hds)).snoc
          (e := .function ⟨q, h.1, name, ds, some ⟨ss, body.span⟩, span⟩) (hh hp).spec.resolved
        exact hheader.append (hss.append .nil)

theorem leads_addOverload {J K : ScopeStack → Prop} {C : Unit → Prop} {name : String}
    {o : Overload} (h : p → C () → ∀ t t', J t → t.addOverload name o = .ok t' → K t') :
    Leads J p C (addOverload name o) (fun _ => K) fun _ => True := by
  refine finds_get.bind fun s => ?_
  split
  · rename_i scopes hadd
    exact leads_modify (fun _ => rfl) fun hp hc _ _ => h hp.1 hc _ _ hp.2 hadd
  · exact fun s => ⟨List.suffix_cons _ _, fun _ _ hnil => (List.cons_ne_nil _ _ hnil).elim⟩

theorem leads_function {K : String → Overload → Nat → ScopeStack → Prop}
    {N : String → Overload → Prop} (law : Invariant J B F) (law' : ∀ x o, Invariant (K x o) B F)
    (hadd : ∀ r t t', F (.function r) → N r.name r.overload → r.Signed B → J k t →
      t.addOverload r.name r.overload = .ok t' → K r.name r.overload k t')
    {f : FunctionDecl} (hplain : Site.AllPlain f.sites)
    (hparams : ∀ d ∈ f.params, d.binding = none) :
    Leads (J k) p (fun r => (∀ e ∈ r.entries, F e) ∧ N r.name r.overload) (function f)
      (fun r => K r.name r.overload k) fun r => Resolution B r.parts r.entries := by
  rw [function_eq]
  refine Leads.bind (given_header law hparams) (fun h s hF => entries_rest hF.1) fun h => ?_
  let o : Overload := ⟨h.2.map Prod.snd, h.1.ty, f.span, f.body.isSome⟩
  have ho : ResolvedHeader B f.spec h → ∀ s, (rest f h s).1.overload = o := by
    intro hh s
    have hsnd : (h.2.map fun r => r.1.parameter) = h.2.map Prod.snd :=
      List.map_congr_left fun r hr => (hh.params r hr).parameter.symm
    rw [overload_rest, hsnd]
  refine Leads.bind (I := fun _ => K f.name o k) (P := fun _ => True) (C := fun _ => ∃ s,
    (∀ e ∈ (rest f h s).1.entries, F e) ∧ N (rest f h s).1.name (rest f h s).1.overload)
    (leads_addOverload ?_) (fun _ s hF => ⟨s, hF⟩) fun _ => ?_
  · rintro ⟨-, -, hh⟩ ⟨s, hF, hN⟩ t t' ht hok
    have hentry : F (.function (rest f h s).1) := hF _ (by simp [FunctionDecl.entries])
    have hnext := hadd (rest f h s).1 t t' hentry hN
    rw [name_rest, ho hh] at hnext
    exact hnext (hh.signed s) ht hok
  · have hrest : ∀ {q}, (q → ResolvedHeader B f.spec h) → Given (K f.name o k) q
        (fun r => ∀ e ∈ r.entries, F e) (rest f h) fun r => Resolution B r.parts r.entries :=
      given_rest (law' f.name o) hplain
    refine ((hrest fun hp => hp.1.2.2).ask fun r hF => hF.1).to fun hp s t ht => ?_
    rw [name_rest, ho hp.1.2.2]
    exact ht

theorem leads_topLevel {J : List (String × Overload) → Nat → ScopeStack → Prop}
    {T L : List (String × Overload)} (law : ∀ L, Invariant (J L) B F)
    (hadd : ∀ L r t t', F (.function r) → L ++ [(r.name, r.overload)] <+: T → r.Signed B →
      J L k t → t.addOverload r.name r.overload = .ok t' → J (L ++ [(r.name, r.overload)]) k t')
    {d : TopLevel} (hplain : Site.AllPlain d.sites) (hbare : Part.All Part.Bare d.parts) :
    Leads (J L k) p (fun r => (∀ e ∈ r.entries, F e) ∧ L ++ r.signatures <+: T) (topLevel d)
      (fun r => J (L ++ r.signatures) k) fun r => Resolution B r.parts r.entries := by
  cases d with
  | declaration d =>
    refine Leads.bind (given_declaration (law L) hplain) (fun r s hF => hF.1) fun r => ?_
    exact .done (fun hp _ => hp.2.2) fun t ht => (List.append_nil L).symm ▸ ht
  | function f =>
    have hparams : ∀ d ∈ f.params, d.binding = none := fun d hd =>
      binding_of_bare (Part.all_flatMap.mp
        (Part.all_append.mp (Part.all_append.mp hbare).1).2 d hd)
    refine Leads.bind (leads_function (law L) (fun x o => law (L ++ [(x, o)]))
      (N := fun x o => L ++ [(x, o)] <+: T) (hadd L) hplain hparams) (fun r s hF => hF) fun r => ?_
    exact .done (fun hp _ => hp.2.2) fun _ ht => ht

theorem leads_unit {J : List (String × Overload) → Nat → ScopeStack → Prop}
    {T L : List (String × Overload)} (law : ∀ L, Invariant (J L) B F)
    (hadd : ∀ L r t t', F (.function r) → L ++ [(r.name, r.overload)] <+: T → r.Signed B →
      J L k t → t.addOverload r.name r.overload = .ok t' → J (L ++ [(r.name, r.overload)]) k t')
    {unit : TranslationUnit} (hplain : Site.AllPlain (TranslationUnit.sites unit))
    (hbare : Part.All Part.Bare (TranslationUnit.parts unit)) :
    Leads (J L k) p (fun r => (∀ e ∈ TranslationUnit.entries r, F e) ∧
        L ++ TranslationUnit.signatures r <+: T) (unit.mapM topLevel)
      (fun r => J (L ++ TranslationUnit.signatures r) k)
      fun r => Resolution B (TranslationUnit.parts r) (TranslationUnit.entries r) := by
  induction unit generalizing L p with
  | nil =>
    exact .done (fun _ _ => .nil) fun t ht => (List.append_nil L).symm ▸ ht
  | cons d ds ih =>
    obtain ⟨hd, hds⟩ := List.forall_mem_append.mp hplain
    obtain ⟨hbare, hbares⟩ := Part.all_append.mp hbare
    rw [List.mapM_cons]
    have hassoc : ∀ r rs, L ++ TranslationUnit.signatures (r :: rs) =
        L ++ r.signatures ++ TranslationUnit.signatures rs := fun r rs =>
      (List.append_assoc L r.signatures (TranslationUnit.signatures rs)).symm
    refine Leads.bind (leads_topLevel law hadd hd hbare) (fun r s hF => ?_) fun r => ?_
    · obtain ⟨hF, hT⟩ := hF
      refine ⟨(List.forall_mem_append.mp hF).1, (List.prefix_append _ _).trans (hassoc r _ ▸ hT)⟩
    · refine Leads.bind (ih hds hbares) (fun rs s hF => ?_) fun rs => .done (fun hp _ => ?_) ?_
      · obtain ⟨hF, hT⟩ := hF
        exact ⟨(List.forall_mem_append.mp hF).2, hassoc r rs ▸ hT⟩
      · exact hp.1.2.2.append hp.2.2
      · exact fun t ht => (hassoc r rs).symm ▸ ht

end Bind

section Units

variable {B : Binding → Prop} {F : Entry → Prop} {unit : TranslationUnit}
  (hplain : Site.AllPlain (TranslationUnit.sites unit))
  (hbare : Part.All Part.Bare (TranslationUnit.parts unit)) (hclean : (bind unit).problems = [])
  (hF : ∀ e ∈ TranslationUnit.entries (bind unit).unit, F e)

include hplain hbare hclean hF

/-- Where the binder finds no problem, each name stands for a binding that was visible there, and
each declaration has the type that is written in it. What is known of the scopes may hang on the
signatures that were declared before. -/
theorem bind_resolved_of {J : List (String × Overload) → Nat → ScopeStack → Prop}
    (law : ∀ L, Bind.Invariant (J L) B F) (hstart : J [] 0 Bind.start.scopes)
    (hadd : ∀ L r t t', F (.function r) →
      L ++ [(r.name, r.overload)] <+: TranslationUnit.signatures (bind unit).unit →
      r.Signed B → J L 0 t → t.addOverload r.name r.overload = .ok t' →
      J (L ++ [(r.name, r.overload)]) 0 t') :
    Resolution B (TranslationUnit.parts (bind unit).unit)
      (TranslationUnit.entries (bind unit).unit) := by
  have hunit := Bind.leads_unit (p := True) (L := []) law hadd hplain hbare Bind.start
  have hnil := List.reverse_eq_nil_iff.mp hclean
  exact (hunit.2 trivial hstart hnil ⟨hF, List.prefix_rfl⟩).2

/-- The same for a property of all visible bindings. -/
theorem bind_resolved (hstart : Bind.start.scopes.All B)
    (hdeclared : ∀ e b, F e → e.Resolved B → e.Declares b → B b)
    (hnew : ∀ r, F (.function r) → r.Signed B →
      B (.function ⟨r.name, false, [r.overload]⟩))
    (hold : ∀ r f g, F (.function r) → r.Signed B → B (.function f) →
      f.addOverload r.overload = .ok g → B (.function g)) :
    Resolution B (TranslationUnit.parts (bind unit).unit)
      (TranslationUnit.entries (bind unit).unit) :=
  bind_resolved_of hplain hbare hclean hF (J := fun _ _ => ScopeStack.All B)
    (fun _ => Bind.invariant_all hdeclared) hstart fun _ r _ _ hr _ hsigned ht hadd =>
      ht.addOverload (hnew r hr hsigned) (fun f g => hold r f g hr hsigned) hadd

end Units

end Shader
