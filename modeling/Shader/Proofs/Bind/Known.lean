import Shader.Bind
import Shader.Proofs.Bind.Tells
import Shader.Proofs.Parse.Expr
import Shader.Proofs.Parse.Instance

/-! Nothing stays unknown in silence: where the binder reports no problem, every name in the tree is
resolved, and every type that a declaration gives is known. -/

namespace Shader

def Function.Known (f : Function) : Prop :=
  ∀ o ∈ f.overloads, o.result.isSome = true

def Binding.Known : Binding → Prop
  | .variable v => v.ty.isSome = true
  | .function f => f.Known
  | .struct _ => True

def Target.Known : Target → Prop
  | .unresolved => False
  | .function f => f.Known
  | .constructor _ => True

/-- The name at this node, if there is one, stands for something known. -/
def Expr.Known : Expr → Prop
  | .var _ binding _ => ∃ v, binding = some v ∧ v.ty.isSome = true
  | .call _ _ _ target _ => target.Known
  | _ => True

def Part.Known : Part → Prop
  | .node e => e.Known
  | _ => True

/-- The expressions here are resolved, and what is declared here has a known type. The constant of
a variable is that of its initializer. -/
def Site.Known : Site → Prop
  | .root e => Part.All Part.Known e.parts
  | .variable q d => (∀ e, d.init = some e → Part.All Part.Known e.parts) ∧
      ∃ v, d.binding = some v ∧ v.ty.isSome = true ∧ v.constant = Bind.constantOf q v.ty d.init
  | .blockInstance d => d.init = none ∧ ∃ v, d.binding = some v ∧ v.ty.isSome = true
  | .parameter p => ∀ v, p.binding = some v → v.ty.isSome = true

def Site.AllKnown (ps : List Site) : Prop :=
  ∀ p ∈ ps, p.Known

namespace Site

variable {ps qs : List Site}

theorem allKnown_nil : AllKnown [] := by simp [AllKnown]

theorem AllKnown.append (hp : AllKnown ps) (hq : AllKnown qs) : AllKnown (ps ++ qs) :=
  List.forall_mem_append.mpr ⟨hp, hq⟩

theorem AllKnown.cons {p : Site} (hp : p.Known) (h : AllKnown ps) : AllKnown (p :: ps) :=
  List.forall_mem_cons.mpr ⟨hp, h⟩

theorem allKnown_flatMap {α : Type} {sites : α → List Site} {as : List α}
    (h : ∀ a ∈ as, AllKnown (sites a)) : AllKnown (as.flatMap sites) := by
  intro p hp
  obtain ⟨a, ha, hp⟩ := List.mem_flatMap.mp hp
  exact h a ha p hp

theorem allKnown_option {e : Option Expr} (h : ∀ d, e = some d → Part.All Part.Known d.parts) :
    AllKnown (e.toList.map root) := by
  cases e with
  | none => exact allKnown_nil
  | some e => exact .cons (h e rfl) allKnown_nil

theorem allKnown_suffix {suffix : Option (ArraySuffix Expr)}
    (h : Part.All Part.Known (suffixParts suffix)) : AllKnown (suffixSites suffix) := by
  rcases suffix with _ | ⟨_ | e, span⟩
  · exact allKnown_nil
  · exact allKnown_nil
  · exact .cons h allKnown_nil

end Site

theorem Function.forall_result_addOverload {R : Option Ty → Prop} {f g : Function} {o : Overload}
    (ho : R o.result) (hf : ∀ p ∈ f.overloads, R p.result) (h : f.addOverload o = .ok g) :
    ∀ p ∈ g.overloads, R p.result := by
  unfold Function.addOverload at h
  split at h
  · obtain rfl := Except.ok.inj h
    intro p hp
    rcases List.mem_append.mp hp with hp | hp
    · exact hf p hp
    · obtain rfl := List.mem_singleton.mp hp
      exact ho
  · split at h
    · cases h
    · split at h
      · cases h
      · obtain rfl := Except.ok.inj h
        intro p hp
        obtain ⟨q, hq, -, hresult⟩ := Function.mem_markDefined hp
        rw [hresult]
        exact hf q hq

theorem Function.Known.addOverload {f g : Function} {o : Overload} (ho : o.result.isSome = true)
    (hf : f.Known) (h : f.addOverload o = .ok g) : g.Known :=
  forall_result_addOverload (R := fun r => r.isSome = true) ho hf h

theorem Function.known_singleton {name : String} {builtin : Bool} {o : Overload}
    (ho : o.result.isSome = true) : (Function.mk name builtin [o]).Known :=
  List.forall_mem_singleton.mpr ho

section Builtins

variable {B : Binding → Prop}
  (hnew : ∀ (p : Prototype) i, B (.function ⟨p.name, true, [p.overload i]⟩))
  (hold : ∀ (p : Prototype) i f g, B (.function f) → f.addOverload (p.overload i) = .ok g →
    B (.function g))

include hnew hold

theorem Prelude.all_declare {s : Scope} (hs : s.All B) (p : Prototype) : (declare s p).All B := by
  refine List.foldlRecOn _ _ hs fun s hs o ho => ?_
  obtain ⟨i, -, rfl⟩ := List.mem_map.mp ho
  cases hadd : s.addOverload p.name true (p.overload i) with
  | error e => simpa [hadd, Except.toOption] using hs
  | ok s' =>
    have hs' := hs.addOverload (hnew p i) (hold p i) hadd
    simpa [hadd, Except.toOption] using hs'

theorem Prelude.all_scope (hvariables : ∀ v ∈ dataVariables, B (.variable v))
    (hstruct : B (.struct depthRange)) : scope.All B := by
  have hscope : (dataVariables.foldl (fun s v => Scope.insert s v.name (.variable v))
      Scope.empty).All B :=
    List.foldlRecOn _ _ Scope.All.empty fun _ hs v hv => hs.insert (hvariables v hv)
  have hdata : dataScope.All B := hscope.insert (b := .struct depthRange) hstruct
  exact List.foldlRecOn _ _ hdata fun _ hs p _ => all_declare hnew hold hs p

theorem Bind.all_start (hvariables : ∀ v ∈ Prelude.dataVariables, B (.variable v))
    (hstruct : B (.struct Prelude.depthRange)) : start.scopes.All B where
  builtins _ hb := Option.some.inj hb ▸ Prelude.all_scope hnew hold hvariables hstruct
  inner := Scope.All.empty
  outer := by simp [start, ScopeStack.new]

end Builtins

namespace Bind

variable {p : Prop}

theorem tells_reference (name : String) (span : Span) :
    Tells Binding.Known p (reference name span) fun r => ∃ v, r = some v ∧ v.ty.isSome = true := by
  refine (tells_lookup name).bind fun r => ?_
  split
  · exact .pure fun hp => ⟨_, rfl, hp.2 _ rfl⟩
  · exact tells_reported _ _ _
  · exact tells_reported _ _ _

theorem tells_namedTy (name : String) (span : Span) :
    Tells Binding.Known p (namedTy name span) fun r => r.isSome = true := by
  refine (tells_lookup name).bind fun r => ?_
  split
  · exact .pure fun _ => rfl
  · exact tells_reported _ _ _
  · exact tells_reported _ _ _

theorem tells_size (e : Expr) (span : Span) :
    Tells Binding.Known p (size e span) fun extent => extent ≠ .invalid := by
  unfold size
  split
  · exact tells_reported _ _ _
  · split
    · exact .pure (by simp)
    · exact tells_reported _ _ _

theorem tells_plainTarget (name : String) (span : Span) :
    Tells Binding.Known p (plainTarget name span) Target.Known := by
  refine (tells_lookup name).bind fun r => ?_
  split
  · exact .pure fun hp => hp.2 _ rfl
  · exact .pure fun _ => trivial
  · exact tells_reported _ _ _
  · exact tells_reported _ _ _

theorem isSome_apply {base : Option Ty} {extent : Extent} (hbase : base.isSome = true)
    (hextent : extent ≠ .invalid) : (extent.apply base).isSome = true := by
  cases extent with
  | none => exact hbase
  | unsized => simpa [Extent.apply] using hbase
  | sized n => simpa [Extent.apply] using hbase
  | invalid => exact absurd rfl hextent

theorem known_constructorTarget {ty : Option Ty} (hty : ty.isSome = true) (args : List Expr) :
    (constructorTarget ty args).Known := by
  obtain ⟨t, rfl⟩ := Option.isSome_iff_exists.mp hty
  unfold constructorTarget constructorTy
  split
  · trivial
  · rename_i hnone
    split at hnone <;> cases hnone

theorem known_node {e : Expr} {ps : List Part} (hparts : e.parts = .node e :: ps) (he : e.Known)
    (hps : Part.All Part.Known ps) : Part.All Part.Known e.parts := by
  rw [hparts]
  exact Part.all_cons.mpr ⟨he, hps⟩

theorem tells_exprs_of {es : List Expr}
    (h : ∀ e ∈ es, ∀ p, Tells Binding.Known p (expr e) fun r => Part.All Part.Known r.parts) :
    Tells Binding.Known p (exprs es) fun rs => Part.All Part.Known (Expr.allParts rs) := by
  induction es generalizing p with
  | nil =>
    unfold exprs
    exact .pure fun _ => Part.all_nil
  | cons e es ih =>
    unfold exprs
    refine (h e (by simp) p).bind fun r => ?_
    refine (ih fun a ha => h a (by simp [ha])).bind fun rs => .pure fun hp => ?_
    exact Part.all_append.mpr ⟨hp.1.2, hp.2⟩

theorem tells_arraySuffix_of {suffix : Option (ArraySuffix Expr)}
    (h : ∀ e span, suffix = some ⟨some e, span⟩ →
      ∀ p, Tells Binding.Known p (expr e) fun r => Part.All Part.Known r.parts) :
    Tells Binding.Known p (arraySuffix suffix) fun r =>
      Part.All Part.Known (suffixParts r.1) ∧ r.2 ≠ .invalid := by
  rcases suffix with _ | ⟨_ | e, span⟩
  · unfold arraySuffix
    exact .pure fun _ => ⟨Part.all_nil, by simp⟩
  · unfold arraySuffix
    exact .pure fun _ => ⟨Part.all_nil, by simp⟩
  · unfold arraySuffix
    refine (h e span rfl p).bind fun r => (tells_size r span).bind fun extent => .pure fun hp => ?_
    exact ⟨hp.1.2, hp.2⟩

/-- Unless a problem is reported, binding resolves every name in an expression. -/
theorem tells_expr (e : Expr) :
    Tells Binding.Known p (expr e) fun r => Part.All Part.Known r.parts := by
  induction e using Expr.induction generalizing p with
  | int text n | float text n | bool b n =>
    unfold expr
    exact .pure fun _ => known_node rfl trivial Part.all_nil
  | var x binding n =>
    unfold expr
    refine (tells_reference x n.span).bind fun r => .pure fun hp => ?_
    exact known_node rfl hp.2 Part.all_nil
  | unary op e n ih | update op before e n ih | length e n ih | field e x n ih =>
    unfold expr
    exact ih.bind fun r => .pure fun hp => known_node rfl trivial hp.2
  | binary op l r n ihl ihr | comma l r n ihl ihr | assign op l r n ihl ihr | index l r n ihl ihr =>
    unfold expr
    refine ihl.bind fun l => ihr.bind fun r => .pure fun hp => ?_
    exact known_node rfl trivial (Part.all_append.mpr ⟨hp.1.2, hp.2⟩)
  | ternary c t e n ihc iht ihe =>
    unfold expr
    refine ihc.bind fun c => iht.bind fun t => ihe.bind fun e => .pure fun hp => ?_
    obtain ⟨⟨⟨-, hc⟩, ht⟩, he⟩ := hp
    exact known_node rfl trivial (Part.all_append.mpr ⟨Part.all_append.mpr ⟨hc, ht⟩, he⟩)
  | call callee suffix args target n ihsuffix ihargs =>
    have hsuffix : ∀ p, Tells Binding.Known p (arraySuffix suffix) fun r =>
        Part.All Part.Known (suffixParts r.1) ∧ r.2 ≠ .invalid :=
      fun p => tells_arraySuffix_of fun e span heq p => ihsuffix e span heq
    unfold expr
    refine (tells_exprs_of fun a ha p => ihargs a ha).bind fun args => ?_
    split
    · -- a function or a struct
      refine (tells_plainTarget _ _).bind fun target => .pure fun hp => ?_
      exact known_node rfl hp.2 (Part.all_append.mpr ⟨Part.all_nil, hp.1.2⟩)
    · -- an array of structs
      refine (tells_namedTy _ _).bind fun base => (hsuffix _).bind fun r => .pure fun hp => ?_
      obtain ⟨⟨⟨-, hargs⟩, hbase⟩, hr⟩ := hp
      exact known_node rfl (known_constructorTarget (isSome_apply hbase hr.2) _)
        (Part.all_append.mpr ⟨hr.1, hargs⟩)
    · -- a basic type or an array of one
      refine (hsuffix _).bind fun r => .pure fun hp => ?_
      obtain ⟨⟨-, hargs⟩, hr⟩ := hp
      exact known_node rfl (known_constructorTarget (isSome_apply rfl hr.2) _)
        (Part.all_append.mpr ⟨hr.1, hargs⟩)

theorem tells_arraySuffix (suffix : Option (ArraySuffix Expr)) :
    Tells Binding.Known p (arraySuffix suffix) fun r =>
      Site.AllKnown (suffixSites r.1) ∧ r.2 ≠ .invalid :=
  (tells_arraySuffix_of fun e _ _ _ => tells_expr e).mono fun _ h =>
    ⟨Site.allKnown_suffix h.1, h.2⟩

theorem tells_optionExpr (e : Option Expr) :
    Tells Binding.Known p (e.mapM expr) fun r => Site.AllKnown (r.toList.map .root) :=
  (Tells.mapM_option fun e _ => tells_expr e).mono fun _ h => Site.allKnown_option h

open Site

theorem tells_requireSized {ty : Option Ty} (name : String) (span : Span)
    (hty : p → ty.isSome = true) :
    Tells Binding.Known p (requireSized ty name span) fun t => t.isSome = true := by
  unfold requireSized
  split
  · exact tells_reported _ _ _
  · exact .pure hty

/-- Of a member without a known type nothing is asked here; it was reported. -/
theorem tells_requireSized_any (ty : Option Ty) (name : String) (span : Span) :
    Tells Binding.Known p (requireSized ty name span) fun _ => True := by
  unfold requireSized
  split
  · exact tells_reported _ _ _
  · exact .pure fun _ => trivial

theorem tells_memberNames (base : Option Ty) (ms : List MemberName) (fields : List Field) :
    Tells Binding.Known p (memberNames base ms fields) fun r =>
      AllKnown (r.1.flatMap MemberName.sites) := by
  induction ms generalizing fields p with
  | nil =>
    unfold memberNames
    exact .pure fun _ => allKnown_nil
  | cons m ms ih =>
    unfold memberNames
    refine (tells_arraySuffix m.array).bind fun r => ?_
    refine (tells_requireSized_any _ _ _).bind fun ty => ?_
    have hrest : ∀ (q : Prop) fields, (q → AllKnown (suffixSites r.1)) → Tells Binding.Known q
        (memberNames base ms fields >>= fun rest =>
          pure ({ m with array := r.1 } :: rest.1, rest.2))
        fun r => AllKnown (r.1.flatMap MemberName.sites) := by
      intro q fields hq
      exact (ih fields).bind fun rest => .pure fun hp => (hq hp.1).append hp.2
    refine .ite ((tells_report _ _).bind fun _ => ?_) ?_
    · exact hrest _ _ fun hp => hp.2.elim
    · exact hrest _ _ fun hp => hp.1.2.1

theorem tells_reportStruct (spec : TypeSpec) :
    Tells Binding.Known p (reportStruct spec) fun _ => True := by
  unfold reportStruct
  split
  · exact (tells_report _ _).mono fun _ h => h.elim
  · exact .pure fun _ => trivial

/-- The type is known, and so is everything inside the specifier. -/
def KnownSpec (spec : TypeSpec) : Prop :=
  spec.ty.isSome = true ∧ AllKnown spec.sites

theorem tells_memberLines_of {ms : List (Member TypeSpec)} (fields : List Field)
    (h : ∀ m ∈ ms, ∀ p, Tells Binding.Known p (typeSpec m.spec) KnownSpec) :
    Tells Binding.Known p (memberLines ms fields) fun r => AllKnown (memberSites r.1) := by
  induction ms generalizing fields p with
  | nil =>
    unfold memberLines
    exact .pure fun _ => allKnown_nil
  | cons m ms ih =>
    unfold memberLines
    refine (tells_reportStruct _).bind fun _ => (h m (by simp) _).bind fun spec => ?_
    refine (tells_memberNames _ _ _).bind fun names => ?_
    refine (ih _ fun a ha => h a (by simp [ha])).bind fun rest => .pure fun hp => ?_
    obtain ⟨⟨⟨-, hspec⟩, hnames⟩, hrest⟩ := hp
    exact (hspec.2.append hnames).append hrest

theorem tells_typeSpec (spec : TypeSpec) :
    Tells Binding.Known p (typeSpec spec) KnownSpec := by
  induction spec using TypeSpec.induction generalizing p with
  | basic b note =>
    unfold typeSpec
    refine (tells_arraySuffix _).bind fun r => .pure fun hp => ?_
    exact ⟨isSome_apply rfl hp.2.2, hp.2.1⟩
  | named x note =>
    unfold typeSpec
    refine (tells_namedTy _ _).bind fun base => (tells_arraySuffix _).bind fun r => .pure fun hp => ?_
    exact ⟨isSome_apply hp.1.2 hp.2.2, hp.2.1⟩
  | struct tag members span note ih =>
    unfold typeSpec
    refine (tells_memberLines_of _ fun m hm p => ih m hm).bind fun members => ?_
    refine tells_freshStruct.bind fun id => ?_
    cases tag with
    | none =>
      refine (tells_arraySuffix _).bind fun r => .pure fun hp => ?_
      exact ⟨isSome_apply rfl hp.2.2, hp.1.1.2.append hp.2.1⟩
    | some x =>
      refine (tells_define (b := .struct _) (fun _ => trivial) _).bind fun _ => ?_
      refine (tells_arraySuffix _).bind fun r => .pure fun hp => ?_
      exact ⟨isSome_apply rfl hp.2.2, hp.1.1.1.2.append hp.2.1⟩

theorem tells_memberLines (ms : List (Member TypeSpec)) (fields : List Field) :
    Tells Binding.Known p (memberLines ms fields) fun r => AllKnown (memberSites r.1) :=
  tells_memberLines_of fields fun m _ _ => tells_typeSpec m.spec

theorem tells_declaratorTy {base : Option Ty} {extent : Extent} (d : Declarator)
    (hbase : p → base.isSome = true) (hextent : p → extent ≠ .invalid) :
    Tells Binding.Known p (declaratorTy base extent d) fun ty => ty.isSome = true := by
  unfold declaratorTy
  split
  · exact .pure fun hp => absurd (hbase hp) (by simp)
  · refine .ite (tells_reported _ _ _) ?_
    split
    · split
      · exact .pure fun _ => rfl
      · exact tells_reported _ _ _
    · exact .pure fun hp => isSome_apply (hbase hp) (hextent hp)

theorem tells_declarator (quals : Qualifiers) {base : Option Ty} (kind : VariableKind)
    (d : Declarator) (hbase : p → base.isSome = true) :
    Tells Binding.Known p (declarator quals base kind d) fun r => AllKnown (r.sites quals) := by
  unfold declarator
  refine (Tells.mapM_option fun e _ => tells_expr e).bind fun init => ?_
  refine (tells_arraySuffix d.array).bind fun r => ?_
  refine (tells_declaratorTy _ (fun hp => hbase hp.1.1) fun hp => hp.2.2).bind fun ty => ?_
  refine (tells_define (b := .variable _) (fun hp => hp.2) _).bind fun _ => .pure fun hp => ?_
  obtain ⟨⟨⟨⟨-, hinit⟩, hr⟩, hty⟩, -⟩ := hp
  exact hr.1.append (.cons ⟨hinit, _, rfl, hty, rfl⟩ allKnown_nil)

theorem tells_interfaceBlock {b : InterfaceBlock} (h : AllPlain b.sites) :
    Tells Binding.Known p (interfaceBlock b) fun r => AllKnown r.sites := by
  unfold interfaceBlock
  refine (tells_memberLines _ _).bind fun r => ?_
  obtain ⟨members, fields⟩ := r
  dsimp only
  split
  · rename_i d hd
    have hinit : d.init = none := h (.blockInstance d) (by simp [InterfaceBlock.sites, hd])
    refine tells_freshStruct.bind fun id => (tells_arraySuffix d.array).bind fun a => ?_
    refine (tells_requireSized _ _ fun hp => isSome_apply rfl hp.2.2).bind fun ty => ?_
    refine tells_declarationKind.bind fun kind => ?_
    refine (tells_define (b := .variable _) (fun hp => hp.1.2) _).bind fun _ => .pure fun hp => ?_
    obtain ⟨⟨⟨⟨⟨⟨-, hmembers⟩, -⟩, ha⟩, hty⟩, -⟩, -⟩ := hp
    refine hmembers.append (AllKnown.append ?_ allKnown_nil)
    exact ha.1.append (.cons ⟨hinit, _, rfl, hty⟩ allKnown_nil)
  · rename_i hnone
    refine Tells.bind (Tells.forIn fun f _ => ?_) fun _ => .pure fun hp => ?_
    · refine tells_define (fun _ => ?_) _
      exact rfl
    · refine hp.1.2.append ?_
      simp [hnone, AllKnown]

theorem tells_declaration {d : Declaration} (h : AllPlain d.sites) :
    Tells Binding.Known p (declaration d) fun r => AllKnown r.sites := by
  cases d with
  | vars quals spec ds span =>
    unfold declaration
    refine (tells_typeSpec spec).bind fun spec => tells_declarationKind.bind fun kind => ?_
    refine (Tells.mapM fun d _ => tells_declarator quals kind d fun hp => hp.1.2.1).bind
      fun ds => .pure fun hp => ?_
    exact hp.1.1.2.2.append (allKnown_flatMap hp.2)
  | block b span =>
    unfold declaration
    exact (tells_interfaceBlock h).bind fun b => .pure fun hp => hp.2
  | precision prec spec span =>
    unfold declaration
    exact (tells_typeSpec spec).bind fun spec => .pure fun hp => hp.2.2
  | invariant targets span =>
    unfold declaration
    refine (Tells.mapM (R := fun _ => True) fun t _ => ?_).bind fun ts => .pure fun _ => allKnown_nil
    exact (tells_reference _ _).bind fun v => .pure fun _ => trivial

theorem tells_ownScope {s : Stmt} {x : Bind Stmt} {Q : Stmt → Prop}
    (hx : Tells Binding.Known p x Q) : Tells Binding.Known p (ownScope s x) Q :=
  .ite hx (tells_nested hx)

theorem tells_statements_of {ss : List Stmt} (hplain : AllPlain (Stmt.allSites ss))
    (h : ∀ s ∈ ss, AllPlain s.sites →
      ∀ p, Tells Binding.Known p (stmt s) fun r => AllKnown r.sites) :
    Tells Binding.Known p (statements ss) fun rs => AllKnown (Stmt.allSites rs) := by
  induction ss generalizing p with
  | nil =>
    unfold statements
    exact .pure fun _ => allKnown_nil
  | cons s ss ih =>
    obtain ⟨hs, hss⟩ := List.forall_mem_append.mp hplain
    unfold statements
    refine (h s (by simp) hs p).bind fun r => ?_
    refine (ih hss fun a ha => h a (by simp [ha])).bind fun rs => .pure fun hp => ?_
    exact hp.1.2.append hp.2

theorem tells_stmt {s : Stmt} (h : AllPlain s.sites) :
    Tells Binding.Known p (stmt s) fun r => AllKnown r.sites := by
  induction s using Stmt.induction generalizing p with
  | expr e span | caseLabel e span =>
    unfold stmt
    exact (tells_expr e).bind fun e => .pure fun hp => .cons hp.2 allKnown_nil
  | giveBack value span =>
    cases value with
    | none =>
      unfold stmt
      exact .pure fun _ => allKnown_nil
    | some e =>
      unfold stmt
      exact (tells_expr e).bind fun e => .pure fun hp => .cons hp.2 allKnown_nil
  | empty span | defaultLabel span | continueLoop span | breakLoop span | discard span =>
    unfold stmt
    exact .pure fun _ => allKnown_nil
  | block stmts inner span ih =>
    unfold stmt
    exact (tells_nested (tells_statements_of h fun s hs hplain p => ih s hs hplain)).bind
      fun ss => .pure fun hp => hp.2
  | decl d span =>
    unfold stmt
    exact (tells_declaration h).bind fun d => .pure fun hp => hp.2
  | branch c t e span iht ihe =>
    cases e with
    | none =>
      have ht := (List.forall_mem_cons.mp h).2
      unfold stmt
      refine (tells_expr c).bind fun c => (tells_ownScope (iht ht)).bind fun t => .pure fun hp => ?_
      exact .cons hp.1.2 hp.2
    | some e =>
      obtain ⟨ht, he⟩ := List.forall_mem_append.mp (List.forall_mem_cons.mp h).2
      unfold stmt
      refine (tells_expr c).bind fun c => (tells_ownScope (iht ht)).bind fun t => ?_
      refine (tells_ownScope (ihe e rfl he)).bind fun e => .pure fun hp => ?_
      exact .cons hp.1.1.2 (hp.1.2.append hp.2)
  | switch e stmts inner span ih =>
    have hbody := (List.forall_mem_cons.mp h).2
    unfold stmt
    refine (tells_expr e).bind fun e => ?_
    refine (tells_nested (tells_statements_of hbody fun s hs hplain p => ih s hs hplain)).bind
      fun ss => .pure fun hp => ?_
    exact .cons hp.1.2 hp.2
  | whileLoop c body span ih =>
    have hbody := (List.forall_mem_cons.mp h).2
    unfold stmt
    refine (tells_expr c).bind fun c => (tells_ownScope (ih hbody)).bind fun b => .pure fun hp => ?_
    exact .cons hp.1.2 hp.2
  | doLoop body c span ih =>
    have hbody := (List.forall_mem_cons.mp h).2
    unfold stmt
    refine (tells_ownScope (ih hbody)).bind fun b => (tells_expr c).bind fun c => .pure fun hp => ?_
    exact .cons hp.2 hp.1.2
  | forLoop init c u body span ihinit ihbody =>
    cases init with
    | none =>
      have hbody := (List.forall_mem_append.mp h).2
      unfold stmt
      refine tells_nested ((tells_optionExpr c).bind fun c => (tells_optionExpr u).bind fun u => ?_)
      refine (tells_ownScope (ihbody hbody)).bind fun b => .pure fun hp => ?_
      exact (hp.1.1.2.append hp.1.2).append hp.2
    | some s =>
      obtain ⟨hheader, hbody⟩ := List.forall_mem_append.mp h
      have hs := (List.forall_mem_append.mp (List.forall_mem_append.mp hheader).1).1
      unfold stmt
      refine tells_nested ((ihinit s rfl hs).bind fun s => (tells_optionExpr c).bind fun c => ?_)
      refine (tells_optionExpr u).bind fun u => ?_
      refine (tells_ownScope (ihbody hbody)).bind fun b => .pure fun hp => ?_
      exact ((hp.1.1.1.2.append hp.1.1.2).append hp.1.2).append hp.2

def KnownParameter (r : ParamDecl × Parameter) : Prop :=
  AllKnown (r.1.spec.sites ++ suffixSites r.1.array) ∧ r.2.ty.isSome = true ∧ r.1.binding = none

theorem tells_parameter {d : ParamDecl} (h : d.binding = none) :
    Tells Binding.Known p (parameter d) KnownParameter := by
  unfold parameter
  refine (tells_typeSpec _).bind fun spec => (tells_arraySuffix _).bind fun r => ?_
  refine (tells_requireSized _ _ fun hp => isSome_apply hp.1.2.1 hp.2.2).bind fun ty => ?_
  refine .pure fun hp => ?_
  obtain ⟨⟨⟨-, hspec⟩, hr⟩, hty⟩ := hp
  exact ⟨hspec.2.append hr.1, hty, h⟩

theorem KnownParameter.sites {r : ParamDecl × Parameter} (h : KnownParameter r) :
    AllKnown r.1.sites := by
  refine h.1.append (.cons (fun v hv => ?_) allKnown_nil)
  rw [h.2.2] at hv
  cases hv

theorem tells_parameterVariable {r : ParamDecl × Parameter} (h : p → KnownParameter r) :
    Tells Binding.Known p (parameterVariable r) fun d => AllKnown d.sites := by
  unfold parameterVariable
  split
  · exact .pure fun hp => (h hp).sites
  · refine (tells_define (b := .variable _) (fun hp => (h hp).2.1) _).bind fun _ => .pure fun hp => ?_
    refine (h hp.1).1.append (.cons (fun v hv => ?_) allKnown_nil)
    obtain rfl := Option.some.inj hv
    exact (h hp.1).2.1

theorem binding_of_bare {d : ParamDecl} (h : Part.All Part.Bare d.parts) :
    d.binding = none := by
  cases hd : d.binding with
  | none => rfl
  | some v => exact (h (.binding v) (by simp [ParamDecl.parts, hd])).elim

theorem tells_function {f : FunctionDecl} (h : AllPlain f.sites)
    (hbare : Part.All Part.Bare f.parts) :
    Tells Binding.Known p (function f) fun r => AllKnown r.sites := by
  have hparams : ∀ d ∈ f.params, d.binding = none := fun d hd =>
    binding_of_bare (Part.all_flatMap.mp
      (Part.all_append.mp (Part.all_append.mp hbare).1).2 d hd)
  unfold function
  refine (tells_typeSpec _).bind fun spec => ?_
  refine (Tells.mapM fun d hd => tells_parameter (hparams d hd)).bind fun params => ?_
  refine (tells_addOverload (fun hp => Function.known_singleton hp.1.2.1)
    fun hp f g hf hadd => Function.Known.addOverload hp.1.2.1 hf hadd).bind fun _ => ?_
  split
  · rename_i hbody
    refine .pure fun hp => ?_
    obtain ⟨⟨⟨-, hspec⟩, hparams⟩, -⟩ := hp
    refine (hspec.2.append (allKnown_flatMap fun d hd => ?_)).append (by simp [hbody, AllKnown])
    obtain ⟨r, hr, rfl⟩ := List.mem_map.mp hd
    exact (hparams r hr).sites
  · rename_i body hbody
    have hplain : AllPlain (Stmt.allSites body.stmts) := fun s hs =>
      h s (List.mem_append_right _ (by simpa [hbody] using hs))
    refine tells_nested ?_
    refine (Tells.mapM fun r hr => tells_parameterVariable fun hp => hp.1.2 r hr).bind fun ds => ?_
    refine (tells_statements_of hplain fun s _ hs p => tells_stmt hs).bind fun ss => .pure fun hp => ?_
    obtain ⟨⟨⟨⟨⟨-, hspec⟩, -⟩, -⟩, hds⟩, hss⟩ := hp
    refine (hspec.2.append (allKnown_flatMap hds)).append ?_
    exact hss.append allKnown_nil

theorem tells_topLevel {d : TopLevel} (h : AllPlain d.sites) (hbare : Part.All Part.Bare d.parts) :
    Tells Binding.Known p (topLevel d) fun r => AllKnown r.sites := by
  cases d with
  | declaration d => exact (tells_declaration h).bind fun d => .pure fun hp => hp.2
  | function f => exact (tells_function h hbare).bind fun f => .pure fun hp => hp.2

theorem known_start : start.scopes.All Binding.Known :=
  all_start (fun _ _ => Function.known_singleton rfl)
    (fun _ _ _ _ => Function.Known.addOverload rfl)
    (by simp [Prelude.dataVariables, Prelude.builtin, Prelude.limit, Binding.Known]) trivial

end Bind

/-- Where the binder finds no problem, all that the tree names and declares is known. -/
theorem bind_known {unit : TranslationUnit} (h : Site.AllPlain (TranslationUnit.sites unit))
    (hbare : Part.All Part.Bare (TranslationUnit.parts unit)) (hclean : (bind unit).problems = []) :
    Site.AllKnown (TranslationUnit.sites (bind unit).unit) := by
  have hplain : ∀ d ∈ unit, Site.AllPlain d.sites := fun d hd s hs =>
    h s (List.mem_flatMap.mpr ⟨d, hd, hs⟩)
  have hunit : Bind.Tells Binding.Known True (unit.mapM Bind.topLevel) fun ds =>
      ∀ d ∈ ds, Site.AllKnown d.sites :=
    .mapM fun d hd => Bind.tells_topLevel (hplain d hd) (Part.all_flatMap.mp hbare d hd)
  have hnil := List.reverse_eq_nil_iff.mp hclean
  exact Site.allKnown_flatMap ((hunit Bind.start).2 trivial Bind.known_start hnil).2

end Shader
