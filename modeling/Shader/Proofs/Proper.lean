import Shader.Proofs.Bracket
import Shader.Proofs.Check.Rule

/-! Proper types, which are well formed at all depths. Where the brackets that nobody looks at are
absent, everything that is declared has a proper type. -/

namespace Shader

namespace Ty

/-- Well formed at all depths. -/
inductive Proper : Ty → Prop where
  | basic (b : BasicTy) : Proper (.basic b)
  | array {e : Ty} {n : Nat} (he : e.Proper) (hsingle : e.isArray = false)
    (hvoid : e.isVoid = false) (hn : 1 ≤ n) : Proper (.array e (some n))
  | struct (id : Nat) (tag : Option String) {fields : List (String × Ty)}
    (h : ∀ f ∈ fields, f.2.Proper) : Proper (.struct id tag fields)

variable {t : Ty}

theorem Proper.isWellFormed (h : t.Proper) : t.isWellFormed = true := by
  cases h with
  | basic b => rfl
  | array he hsingle hvoid hn => simp [Ty.isWellFormed, hsingle, hvoid, hn]
  | struct id tag h => rfl

theorem Proper.le_arraySize? {n : Nat} (h : t.Proper) (hn : t.arraySize? = some n) : 1 ≤ n := by
  cases h with
  | basic b => cases hn
  | array he hsingle hvoid hsize => exact Option.some.inj hn ▸ hsize
  | struct id tag h => cases hn

/-- A type that brackets can be put on. -/
structure Element (t : Ty) : Prop where
  proper : t.Proper
  single : t.isArray = false
  nonvoid : t.isVoid = false

/-- The type of a variable, a parameter or a member. -/
structure Declared (t : Ty) : Prop where
  proper : t.Proper
  nonvoid : t.isVoid = false

theorem Element.declared (h : t.Element) : t.Declared :=
  ⟨h.proper, h.nonvoid⟩

theorem Element.array (h : t.Element) {n : Nat} (hn : 1 ≤ n) : (Ty.array t (some n)).Declared :=
  ⟨.array h.proper h.single h.nonvoid hn, rfl⟩

theorem Declared.isDeclarable (h : t.Declared) : t.isDeclarable = true := by
  simp [Ty.isDeclarable, h.proper.isWellFormed, h.nonvoid]

theorem base_of_single (h : t.isArray = false) : t.base = t := by
  cases t with
  | array e n => cases h
  | basic b => rfl
  | struct id tag fields => rfl

end Ty

def Function.Proper (f : Function) : Prop :=
  ∀ o ∈ f.overloads, ∃ t, o.result = some t ∧ t.Proper

def Binding.Proper : Binding → Prop
  | .variable v => ∃ t, v.ty = some t ∧ t.Declared
  | .function f => f.Proper
  | .struct t => t.Proper ∧ t.isStruct = true

section Brackets

variable {s : Option (ArraySuffix Expr)} {t : Ty} {ty : Option Ty} {spec : TypeSpec}

theorem Binding.Proper.element (h : (Binding.struct t).Proper) : t.Element := by
  obtain ⟨hproper, hstruct⟩ := h
  cases t with
  | struct id tag fields => exact ⟨hproper, rfl, rfl⟩
  | basic b => cases hstruct
  | array e n => cases hstruct

theorem TypeSpec.HasBase.proper (h : spec.HasBase Binding.Proper t) :
    t.Proper ∧ t.isArray = false := by
  cases spec with
  | basic b note =>
    obtain rfl := h
    exact ⟨.basic b, rfl⟩
  | named x note | struct tag members span note =>
    have helement := Binding.Proper.element h
    exact ⟨helement.proper, helement.single⟩

theorem TypeSpec.HasBase.nonvoid (h : spec.HasBase Binding.Proper t) (hvoid : spec.isVoid = false) :
    t.isVoid = false := by
  cases spec with
  | basic b note =>
    obtain rfl := h
    cases b with
    | void => cases hvoid
    | scalar | vector | matrix | sampler => rfl
  | named x note | struct tag members span note => exact (Binding.Proper.element h).nonvoid

theorem Bracketed.declared (h : Bracketed t s ty) (ht : t.Element) (hsized : Sized ty) :
    ∃ u, ty = some u ∧ u.Declared := by
  cases h with
  | bare => exact ⟨t, rfl, ht.declared⟩
  | «open» span => exact (hsized t rfl).elim
  | sized e span hn => exact ⟨_, rfl, ht.array hn⟩

theorem Bracketed.any_base_isVoid (h : Bracketed t s ty) (ht : t.isArray = false) :
    (ty.any fun u => u.base.isVoid) = t.isVoid := by
  cases h with
  | bare => simp [Ty.base_of_single ht]
  | «open» span | sized e span hn => simp [Ty.base, Ty.base_of_single ht]

theorem Bracketed.eq_of_none (h : Bracketed t none ty) : ty = some t := by
  cases h
  rfl

/-- One of two pairs of brackets is absent, so there is one step from the base to the type. -/
theorem TypeSpec.Resolved.exists_bracketed {B : Binding → Prop} (h : spec.Resolved B)
    (hvalid : suffixExtent s ≠ .invalid) (hone : (spec.note.array.isSome && s.isSome) = false) :
    ∃ t s', spec.HasBase B t ∧ Bracketed t spec.note.array spec.ty ∧
      Bracketed t s' ((suffixExtent s).apply spec.ty) := by
  obtain ⟨t, ht, hspec⟩ := h.bracketed
  cases s with
  | none => exact ⟨t, _, ht, hspec, hspec⟩
  | some suffix =>
    have hbare : spec.note.array = none := by simpa using hone
    have hty := (hbare ▸ hspec).eq_of_none
    refine ⟨t, some suffix, ht, hspec, ?_⟩
    rw [hty]
    exact bracketed_apply hvalid t

end Brackets

section Constructors

variable {name : CalleeName} {suffix : Option (ArraySuffix Expr)} {args : List Expr} {t : Ty}

theorem CalleeName.HasBase.element (h : name.HasBase Binding.Proper t)
    (hvoid : name.isVoid = false) : t.Element := by
  cases name with
  | basic b =>
    obtain rfl := h
    cases b with
    | void => cases hvoid
    | scalar | vector | matrix | sampler => exact ⟨.basic _, rfl, rfl⟩
  | named x => exact Binding.Proper.element h

theorem Calls.proper_of_none {target : Target} (h : Calls Binding.Proper args name none target)
    (ht : target = .constructor t) : t.Proper := by
  cases h with
  | function x hf => cases ht
  | struct x hstruct => exact Target.constructor.inj ht ▸ hstruct.1
  | array x hstruct hs =>
    rename_i u
    have hu := Binding.Proper.element hstruct
    cases u with
    | array e n => cases hu.single
    | basic b => cases hstruct.2
    | struct id tag fields => exact Target.constructor.inj ht ▸ hu.proper
  | basic b hs => exact Target.constructor.inj ht ▸ .basic b

theorem Calls.proper (h : Calls Binding.Proper args name suffix (.constructor t))
    (hguard : (suffix.any fun a => name.isVoid || a.size.isNone && args.isEmpty) = false)
    (hcount : ∀ u n, t = .array u (some n) → args.length = n) : t.Proper := by
  cases suffix with
  | none => exact h.proper_of_none rfl
  | some suffix =>
    obtain ⟨hvoid, hsize⟩ := Bool.or_eq_false_iff.mp hguard
    obtain ⟨u, n, hbase, htarget, -, hn⟩ := h.exists_size
    obtain rfl := Target.constructor.inj htarget
    exact ((hbase.element hvoid).array (hn hsize (hcount u n rfl))).proper

theorem Expr.Counted.length_eq {callee : Callee} {n : Note}
    (h : (Expr.call callee suffix args (.constructor t) n).Counted) :
    ∀ u k, t = .array u (some k) → args.length = k := by
  rintro u k rfl
  exact h

theorem Expr.Resolved.le_initializerSize? {e : Expr} {n : Nat} (h : e.Resolved Binding.Proper)
    (hguard : e.unguarded = false) (hcount : e.Counted)
    (hn : Bind.initializerSize? e = some n) : 1 ≤ n := by
  unfold Bind.initializerSize? at hn
  split at hn
  · exact (Calls.proper h hguard hcount.length_eq).le_arraySize? hn
  · obtain ⟨v, hv, t, ht, hdeclared⟩ := h
    obtain rfl := Option.some.inj hv
    rw [ht] at hn
    exact hdeclared.proper.le_arraySize? hn
  · cases hn

end Constructors

section Places

variable {m : Member TypeSpec} {e : Entry}

theorem Member.Resolved.declared (h : m.Resolved Binding.Proper) (hvoid : m.Accepted)
    (hguard : m.unguarded = false) :
    ∀ x ∈ m.names, ∃ t, x.ty m.spec.ty = some t ∧ t.Declared := by
  intro x hx
  obtain ⟨hvalid, hsized⟩ := h.names x hx
  have hguard : (m.spec.isVoidArray || m.spec.note.array.isSome && x.array.isSome) = false := by
    simpa using List.any_eq_false.mp hguard x hx
  obtain ⟨harray, hone⟩ := Bool.or_eq_false_iff.mp hguard
  obtain ⟨t, s, ht, hspec, hname⟩ := h.spec.exists_bracketed hvalid hone
  have hnonvoid : t.isVoid = false := by
    cases hspecVoid : m.spec.isVoid with
    | false => exact ht.nonvoid hspecVoid
    | true =>
      have hbare : m.spec.note.array = none := by
        simpa [TypeSpec.isVoidArray, hspecVoid] using harray
      have hty := (hbare ▸ hspec).eq_of_none
      simpa [Member.Accepted, hty] using hvoid
  exact hname.declared ⟨ht.proper.1, ht.proper.2, hnonvoid⟩ hsized

theorem memberFields_declared {ms : List (Member TypeSpec)}
    (h : ∀ m ∈ ms, m.Resolved Binding.Proper) (hvoid : ∀ m ∈ ms, m.Accepted)
    (hguard : ms.any Member.unguarded = false) : ∀ f ∈ memberFields ms, f.ty.Declared := by
  intro f hf
  obtain ⟨m, hm, hf⟩ := List.mem_flatMap.mp hf
  obtain ⟨x, hx, hf⟩ := List.mem_filterMap.mp hf
  have hguard : m.unguarded = false := by simpa using List.any_eq_false.mp hguard m hm
  obtain ⟨t, ht, hdeclared⟩ := (h m hm).declared (hvoid m hm) hguard x hx
  obtain ⟨u, hu, rfl⟩ := Option.map_eq_some_iff.mp hf
  obtain rfl := Option.some.inj (ht.symm.trans hu)
  exact hdeclared

/-- What is declared here is not void, all brackets here are looked at, and arguments are counted. -/
structure Entry.Guarded (e : Entry) : Prop where
  accepted : e.Accepted
  guarded : e.unguarded = false
  parts : Part.All (Part.Holds fun d => d.unguarded = false ∧ d.Counted) e.parts

theorem Declarator.HasTy.declared {q : Qualifiers} {spec : TypeSpec} {d : Declarator} {v : Variable}
    (hg : (Entry.variable q spec d).Guarded) (hspec : spec.Resolved Binding.Proper)
    (hinit : ∀ e, d.init = some e → Part.All (Part.Resolved Binding.Proper) e.parts)
    (hv : d.binding = some v) (hty : d.HasTy spec.ty v.ty) : ∃ t, v.ty = some t ∧ t.Declared := by
  have hone : (spec.note.array.isSome && d.array.isSome) = false := by
    cases hs : spec.note.array.isSome with
    | false => rfl
    | true =>
      obtain ⟨t, -, hbracketed⟩ := hspec.bracketed
      simp [hty.single (hbracketed.any_isArray hs)]
  obtain ⟨t, s, ht, -, hname⟩ := hspec.exists_bracketed hty.valid hone
  have haccepted : (v.ty.any fun t => t.base.isVoid) = false := by
    simpa [Entry.Accepted, hv] using hg.accepted
  by_cases hsized : Sized ((suffixExtent d.array).apply spec.ty)
  · rw [hty.sized hsized] at haccepted ⊢
    rw [hname.any_base_isVoid ht.proper.2] at haccepted
    exact hname.declared ⟨ht.proper.1, ht.proper.2, haccepted⟩ hsized
  · obtain ⟨element, hopen⟩ := Classical.not_forall_not.mp hsized
    obtain ⟨n, hn, hvty⟩ := hty.unsized element hopen
    rw [hopen] at hname
    cases hname with
    | bare => cases ht.proper.2
    | «open» span =>
      rw [hvty] at haccepted ⊢
      have hvoid : t.isVoid = false := by
        simpa [Ty.base, Ty.base_of_single ht.proper.2] using haccepted
      obtain ⟨e, he, hn⟩ := Option.bind_eq_some_iff.mp hn
      have hparts : Part.All (Part.Holds fun d => d.unguarded = false ∧ d.Counted) e.parts := by
        simpa [Entry.parts, he] using hg.parts
      obtain ⟨hguard, hcount⟩ := Part.all_holds.mp hparts e e.self_mem_nodes
      have hpos := Expr.Resolved.le_initializerSize?
        (Part.all_holds.mp (hinit e he) e e.self_mem_nodes) hguard hcount hn
      exact ⟨_, rfl, Ty.Element.array ⟨ht.proper.1, ht.proper.2, hvoid⟩ hpos⟩

theorem InterfaceBlock.instance_declared {b : InterfaceBlock}
    (h : (Entry.block b).Resolved Binding.Proper) {d : Declarator} (hd : b.instance? = some d) :
    ∃ v t, d.binding = some v ∧ v.ty = some t ∧ t.Declared := by
  obtain ⟨hvalid, v, t, hv, ht, hty, hsized⟩ := h.2 d hd
  rw [hty] at hsized
  obtain ⟨u, hu, hdeclared⟩ := (bracketed_apply hvalid t).declared ht.element hsized
  exact ⟨v, u, hv, hty.trans hu, hdeclared⟩

theorem ParamDecl.declared {p : ParamDecl} (h : (Entry.parameter p).Resolved Binding.Proper)
    (hg : (Entry.parameter p).Guarded) : ∃ t, p.ty = some t ∧ t.Declared := by
  obtain ⟨hspec, hvalid, hsized, -⟩ := h
  obtain ⟨t, s, ht, hbracketed, hname⟩ := hspec.exists_bracketed hvalid hg.guarded
  have hvoid : t.isVoid = false :=
    (hbracketed.any_base_isVoid ht.proper.2).symm.trans hg.accepted
  exact hname.declared ⟨ht.proper.1, ht.proper.2, hvoid⟩ hsized

theorem TypeSpec.Resolved.proper_result {spec : TypeSpec} (h : spec.Resolved Binding.Proper)
    (hg : (spec.isVoidArray || spec.note.array.any fun a => a.size.isNone) = false) :
    ∃ t, spec.ty = some t ∧ t.Proper := by
  obtain ⟨t, ht, hspec⟩ := h.bracketed
  obtain ⟨hvoid, hsize⟩ := Bool.or_eq_false_iff.mp hg
  generalize harray : spec.note.array = s at hspec
  generalize spec.ty = ty at hspec ⊢
  cases hspec with
  | bare => exact ⟨t, rfl, ht.proper.1⟩
  | «open» span => simp [harray] at hsize
  | sized e span hn =>
    have hnonvoid : spec.isVoid = false := by simpa [TypeSpec.isVoidArray, harray] using hvoid
    exact ⟨_, rfl, .array ht.proper.1 ht.proper.2 (ht.nonvoid hnonvoid) hn⟩

theorem Entry.Resolved.proper (h : e.Resolved Binding.Proper) (hg : e.Guarded) {b : Binding}
    (hb : e.Declares b) : b.Proper := by
  cases e with
  | members ms =>
    obtain ⟨id, tag, rfl⟩ := hb
    refine ⟨.struct id tag fun f hf => ?_, rfl⟩
    obtain ⟨x, hx, rfl⟩ := List.mem_map.mp hf
    exact (memberFields_declared h hg.accepted hg.guarded x hx).proper
  | «variable» q spec d =>
    obtain ⟨v, hv, rfl⟩ := hb
    obtain ⟨hspec, hinit, w, hw, -, hty⟩ := h
    obtain rfl := Option.some.inj (hv.symm.trans hw)
    exact hty.declared hg hspec hinit hv
  | block c =>
    rcases hb with ⟨d, v, hd, hv, rfl⟩ | ⟨f, hf, -, rfl⟩
    · obtain ⟨w, t, hw, ht, hdeclared⟩ := InterfaceBlock.instance_declared h hd
      obtain rfl := Option.some.inj (hv.symm.trans hw)
      exact ⟨t, ht, hdeclared⟩
    · exact ⟨f.ty, rfl, memberFields_declared h.1 hg.accepted hg.guarded f hf⟩
  | parameter p =>
    obtain ⟨v, hv, rfl⟩ := hb
    obtain ⟨t, ht, hdeclared⟩ := ParamDecl.declared h hg
    exact ⟨t, (h.2.2.2 v hv).trans ht, hdeclared⟩
  | function f => exact hb.elim

theorem isWellTyped_members {ms : List (Member TypeSpec)}
    (h : ∀ m ∈ ms, m.Resolved Binding.Proper) (hvoid : ∀ m ∈ ms, m.Accepted)
    (hguard : ms.any Member.unguarded = false) : ms.all Member.isWellTyped = true := by
  refine List.all_eq_true.mpr fun m hm => List.all_eq_true.mpr fun x hx => ?_
  have hguard : m.unguarded = false := by simpa using List.any_eq_false.mp hguard m hm
  obtain ⟨t, ht, hdeclared⟩ := (h m hm).declared (hvoid m hm) hguard x hx
  rw [ht]
  exact hdeclared.isDeclarable

theorem Entry.Resolved.isWellTyped (h : e.Resolved Binding.Proper) (hg : e.Guarded) :
    e.isWellTyped = true := by
  cases e with
  | members ms => exact isWellTyped_members h hg.accepted hg.guarded
  | «variable» q spec d =>
    obtain ⟨hspec, hinit, v, hv, -, hty⟩ := h
    obtain ⟨t, ht, hdeclared⟩ := hty.declared hg hspec hinit hv
    simp [Entry.isWellTyped, hv, ht, hdeclared.isDeclarable]
  | block b =>
    have hmembers := isWellTyped_members h.1 hg.accepted hg.guarded
    refine Bool.and_eq_true_iff.mpr ⟨hmembers, ?_⟩
    cases hd : b.instance? with
    | none => rfl
    | some d =>
      obtain ⟨v, t, hv, ht, hdeclared⟩ := InterfaceBlock.instance_declared h hd
      simp [hv, ht, hdeclared.isDeclarable]
  | parameter p =>
    obtain ⟨t, ht, hdeclared⟩ := ParamDecl.declared h hg
    have hbinding : (p.binding.all fun v => v.ty.any Ty.isDeclarable) = true := by
      cases hv : p.binding with
      | none => rfl
      | some v => simp [h.2.2.2 v hv, ht, hdeclared.isDeclarable]
    simp [Entry.isWellTyped, ht, hdeclared.isDeclarable, hbinding]
  | function f =>
    obtain ⟨t, ht, hproper⟩ := TypeSpec.Resolved.proper_result h hg.guarded
    simp [Entry.isWellTyped, ht, hproper.isWellFormed]

end Places

theorem Function.Proper.addOverload {f g : Function} {o : Overload}
    (ho : ∃ t, o.result = some t ∧ t.Proper) (hf : f.Proper) (h : f.addOverload o = .ok g) :
    g.Proper :=
  forall_result_addOverload (R := fun r => ∃ t, r = some t ∧ t.Proper) ho hf h

theorem Prelude.proper_depthRange : depthRange.Proper := by
  refine .struct _ _ ?_
  simp only [List.forall_mem_cons]
  exact ⟨.basic _, .basic _, .basic _, by simp⟩

theorem Prelude.proper_dataVariables : ∀ v ∈ dataVariables, (Binding.variable v).Proper := by
  have hbasic : ∀ b, (Ty.basic b).isVoid = false → (Ty.basic b).Declared :=
    fun b hvoid => ⟨.basic b, hvoid⟩
  have hint : Ty.int.Declared := hbasic _ rfl
  have hbool : Ty.bool.Declared := hbasic _ rfl
  have hfloat : Ty.float.Declared := hbasic _ rfl
  have hfloat2 : float2.Declared := hbasic _ rfl
  have hfloat4 : float4.Declared := hbasic _ rfl
  have hrange : depthRange.Declared := ⟨proper_depthRange, rfl⟩
  simp [dataVariables, Binding.Proper, builtin, limit, *]

theorem Bind.proper_start : start.scopes.All Binding.Proper :=
  all_start (fun _ _ => List.forall_mem_singleton.mpr ⟨_, rfl, .basic _⟩)
    (fun _ _ _ _ => Function.Proper.addOverload ⟨_, rfl, .basic _⟩) Prelude.proper_dataVariables
    ⟨Prelude.proper_depthRange, rfl⟩

/-- Where all brackets are looked at, everything that is visible has a proper type. -/
theorem bind_proper {unit : TranslationUnit} (hplain : Site.AllPlain (TranslationUnit.sites unit))
    (hbare : Part.All Part.Bare (TranslationUnit.parts unit)) (hclean : (bind unit).problems = [])
    (hg : ∀ e ∈ TranslationUnit.entries (bind unit).unit, e.Guarded) :
    Resolution Binding.Proper (TranslationUnit.parts (bind unit).unit)
      (TranslationUnit.entries (bind unit).unit) := by
  refine bind_resolved hplain hbare hclean hg Bind.proper_start
    (fun e b hg h hb => h.proper hg hb) (fun r hr hsigned => ?_) fun r f g hr hsigned => ?_
  · exact List.forall_mem_singleton.mpr (hsigned.result.proper_result hr.guarded)
  · exact Function.Proper.addOverload (hsigned.result.proper_result hr.guarded)

end Shader
