import Mathlib.Logic.Relation
import Shader.Proofs.Bind.Actions
import Shader.Proofs.Bind.Signature

/-! Sets of overloads over time. At every point of a unit the overloads of a function are told apart
by their parameter types, and one that was declared is found from then on. -/

namespace Shader

/-- No two overloads of the function accept the same arguments. -/
def Function.Unambiguous (f : Function) : Prop :=
  f.overloads.Pairwise fun o p =>
    ∀ types : List Ty, ¬(o.accepts (types.map some) = true ∧ p.accepts (types.map some) = true)

def Binding.Unambiguous : Binding → Prop
  | .function f => f.Unambiguous
  | _ => True

/-- The function has an overload of just these parameter types, and calls find it. -/
def Function.Finds (f : Function) (types : List (Option Ty)) : Prop :=
  ∃ o, f.overload? types = some o ∧ o.paramTypes = types

namespace Function

variable {f g : Function} {o p : Overload} {name : String} {builtin : Bool}

theorem unambiguous_iff :
    f.Unambiguous ↔ (f.overloads.map Overload.params).Pairwise fun ps qs =>
      ∀ types : List Ty, ¬(ps.map Parameter.ty = types.map some ∧
        qs.map Parameter.ty = types.map some) := by
  rw [List.pairwise_map]
  simp only [Unambiguous, Overload.accepts_map_some_iff]
  rfl

theorem unambiguous_singleton : (Function.mk name builtin [o]).Unambiguous :=
  List.pairwise_singleton _ _

theorem Unambiguous.addOverload (hf : f.Unambiguous) (h : f.addOverload o = .ok g) :
    g.Unambiguous := by
  obtain ⟨-, -, ⟨hnone, hoverloads⟩ | ⟨-, hparams⟩⟩ := addOverload_eq_ok h
  · rw [Unambiguous, hoverloads, List.pairwise_append]
    refine ⟨hf, List.pairwise_singleton _ _, fun p hp q hq types haccepts => ?_⟩
    obtain rfl := List.mem_singleton.mp hq
    obtain ⟨hold, hnew⟩ := haccepts
    rw [Overload.accepts_map_some_iff.mp hnew] at hnone
    exact List.find?_eq_none.mp hnone p hp hold
  · rw [unambiguous_iff, hparams]
    exact unambiguous_iff.mp hf

theorem finds_iff (ho : ∀ t ∈ o.paramTypes, t.isSome = true) :
    f.Finds o.paramTypes ↔ o.paramTypes ∈ f.overloads.map Overload.paramTypes := by
  constructor
  · rintro ⟨p, hp, htypes⟩
    exact List.mem_map.mpr ⟨p, (overload?_eq_some hp).1, htypes⟩
  · intro hmem
    obtain ⟨p, hp, htypes⟩ := List.mem_map.mp hmem
    have haccepts : p.accepts o.paramTypes = true := (accepts_iff ho).mpr htypes
    cases hfind : f.overload? o.paramTypes with
    | none => exact (List.find?_eq_none.mp hfind p hp haccepts).elim
    | some q => exact ⟨q, hfind, (accepts_iff ho).mp (overload?_eq_some hfind).2⟩

theorem Finds.addOverload (ho : ∀ t ∈ o.paramTypes, t.isSome = true) (hf : f.Finds o.paramTypes)
    (h : f.addOverload p = .ok g) : g.Finds o.paramTypes := by
  have hmem := (finds_iff ho).mp hf
  refine (finds_iff ho).mpr ?_
  obtain ⟨-, -, ⟨-, hoverloads⟩ | ⟨-, hparams⟩⟩ := addOverload_eq_ok h
  · rw [hoverloads, List.map_append]
    exact List.mem_append_left _ hmem
  · have htypes := congrArg (List.map (List.map Parameter.ty)) hparams
    rw [List.map_map, List.map_map] at htypes
    exact htypes.symm ▸ hmem

theorem finds_addOverload (ho : ∀ t ∈ o.paramTypes, t.isSome = true)
    (h : f.addOverload o = .ok g) : g.Finds o.paramTypes :=
  (finds_iff ho).mpr (paramTypes_addOverload ho h).2

/-- A declaration is refused only where its parameter types are there already. -/
theorem finds_of_addOverload_error {d : BindProblem} (ho : ∀ t ∈ o.paramTypes, t.isSome = true)
    (h : f.addOverload o = .error d) : f.Finds o.paramTypes := by
  cases hfind : f.overload? o.paramTypes with
  | none =>
    rw [Function.addOverload, hfind] at h
    cases h
  | some q => exact ⟨q, hfind, (accepts_iff ho).mp (overload?_eq_some hfind).2⟩

end Function

/-- The name stands for a function of the scope that has an overload of these parameter types. -/
def Scope.Finds (s : Scope) (name : String) (types : List (Option Ty)) : Prop :=
  ∃ f, s.lookup? name = some (.function f) ∧ f.Finds types

namespace Scope

variable {s s' : Scope} {name x : String} {builtin : Bool} {o p : Overload}

theorem addOverload_eq_ok (h : s.addOverload name builtin o = .ok s') :
    (∀ x, x ≠ name → s'.lookup? x = s.lookup? x) ∧ ∃ g, s'.lookup? name = some (.function g) ∧
      (s.lookup? name = none ∧ g = ⟨name, builtin, [o]⟩ ∨
        ∃ f, s.lookup? name = some (.function f) ∧ f.addOverload o = .ok g) := by
  unfold Scope.addOverload at h
  split at h
  · rename_i hnone
    obtain rfl := Except.ok.inj h
    refine ⟨fun x hx => ?_, _, ?_, .inl ⟨hnone, rfl⟩⟩
    · rw [lookup?_insert, if_neg hx]
    · rw [lookup?_insert, if_pos rfl]
  · rename_i f hf
    cases hadd : f.addOverload o with
    | error d =>
      rw [hadd] at h
      cases h
    | ok g =>
      rw [hadd] at h
      obtain rfl := Except.ok.inj h
      refine ⟨fun x hx => ?_, g, ?_, .inr ⟨f, hf, hadd⟩⟩
      · rw [lookup?_replace, if_neg hx]
      · rw [lookup?_replace, if_pos rfl, hf, Option.map_some]
  · cases h

theorem finds_addOverload (ho : ∀ t ∈ o.paramTypes, t.isSome = true)
    (h : s.addOverload name builtin o = .ok s') : s'.Finds name o.paramTypes := by
  obtain ⟨-, g, hg, ⟨-, rfl⟩ | ⟨f, -, hadd⟩⟩ := addOverload_eq_ok h
  · exact ⟨_, hg, (Function.finds_iff ho).mpr (by simp)⟩
  · exact ⟨g, hg, Function.finds_addOverload ho hadd⟩

theorem Finds.addOverload (ho : ∀ t ∈ o.paramTypes, t.isSome = true)
    (hs : s.Finds x o.paramTypes) (h : s.addOverload name builtin p = .ok s') :
    s'.Finds x o.paramTypes := by
  obtain ⟨f, hf, hfinds⟩ := hs
  obtain ⟨helse, g, hg, hcase⟩ := addOverload_eq_ok h
  by_cases hx : x = name
  · subst hx
    rcases hcase with ⟨hnone, -⟩ | ⟨f', hf', hadd⟩
    · rw [hnone] at hf
      cases hf
    · rw [hf] at hf'
      obtain rfl := Binding.function.inj (Option.some.inj hf')
      exact ⟨g, hg, hfinds.addOverload ho hadd⟩
  · exact ⟨f, (helse x hx).trans hf, hfinds⟩

theorem Finds.insert {types : List (Option Ty)} {b : Binding} (hs : s.Finds x types)
    (hname : s.lookup? name = none) : (s.insert name b).Finds x types := by
  obtain ⟨f, hf, hfinds⟩ := hs
  refine ⟨f, ?_, hfinds⟩
  rw [lookup?_insert, if_neg, hf]
  rintro rfl
  rw [hname] at hf
  cases hf

end Scope

namespace ScopeStack

variable {s t : ScopeStack} {name x : String} {o p : Overload} {types : List (Option Ty)}

theorem finds_global_of_inner {inner : Scope} (hs : s.global.Finds x types)
    (h : s.inner.Finds x types → inner.Finds x types) :
    ScopeStack.global { s with inner } |>.Finds x types := by
  cases houter : s.outer with
  | nil =>
    simp only [global, houter, List.getLast?_nil, Option.getD_none] at hs ⊢
    exact h hs
  | cons scope rest =>
    simpa only [global, houter, List.getLast?_cons, Option.getD_some] using hs

end ScopeStack

namespace Bind

/-- The binder does one thing to its state. -/
inductive Step (s : BindState) : BindState → Prop where
  | report (d : Diagnostic) : Step s { s with problems := d :: s.problems }
  | number : Step s { s with nextStruct := s.nextStruct + 1 }
  | push : Step s { s with scopes := s.scopes.push }
  | pop : Step s { s with scopes := s.scopes.pop }
  | define {name : String} {b : Binding} {scopes : ScopeStack} :
      (∀ f, b ≠ .function f) → s.scopes.define name b = .ok scopes → Step s { s with scopes }
  | addOverload {name : String} {o : Overload} {scopes : ScopeStack} :
      s.scopes.addOverload name o = .ok scopes → Step s { s with scopes }

/-- The second state is the first one or comes after it. -/
abbrev Later :=
  Relation.ReflTransGen Step

variable {s t : BindState} {name : String} {o : Overload}

theorem Program.later {α : Type} {x : Bind α} (h : Program x) (s : BindState) :
    Later s (x.run s).2 := by
  induction h generalizing s with
  | pure a | lookup name | kind => exact .refl
  | report problem span => exact .single (.report _)
  | freshStruct => exact .single .number
  | bind _ _ ihx ihf => exact (ihx s).trans (ihf _ _)
  | @define name b span hb =>
    cases h : s.scopes.define name b with
    | error d =>
      rw [run_define_error h]
      exact .single (.report _)
    | ok scopes =>
      rw [run_define h]
      exact .single (.define hb h)
  | addOverload name o =>
    cases h : s.scopes.addOverload name o with
    | error d =>
      rw [run_addOverload_error h]
      exact .single (.report _)
    | ok scopes =>
      rw [run_addOverload h]
      exact .single (.addOverload h)
  | nested _ ih =>
    exact ((Relation.ReflTransGen.single .push).trans (ih _)).trans (.single .pop)

theorem Step.unambiguous (h : Step s t) (hs : s.scopes.All Binding.Unambiguous) :
    t.scopes.All Binding.Unambiguous := by
  cases h with
  | report d => exact hs
  | number => exact hs
  | push => exact hs.push
  | pop => exact hs.pop
  | @define name b scopes hb hdefine =>
    refine hs.define ?_ hdefine
    cases b with
    | «variable» v => trivial
    | struct ty => trivial
    | function f => exact (hb f rfl).elim
  | addOverload hadd =>
    exact hs.addOverload Function.unambiguous_singleton (fun _ _ hf => hf.addOverload) hadd

theorem Later.unambiguous (h : Later s t) (hs : s.scopes.All Binding.Unambiguous) :
    t.scopes.All Binding.Unambiguous := by
  induction h with
  | refl => exact hs
  | tail _ hstep ih => exact hstep.unambiguous ih

theorem Step.finds (ho : ∀ ty ∈ o.paramTypes, ty.isSome = true) (h : Step s t)
    (hs : s.scopes.global.Finds name o.paramTypes) : t.scopes.global.Finds name o.paramTypes := by
  cases h with
  | report d => exact hs
  | number => exact hs
  | push =>
    rw [ScopeStack.global_push]
    exact hs
  | pop =>
    rw [ScopeStack.global_pop]
    exact hs
  | define _ hdefine =>
    obtain ⟨hnone, rfl⟩ := ScopeStack.define_eq_ok hdefine
    exact ScopeStack.finds_global_of_inner hs fun hinner => hinner.insert hnone
  | addOverload hadd =>
    obtain ⟨inner, hinner, rfl⟩ := ScopeStack.addOverload_eq_ok hadd
    exact ScopeStack.finds_global_of_inner hs fun h => h.addOverload ho hinner

theorem Later.finds (ho : ∀ ty ∈ o.paramTypes, ty.isSome = true) (h : Later s t)
    (hs : s.scopes.global.Finds name o.paramTypes) : t.scopes.global.Finds name o.paramTypes := by
  induction h with
  | refl => exact hs
  | tail _ hstep ih => exact hstep.finds ho ih

theorem finds_of_declared (ho : ∀ ty ∈ o.paramTypes, ty.isSome = true)
    (hs : s.scopes.outer = []) (h : ((addOverload name o).run s).2.problems = s.problems) :
    ((addOverload name o).run s).2.scopes.global.Finds name o.paramTypes := by
  cases hadd : s.scopes.addOverload name o with
  | error d =>
    rw [run_addOverload_error hadd] at h
    exact (List.cons_ne_self _ _ h).elim
  | ok scopes =>
    obtain ⟨inner, hinner, rfl⟩ := ScopeStack.addOverload_eq_ok hadd
    rw [run_addOverload hadd]
    simp only [ScopeStack.global, hs, List.getLast?_nil, Option.getD_none]
    exact Scope.finds_addOverload ho hinner

theorem problems_addOverload_of_new (hbuiltin : s.scopes.lookupBuiltin? name = none)
    (hinner : s.scopes.inner.lookup? name = none) :
    ((addOverload name o).run s).2.problems = s.problems := by
  have hadd : s.scopes.addOverload name o = .ok { s.scopes with
      inner := s.scopes.inner.insert name (.function ⟨name, false, [o]⟩) } := by
    rw [ScopeStack.addOverload, hbuiltin, Scope.addOverload, hinner]
    rfl
  rw [run_addOverload hadd]

theorem scopes_of_reported (h : ((addOverload name o).run s).2.problems ≠ s.problems) :
    ((addOverload name o).run s).2.scopes = s.scopes := by
  cases hadd : s.scopes.addOverload name o with
  | error d => rw [run_addOverload_error hadd]
  | ok scopes =>
    rw [run_addOverload hadd] at h
    exact (h rfl).elim

def after (unit : TranslationUnit) : BindState :=
  ((unit.mapM topLevel).run start).2

def signature (f : FunctionDecl) : Bind Overload := do
  let spec ← typeSpec f.spec
  let params ← f.params.mapM parameter
  return ⟨params.map Prod.snd, spec.ty, f.span, f.body.isSome⟩

def declared (before : TranslationUnit) (f : FunctionDecl) : Overload :=
  ((signature f).run (after before)).1

def declaring (before : TranslationUnit) (f : FunctionDecl) : BindState :=
  ((signature f).run (after before)).2

/-- The state once the overload is declared, in front of the body of the function. -/
def declaredState (before : TranslationUnit) (f : FunctionDecl) : BindState :=
  ((addOverload f.name (declared before f)).run (declaring before f)).2

theorem program_signature (f : FunctionDecl) : Program (signature f) := by
  refine (program_typeSpec f.spec).bind fun spec => ?_
  exact (Program.mapM fun p _ => program_parameter p).bind fun _ => .pure _

theorem later_after (unit : TranslationUnit) : Later start (after unit) :=
  (program_unit unit).later start

theorem later_declaring (before : TranslationUnit) (f : FunctionDecl) :
    Later start (declaring before f) :=
  (later_after before).trans ((program_signature f).later (after before))

theorem outer_declaring (before : TranslationUnit) (f : FunctionDecl) :
    (declaring before f).scopes.outer = [] :=
  ((program_signature f).sameAround (after before)).outer.trans
    ((program_unit before).sameAround start).outer

/-- The rest of the unit comes after the declaration, and so does the body of the function. -/
theorem later_declaredState (before rest : TranslationUnit) (f : FunctionDecl) :
    Later (declaredState before f) (after (before ++ .function f :: rest)) := by
  have hbody : Later (declaredState before f) ((topLevel (.function f)).run (after before)).2 :=
    (program_functionBody f _ _).later (declaredState before f)
  have hrest := (program_unit rest).later ((topLevel (.function f)).run (after before)).2
  rw [after, List.mapM_append, List.mapM_cons]
  exact hbody.trans hrest

end Bind

namespace Prelude

def declarations : List (String × Overload) :=
  prototypes.flatMap fun p => p.overloads.map fun o => (p.name, o)

/-- The builtin scope after some declarations; one that does not fit is left out. -/
def scopeAfter (ds : List (String × Overload)) : Scope :=
  ds.foldl (fun s d => (s.addOverload d.1 true d.2).toOption.getD s) dataScope

theorem scope_eq_scopeAfter : scope = scopeAfter declarations := by
  rw [scope, scopeAfter, declarations, List.foldl_flatMap]
  simp only [List.foldl_map]
  rfl

theorem scopeAfter_append (ds es : List (String × Overload)) : scopeAfter (ds ++ es) =
    es.foldl (fun s d => (s.addOverload d.1 true d.2).toOption.getD s) (scopeAfter ds) :=
  List.foldl_append

theorem foldl_induction {P : Scope → Prop} {s : Scope} {ds : List (String × Overload)} (hs : P s)
    (hadd : ∀ d ∈ ds, ∀ s s', P s → Scope.addOverload s d.1 true d.2 = .ok s' → P s') :
    P (ds.foldl (fun s d => (s.addOverload d.1 true d.2).toOption.getD s) s) := by
  refine List.foldlRecOn _ _ hs fun s hs d hd => ?_
  cases h : s.addOverload d.1 true d.2 with
  | error p => exact hs
  | ok s' => exact hadd d hd s s' hs h

theorem unambiguous_dataScope : dataScope.All Binding.Unambiguous := by
  have hvariables : (dataVariables.foldl (fun s v => Scope.insert s v.name (.variable v))
      Scope.empty).All Binding.Unambiguous :=
    List.foldlRecOn _ _ Scope.All.empty fun _ hs v _ => hs.insert (b := .variable v) trivial
  exact hvariables.insert (b := .struct depthRange) trivial

theorem unambiguous_scopeAfter (ds : List (String × Overload)) :
    (scopeAfter ds).All Binding.Unambiguous :=
  foldl_induction unambiguous_dataScope fun _ _ _ _ hs h =>
    hs.addOverload Function.unambiguous_singleton (fun _ _ hf => hf.addOverload) h

theorem finds_scopeAfter {ds : List (String × Overload)} {name : String} {o : Overload} {s : Scope}
    (ho : ∀ ty ∈ o.paramTypes, ty.isSome = true)
    (h : (scopeAfter ds).addOverload name true o = .ok s)
    (rest : List (String × Overload)) :
    (scopeAfter (ds ++ (name, o) :: rest)).Finds name o.paramTypes := by
  rw [scopeAfter_append, List.foldl_cons]
  refine foldl_induction (P := fun s => s.Finds name o.paramTypes) ?_
    fun _ _ _ _ hs h => hs.addOverload ho h
  simp only [h, Except.toOption, Option.getD_some]
  exact Scope.finds_addOverload ho h

theorem lookup?_scope_eq_none {x : String} (hdata : dataScope.lookup? x = none)
    (hprototypes : ∀ p ∈ prototypes, x ≠ p.name) : scope.lookup? x = none := by
  rw [scope_eq_scopeAfter]
  refine foldl_induction (P := fun s => s.lookup? x = none) hdata fun d hd s s' hs h => ?_
  obtain ⟨p, hp, hd⟩ := List.mem_flatMap.mp hd
  obtain ⟨o, -, rfl⟩ := List.mem_map.mp hd
  exact ((Scope.addOverload_eq_ok h).1 x (hprototypes p hp)).trans hs

theorem lookup?_dataScope_eq_none {p : Prototype} (hp : p ∈ prototypes) :
    dataScope.lookup? p.name = none := by
  have hall : prototypes.all (fun p => (dataScope.lookup? p.name).isNone) = true := by
    decide +kernel
  exact Option.isNone_iff_eq_none.mp (List.all_eq_true.mp hall p hp)

theorem lookup?_scopeAfter {x : String} (hx : dataScope.lookup? x = none)
    (ds : List (String × Overload)) :
    (scopeAfter ds).lookup? x = none ∨ ∃ f, (scopeAfter ds).lookup? x = some (.function f) := by
  refine foldl_induction (P := fun s => s.lookup? x = none ∨ ∃ f, s.lookup? x = some (.function f))
    (.inl hx) fun d _ s s' hs h => ?_
  obtain ⟨hother, g, hg, -⟩ := Scope.addOverload_eq_ok h
  by_cases hd : x = d.1
  · exact .inr ⟨g, hd ▸ hg⟩
  · rwa [hother x hd]

theorem isSome_paramTypes {p : Prototype} {o : Overload} (ho : o ∈ p.overloads) :
    ∀ t ∈ o.paramTypes, t.isSome = true := by
  obtain ⟨i, -, rfl⟩ := List.mem_map.mp ho
  intro t ht
  obtain ⟨q, hq, rfl⟩ := List.mem_map.mp ht
  obtain ⟨s, -, rfl⟩ := List.mem_map.mp hq
  rfl

/-- Every overload of a prototype is found in the builtin scope. -/
theorem finds_scope {p : Prototype} (hp : p ∈ prototypes) {o : Overload} (ho : o ∈ p.overloads) :
    scope.Finds p.name o.paramTypes := by
  have hknown := isSome_paramTypes ho
  have hmem : (p.name, o) ∈ declarations :=
    List.mem_flatMap.mpr ⟨p, hp, List.mem_map_of_mem ho⟩
  obtain ⟨before, rest, hsplit⟩ := List.append_of_mem hmem
  rw [scope_eq_scopeAfter, hsplit]
  cases hadd : (scopeAfter before).addOverload p.name true o with
  | ok s => exact finds_scopeAfter hknown hadd rest
  | error d =>
    -- The function is there with these parameter types, and keeps them.
    have hfinds : (scopeAfter before).Finds p.name o.paramTypes := by
      rcases lookup?_scopeAfter (lookup?_dataScope_eq_none hp) before with hnone | ⟨f, hf⟩
      · rw [Scope.addOverload, hnone] at hadd
        cases hadd
      · refine ⟨f, hf, ?_⟩
        cases hf' : f.addOverload o with
        | ok g =>
          rw [Scope.addOverload, hf] at hadd
          simp only [hf'] at hadd
          cases hadd
        | error e => exact Function.finds_of_addOverload_error hknown hf'
    rw [scopeAfter_append, List.foldl_cons]
    refine foldl_induction (P := fun s => s.Finds p.name o.paramTypes) ?_
      fun _ _ _ _ hs h => hs.addOverload hknown h
    simpa only [hadd, Except.toOption, Option.getD_none] using hfinds

end Prelude

namespace Bind

theorem unambiguous_start : start.scopes.All Binding.Unambiguous where
  builtins _ hb := by
    obtain rfl := Option.some.inj hb
    rw [Prelude.scope_eq_scopeAfter]
    exact Prelude.unambiguous_scopeAfter _
  inner := Scope.All.empty
  outer := by simp [start, ScopeStack.new]

/-- At every point of a unit, no two overloads of a visible function accept the same arguments. A
function of known parameter types that is declared without a report is found by just these types
from then on, and a declaration that is reported changes nothing. The same holds along the
declarations of the builtin functions. -/
theorem overloads_unambiguous_and_found :
    (∀ s, Later start s → s.scopes.All Binding.Unambiguous) ∧
    (∀ unit, Later start (after unit)) ∧
    (∀ before rest f, Later start (declaring before f) ∧
      Later (declaredState before f) (after (before ++ .function f :: rest))) ∧
    (∀ before f, (∀ ty ∈ (declared before f).paramTypes, ty.isSome = true) →
      (declaredState before f).problems = (declaring before f).problems →
      ∀ t, Later (declaredState before f) t →
        t.scopes.global.Finds f.name (declared before f).paramTypes) ∧
    (∀ s name o, ((addOverload name o).run s).2.problems ≠ s.problems →
      ((addOverload name o).run s).2.scopes = s.scopes) ∧
    Prelude.scope = Prelude.scopeAfter Prelude.declarations ∧
    (∀ ds, (Prelude.scopeAfter ds).All Binding.Unambiguous) ∧
    ∀ ds name o s rest, (∀ ty ∈ o.paramTypes, ty.isSome = true) →
      (Prelude.scopeAfter ds).addOverload name true o = .ok s →
      (Prelude.scopeAfter (ds ++ (name, o) :: rest)).Finds name o.paramTypes := by
  refine ⟨fun s hs => hs.unambiguous unambiguous_start, later_after,
    fun before rest f => ⟨later_declaring before f, later_declaredState before rest f⟩,
    fun before f hknown hclean t ht => ?_, fun s name o => scopes_of_reported,
    Prelude.scope_eq_scopeAfter, Prelude.unambiguous_scopeAfter,
    fun ds name o s rest ho h => Prelude.finds_scopeAfter ho h rest⟩
  exact ht.finds hknown (finds_of_declared hknown (outer_declaring before f) hclean)

def prototype (name : String) (b : BasicTy) : FunctionDecl :=
  let quals : Qualifiers := ⟨none, none, false, none, [], ⟨0, 0⟩⟩
  let spec : TypeSpec := .basic b ⟨none, ⟨0, 0⟩, none⟩
  ⟨quals, spec, name, [⟨quals, spec, none, none, ⟨0, 0⟩, none⟩], none, ⟨0, 0⟩⟩

theorem overload_found_prototype :
    let f := prototype "f" (.scalar .float)
    let g := prototype "f" (.scalar .int)
    (declared [] f).paramTypes = [some .float] ∧
      (declaredState [] f).problems = (declaring [] f).problems ∧
      (after [.function f, .function g, .function f]).scopes.global.Finds "f" [some .float] := by
  intro f g
  have hclean : (declaredState [] f).problems = (declaring [] f).problems := by
    have hbuiltins : (declaring [] f).scopes.builtins = some Prelude.scope :=
      ((program_signature f).sameAround (after [])).builtins
    have hnone : Prelude.scope.lookup? f.name = none :=
      Prelude.lookup?_scope_eq_none (by decide) (by decide +kernel)
    rw [declaredState]
    refine problems_addOverload_of_new ?_ ?_
    · rw [ScopeStack.lookupBuiltin?, hbuiltins, Option.bind_some, hnone]
    · rfl
  obtain ⟨-, -, hlater, hfound, -⟩ := overloads_unambiguous_and_found
  exact ⟨rfl, hclean, hfound [] f (by decide) hclean _ (hlater [] [.function g, .function f] f).2⟩

end Bind

end Shader
