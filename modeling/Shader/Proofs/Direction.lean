import Shader.Proofs.Assign
import Shader.Proofs.Bind.Signature

/-! The directions of parameters. A call writes back where the first declaration of its signature
says so, and there its argument is a place that may be written. A definition that says otherwise
than the prototype before it is not heard. -/

namespace Shader

section Checked

variable {stage : Stage}

theorem ParamDecl.parameter_checked {p : ParamDecl} (hbound : Part.All Part.Bound p.parts)
    (hvalid : suffixExtent p.array ≠ .invalid) :
    (p.mapExprs (Expr.checked stage)).parameter = p.parameter := by
  have hsuffix := (Part.all_append.mp (Part.all_append.mp hbound).1).2
  rw [ParamDecl.parameter, ParamDecl.ty_checked hsuffix hvalid]
  rfl

theorem FunctionDecl.overload_checked {f : FunctionDecl} {B : Binding → Prop}
    (hbound : Part.All Part.Bound f.parts) (hres : ∀ e ∈ f.entries, e.Resolved B) :
    (f.mapExprs (Expr.checked stage)).overload = f.overload := by
  have hparams : (f.params.map (.mapExprs (Expr.checked stage))).map ParamDecl.parameter =
      f.params.map ParamDecl.parameter := by
    rw [List.map_map]
    refine List.map_congr_left fun p hp => ParamDecl.parameter_checked ?_ ?_
    · exact Part.all_flatMap.mp (Part.all_append.mp (Part.all_append.mp hbound).1).2 p hp
    · have hmem : .parameter p ∈ f.params.flatMap ParamDecl.entries :=
        List.mem_flatMap.mpr ⟨p, hp, List.mem_append_right _ (List.mem_singleton_self _)⟩
      refine (hres (.parameter p) (List.mem_append_left _ (List.mem_append_left _ ?_))).2.1
      exact List.mem_append_right _ hmem
  simp only [FunctionDecl.overload, FunctionDecl.mapExprs, hparams, TypeSpec.ty_mapExprs,
    Option.isSome_map]

theorem TranslationUnit.signatures_checked {tree : TranslationUnit} {B : Binding → Prop}
    (hbound : Part.All Part.Bound (parts tree)) (hres : ∀ e ∈ entries tree, e.Resolved B) :
    signatures (mapExprs (Expr.checked stage) tree) = signatures tree := by
  simp only [signatures, mapExprs, List.flatMap_map]
  refine List.flatMap_congr fun d hd => ?_
  cases d with
  | declaration d => rfl
  | function f =>
    have hoverload : (f.mapExprs (Expr.checked stage)).overload = f.overload :=
      FunctionDecl.overload_checked (Part.all_flatMap.mp hbound _ hd)
        fun e he => hres e (List.mem_flatMap.mpr ⟨_, hd, he⟩)
    simp only [TopLevel.mapExprs, TopLevel.signatures, hoverload]
    rfl

end Checked

def writesBack (params : List Parameter) (i : Nat) : Bool :=
  params[i]?.any fun p => p.direction.isOutput

/-- The arguments of a call that selects the signature of the function. -/
def Expr.argsTo? (f : FunctionDecl) : Expr → Option (List Expr)
  | .call _ _ args (.function g) _ =>
    if g.builtin = false ∧ g.name = f.name ∧
        (selected? g args).map Overload.paramTypes = some f.overload.paramTypes then some args
    else none
  | _ => none

def TranslationUnit.callsTo (f : FunctionDecl) (unit : TranslationUnit) : List (List Expr) :=
  (nodes unit).filterMap (Expr.argsTo? f)

theorem firstParams?_append {L R : List (String × Overload)} {name : String} {o : Overload}
    {P : List Parameter → Prop} (ho : P o.params)
    (hL : ∀ ps, firstParams? L name o.paramTypes = some ps → P ps) :
    ∃ ps, firstParams? (L ++ (name, o) :: R) name o.paramTypes = some ps ∧ P ps := by
  cases hfirst : firstParams? L name o.paramTypes with
  | some ps =>
    refine ⟨ps, ?_, hL ps hfirst⟩
    obtain ⟨s, hs, rfl⟩ := Option.map_eq_some_iff.mp hfirst
    simp only [firstParams?, List.find?_append, hs, Option.some_or, Option.map_some]
  | none =>
    refine ⟨o.params, ?_, ho⟩
    have hnone := Option.map_eq_none_iff.mp hfirst
    rw [firstParams?, List.find?_append, hnone]
    simp

namespace Expr

variable {f : Function} {args : List Expr} {o : Overload}

theorem map_ty_of_mapM {types : List Ty} (h : args.mapM Expr.ty = some types) :
    args.map Expr.ty = types.map some := by
  induction args generalizing types with
  | nil =>
    obtain rfl := Option.some.inj h
    rfl
  | cons a args ih =>
    rw [List.mapM_cons] at h
    obtain ⟨t, ht, h⟩ := Option.bind_eq_some_iff.mp h
    obtain ⟨ts, hts, h⟩ := Option.bind_eq_some_iff.mp h
    obtain rfl := Option.some.inj h
    rw [List.map_cons, List.map_cons, ht, ih hts]

theorem length_of_selected? (h : selected? f args = some o) : o.params.length = args.length := by
  obtain ⟨types, htypes, ho⟩ := Option.bind_eq_some_iff.mp h
  obtain ⟨-, haccepts⟩ := Function.overload?_eq_some ho
  have hparams := congrArg List.length (Overload.accepts_map_some_iff.mp haccepts)
  have hargs := congrArg List.length (map_ty_of_mapM htypes)
  simp only [Overload.paramTypes, List.length_map] at hparams hargs
  rw [hparams, hargs]

theorem exists_mem_outputs {i : Nat} (h : selected? f args = some o)
    (hi : writesBack o.params i = true) : ∃ a, args[i]? = some a ∧ a ∈ outputs o.params args := by
  obtain ⟨p, hp, hout⟩ := (Option.any_eq_true _ _).mp hi
  obtain ⟨hlt, -⟩ := List.getElem?_eq_some_iff.mp hp
  rw [length_of_selected? h] at hlt
  refine ⟨args[i], List.getElem?_eq_getElem hlt, List.mem_filterMap.mpr ⟨(p, args[i]), ?_, ?_⟩⟩
  · exact List.mem_of_getElem? (List.getElem?_zip_eq_some.mpr ⟨hp, List.getElem?_eq_getElem hlt⟩)
  · exact if_pos hout

end Expr

theorem Expr.argsTo?_eq_some {f : FunctionDecl} {e : Expr} {args : List Expr}
    (h : e.argsTo? f = some args) : ∃ callee suffix g n o,
      e = .call callee suffix args (.function g) n ∧ g.builtin = false ∧ g.name = f.name ∧
        selected? g args = some o ∧ o.paramTypes = f.overload.paramTypes := by
  unfold argsTo? at h
  split at h
  · split at h
    · rename_i callee suffix args' g n hg
      obtain rfl := Option.some.inj h
      obtain ⟨huser, hname, htypes⟩ := hg
      obtain ⟨o, ho, htypes⟩ := Option.map_eq_some_iff.mp htypes
      exact ⟨callee, suffix, g, n, o, rfl, huser, hname, ho, htypes⟩
    · cases h
  · cases h

/-- An argument that a function writes back is a place that may be written, unless the first
prototype of the same parameter types does not write it back. -/
theorem output_argument_assignable {source : String} {stage : Stage} {a : Analysis}
    (h : analyze source stage = .ok a) (hclean : a.isClean = true)
    {before after : TranslationUnit} {f : FunctionDecl}
    (hunit : a.unit = before ++ .function f :: after) {i : Nat}
    (hout : writesBack f.overload.params i = true)
    (hfirst : ∀ ps, firstParams? (TranslationUnit.signatures before) f.name
      f.overload.paramTypes = some ps → writesBack ps i = true) {args : List Expr}
    (hargs : args ∈ TranslationUnit.callsTo f a.unit) :
    ∃ arg, args[i]? = some arg ∧ arg.assignProblem? = none := by
  obtain ⟨unit, hrun, htree⟩ := exists_cleanRun h hclean
  have hres := bind_firstDeclared (parse_allPlain hrun.parsed) (parse_bare hrun.parsed) hrun.bound
  obtain ⟨e, hcall, he⟩ := List.mem_filterMap.mp hargs
  obtain ⟨callee, suffix, g, n, o, rfl, huser, hname, ho, htypes⟩ := Expr.argsTo?_eq_some he
  rw [htree] at hcall
  -- The selected overload has the parameters of the first declaration in the unit.
  have hdeclared := (hrun.resolved_nodes hres.parts _ hcall).of_function.resolve_left
    (by simp [huser])
  obtain ⟨types, -, hselected⟩ := Option.bind_eq_some_iff.mp ho
  have hparams := hdeclared o.params (List.mem_map_of_mem (Function.overload?_eq_some hselected).1)
  have hsignatures : TranslationUnit.signatures (bind unit).unit =
      TranslationUnit.signatures before ++
        (f.name, f.overload) :: TranslationUnit.signatures after := by
    rw [← TranslationUnit.signatures_checked hrun.parts_bound hres.entries, ← check_value, ← htree,
      hunit, TranslationUnit.signatures, List.flatMap_append, List.flatMap_cons]
    rfl
  obtain ⟨ps, hps, hwrites⟩ := firstParams?_append hout hfirst
  have hsame : o.params = ps := by
    refine Option.some.inj (hparams.symm.trans ?_)
    rw [hsignatures, hname, ← hps, ← htypes]
    rfl
  rw [← hsame] at hwrites
  obtain ⟨arg, harg, hmem⟩ := Expr.exists_mem_outputs ho hwrites
  refine ⟨arg, harg, hrun.assignProblem?_of_mem_written hcall arg ?_⟩
  rw [Expr.written, ho]
  exact hmem

/-- The prototype writes back one of the arguments, the definition both. -/
def directionSource : String :=
  "void f(int x, out int y); void f(out int x, out int y) { x = y = 1; }
  void main() { int z; f(3, z); }"

/-- The second declaration of a unit, with what stands before and after it. -/
def TranslationUnit.second? : TranslationUnit →
    Option (TranslationUnit × FunctionDecl × TranslationUnit)
  | first :: .function f :: after => some ([first], f, after)
  | _ => none

theorem TranslationUnit.eq_of_second? {unit before after : TranslationUnit} {f : FunctionDecl}
    (h : second? unit = some (before, f, after)) : unit = before ++ .function f :: after := by
  unfold second? at h
  split at h
  · cases h
    rfl
  · cases h

theorem analyze_directionSource :
    ∃ a before f after args, analyze directionSource .any = .ok a ∧ a.isClean = true ∧
      a.unit = before ++ .function f :: after ∧ args ∈ TranslationUnit.callsTo f after ∧
      (f.body.isSome && writesBack f.overload.params 0 && writesBack f.overload.params 1 &&
        (firstParams? (TranslationUnit.signatures before) f.name f.overload.paramTypes).any
          (writesBack · 1) &&
        args[0]?.any fun arg => arg.assignProblem? = some .noPlace) = true := by
  have hany : ((analyze directionSource .any).toOption.any fun a => a.isClean &&
      (TranslationUnit.second? a.unit).any fun (before, f, after) =>
        (TranslationUnit.callsTo f after).any fun args =>
          f.body.isSome && writesBack f.overload.params 0 && writesBack f.overload.params 1 &&
          (firstParams? (TranslationUnit.signatures before) f.name f.overload.paramTypes).any
            (writesBack · 1) &&
          args[0]?.any fun arg => arg.assignProblem? = some .noPlace) = true := by
    decide +kernel
  obtain ⟨a, ha, hboth⟩ := exists_ok_of_any hany
  obtain ⟨hclean, hsecond⟩ := Bool.and_eq_true_iff.mp hboth
  obtain ⟨⟨before, f, after⟩, hunit, hcalls⟩ := (Option.any_eq_true _ _).mp hsecond
  obtain ⟨args, hargs, hfacts⟩ := List.any_eq_true.mp hcalls
  exact ⟨a, before, f, after, args, ha, hclean, TranslationUnit.eq_of_second? hunit, hargs, hfacts⟩

theorem output_argument_directionSource :
    ∃ a before f after args, analyze directionSource .any = .ok a ∧ a.isClean = true ∧
      a.unit = before ++ .function f :: after ∧ writesBack f.overload.params 1 = true ∧
      (firstParams? (TranslationUnit.signatures before) f.name f.overload.paramTypes).any
        (writesBack · 1) = true ∧
      args ∈ TranslationUnit.callsTo f a.unit ∧
      ∃ arg, args[1]? = some arg ∧ arg.assignProblem? = none := by
  obtain ⟨a, before, f, after, args, ha, hclean, hunit, hargs, hfacts⟩ := analyze_directionSource
  simp only [Bool.and_eq_true] at hfacts
  obtain ⟨⟨⟨-, hout⟩, hfirst⟩, -⟩ := hfacts
  have hcalls : args ∈ TranslationUnit.callsTo f a.unit := by
    rw [hunit]
    simp only [TranslationUnit.callsTo, TranslationUnit.nodes, TranslationUnit.parts,
      List.flatMap_append, List.flatMap_cons, List.filterMap_append]
    exact List.mem_append_right _ (List.mem_append_right _ hargs)
  refine ⟨a, before, f, after, args, ha, hclean, hunit, hout, hfirst, hcalls, ?_⟩
  refine output_argument_assignable ha hclean hunit hout (fun ps hps => ?_) hcalls
  rwa [hps] at hfirst

/-- A literal at a position where the definition writes back. -/
theorem output_argument_literal :
    ∃ a before f after args arg, analyze directionSource .any = .ok a ∧ a.isClean = true ∧
      a.unit = before ++ .function f :: after ∧ f.body.isSome = true ∧
      writesBack f.overload.params 0 = true ∧ args ∈ TranslationUnit.callsTo f after ∧
      args[0]? = some arg ∧ arg.assignProblem? = some .noPlace := by
  obtain ⟨a, before, f, after, args, ha, hclean, hunit, hargs, hfacts⟩ := analyze_directionSource
  simp only [Bool.and_eq_true] at hfacts
  obtain ⟨⟨⟨⟨hbody, hout⟩, -⟩, -⟩, harg⟩ := hfacts
  obtain ⟨arg, harg, hplace⟩ := (Option.any_eq_true _ _).mp harg
  exact ⟨a, before, f, after, args, arg, ha, hclean, hunit, hbody, hout, hargs, harg,
    of_decide_eq_true hplace⟩

end Shader
