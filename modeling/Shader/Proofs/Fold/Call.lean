import Shader.Fold
import Shader.Proofs.Fold.Construct
import Shader.Proofs.Library

/-! Calls on constants. A builtin function has the overloads of its prototypes, and the one that
accepts the arguments gives the type of the value. -/

namespace Shader

theorem Overload.accepts_map_some_iff {o : Overload} {ts : List Ty} :
    o.accepts (ts.map some) = true ↔ o.paramTypes = ts.map some := by
  have hlist : ∀ (ps : List (Option Ty)) (ts : List Ty),
      (ps.length == (ts.map some).length && (ps.zipWith typesMatch (ts.map some)).all id) = true ↔
        ps = ts.map some := by
    intro ps
    induction ps with
    | nil =>
      intro ts
      cases ts <;> simp
    | cons p ps ih =>
      intro ts
      cases ts with
      | nil => simp
      | cons t ts =>
        have := ih ts
        cases p <;> simp_all [typesMatch, and_left_comm]
  have := hlist o.paramTypes ts
  simpa [accepts, paramTypes] using this

theorem Function.overload?_eq_some {f : Function} {args : List (Option Ty)} {o : Overload}
    (h : f.overload? args = some o) : o ∈ f.overloads ∧ o.accepts args = true := by
  unfold Function.overload? at h
  exact ⟨List.mem_of_find?_eq_some h, by simpa using List.find?_some h⟩

/-- The overload is one of a prototype of that name. -/
def Overload.IsOf (o : Overload) (name : String) : Prop :=
  ∃ p ∈ Prelude.prototypes, p.name = name ∧ ∃ i < p.count,
    o.params = (p.overload i).params ∧ o.result = (p.overload i).result

/-- A builtin function has only overloads of its prototypes. -/
def Function.Genuine (f : Function) : Prop :=
  f.builtin = true → ∀ o ∈ f.overloads, o.IsOf f.name

namespace Fold

theorem allFit_values {args : List Constant} {tys : List BasicTy}
    (hty : args.map Constant.ty = tys.map Ty.basic) (hargs : ∀ a ∈ args, a.WellShaped) :
    Value.AllFit (args.map Constant.value) tys := by
  induction tys generalizing args with
  | nil => simp_all [Value.AllFit]
  | cons t tys ih =>
    cases args with
    | nil => simp at hty
    | cons a args =>
      simp only [List.map_cons, List.cons.injEq] at hty
      have ha : a.value.Fits a.ty := hargs a (by simp)
      exact ⟨hty.1 ▸ ha, ih hty.2 fun b hb => hargs b (by simp [hb])⟩

theorem library_meets {o : Overload} {name : String} {args : List Constant} (ho : o.IsOf name)
    (haccepts : o.accepts (args.map fun a => some a.ty) = true) (hreads : o.hasOutput = false)
    (hargs : ∀ a ∈ args, a.WellShaped) :
    ∃ b, o.result = some (.basic b) ∧
      (Library.call name (args.map Constant.value)).Meets
        (Library.ComparesNaN name (args.map Constant.value)) fun v => v.Fits (.basic b) := by
  obtain ⟨p, hp, rfl, i, hi, hparams, hresult⟩ := ho
  refine ⟨_, hresult, p.call_meets hp hi ?_ (allFit_values ?_ hargs)⟩
  · intro q hq
    simp only [Overload.hasOutput, hparams, Prototype.overload, List.any_map,
      List.any_eq_false] at hreads
    simpa using hreads q hq
  · rw [show (args.map fun a => some a.ty) = (args.map Constant.ty).map some by simp,
      Overload.accepts_map_some_iff] at haccepts
    have hbasic : ((p.paramTys i).map Ty.basic).map some = (args.map Constant.ty).map some := by
      simpa [Overload.paramTypes, hparams, Prototype.overload, Prototype.paramTys,
        Function.comp_def] using haccepts
    exact ((List.map_inj_right fun _ _ => Option.some.inj).mp hbasic).symm

/-- A builtin call can only have a value of the type that the accepting overload gives. -/
theorem builtinCall_typed {f : Function} {args : List Constant} (hf : f.Genuine)
    (hargs : ∀ a ∈ args, a.WellShaped) :
    (builtinCall f args).Meets True fun c => c.WellShaped ∧ (∃ b, c.ty = .basic b) ∧
      ∃ o, f.overload? (args.map fun a => some a.ty) = some o ∧ o.result = some c.ty := by
  unfold builtinCall
  split
  · trivial
  · rename_i hb
    cases ho : f.overload? (args.map fun a => some a.ty) with
    | none => trivial
    | some o =>
      simp only [Outcome.ofOption_some, Outcome.value_bind]
      split
      · trivial
      · rename_i hreads
        obtain ⟨hmem, haccepts⟩ := Function.overload?_eq_some ho
        obtain ⟨t, ht, hcall⟩ := library_meets (hf (by simpa using hb) o hmem) haccepts
          (by simpa using hreads) hargs
        simp only [ht, Outcome.ofOption_some, Outcome.value_bind]
        refine (hcall.mono (fun _ => trivial) fun _ h => h).bind fun v hv => ?_
        exact ⟨hv, ⟨t, rfl⟩, o, rfl, ht⟩

/-- A builtin function that only reads its arguments has a value for all that it accepts, unless
it compares NaN. -/
theorem builtinCall_meets {f : Function} {args : List Constant} {o : Overload} (hf : f.Genuine)
    (hb : f.builtin = true) (ho : f.overload? (args.map fun a => some a.ty) = some o)
    (hreads : o.hasOutput = false) (hargs : ∀ a ∈ args, a.WellShaped) :
    (builtinCall f args).Meets (Library.ComparesNaN f.name (args.map Constant.value)) fun c =>
      o.result = some c.ty ∧ c.WellShaped := by
  obtain ⟨hmem, haccepts⟩ := Function.overload?_eq_some ho
  obtain ⟨t, ht, hcall⟩ := library_meets (hf hb o hmem) haccepts hreads hargs
  simp only [builtinCall, hb, ho, hreads, ht, Bool.not_true, Bool.false_eq_true, if_false,
    Outcome.ofOption_some, Outcome.value_bind]
  exact hcall.bind fun v hv => ⟨rfl, hv⟩

theorem select_typed {condition whenTrue whenFalse : Constant} (ht : whenTrue.WellShaped)
    (hf : whenFalse.WellShaped) :
    (select condition whenTrue whenFalse).Meets True fun c =>
      c.WellShaped ∧ c.ty = whenTrue.ty ∧ c.ty = whenFalse.ty := by
  unfold select
  split
  · rename_i hty
    split
    · rename_i b _
      cases b
      · exact ⟨hf, hty.symm, rfl⟩
      · exact ⟨ht, rfl, hty⟩
    · trivial
  · trivial

theorem select_meets {condition whenTrue whenFalse : Constant} {t : Ty}
    (hc : Has .bool condition) (ht : Has t whenTrue) (hf : Has t whenFalse) :
    (select condition whenTrue whenFalse).Meets False (Has t) := by
  obtain ⟨ty, v⟩ := condition
  obtain ⟨rfl, hv⟩ := hc
  obtain ⟨s, rfl, hs⟩ := Value.fits_scalar_iff.mp hv
  obtain ⟨b, rfl⟩ := Scalar.kind_eq_bool.mp hs
  simp only [select, ht.1, hf.1, if_true]
  cases b
  · exact hf
  · exact ht

theorem length_typed (ty : Ty) :
    (length ty).Meets (ty.length? = none) fun c => ty.length?.isSome = true ∧ Has .int c := by
  cases h : ty.length? with
  | none => simp [length, h]
  | some n =>
    simp only [length, h, Outcome.ofOption_some, Outcome.value_bind]
    exact ⟨rfl, rfl, Value.fits_ofScalar _⟩

end Fold

end Shader
