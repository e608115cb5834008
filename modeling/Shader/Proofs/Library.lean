import Shader.Library
import Shader.Prelude.Prototype
import Shader.Proofs.Library.Componentwise
import Shader.Proofs.Library.Whole

/-! Calls of builtin functions. Every declared prototype that only reads numbers and bools has
values of its result type. -/

namespace Shader

namespace Library

/-- The type of a call with arguments of the given types. -/
def resultTy? (name : String) (tys : List BasicTy) : Option BasicTy :=
  match WholeFunction.ofName? name, ScalarFunction.ofName? name with
  | some f, _ => f.resultTy? tys
  | none, some f => f.resultTy? tys
  | none, none => none

/-- An order comparison meets a component that is NaN. -/
def ComparesNaN (name : String) (args : List Value) : Prop :=
  name ∈ ["lessThan", "lessThanEqual", "greaterThan", "greaterThanEqual"] ∧
    ∃ a ∈ args, ∃ x, .float x ∈ a.components ∧ x.isNaN = true

theorem UnorderedIn.comparesNaN {f : ScalarFunction} {name : String} {args : List Value}
    (hf : ScalarFunction.ofName? name = some f) (h : UnorderedIn f args) :
    ComparesNaN name args := by
  obtain ⟨horder, hnan⟩ := h
  have hname : f.name = name := by simpa using List.find?_some hf
  refine ⟨?_, hnan⟩
  rw [← hname]
  cases f <;> simp [ScalarFunction.isOrder] at horder <;> simp [ScalarFunction.name]

theorem call_meets {name : String} {args : List Value} {tys : List BasicTy} {t : BasicTy}
    (hargs : Value.AllFit args tys) (ht : resultTy? name tys = some t) :
    (call name args).Meets (ComparesNaN name args) fun v => v.Fits (.basic t) := by
  unfold call
  unfold resultTy? at ht
  split
  · rename_i f hf
    simp only [hf] at ht
    exact (whole_meets hargs ht).mono False.elim fun _ h => h
  · rename_i f hf hs
    simp only [hf, hs] at ht
    exact (componentwise_meets hargs ht).mono (fun h => h.comparesNaN hs) fun _ h => h
  · rename_i hf hs
    simp [hf, hs] at ht

end Library

namespace Slot

def isSampler (s : Slot) : Bool :=
  (s.member 0).isSampler

theorem not_fits_of_isSampler {s : Slot} (h : s.isSampler = true) (i : Nat) (v : Value) :
    ¬ v.Fits (.basic (s.member i)) := by
  cases s with
  | exact b =>
    cases b <;> simp [isSampler, member, BasicTy.isSampler] at h
    exact Value.not_fits_sampler
  | family f =>
    cases f with
    | samplers shape =>
      match i with
      | 0 | 1 | 2 => exact Value.not_fits_sampler
      | i + 3 => exact Value.not_fits_void
    | generic k => cases h
    | vectors k => cases h
    | matrices => cases h
    | samples => cases h

end Slot

theorem Value.AllFit.exists_fits {args : List Value} {tys : List BasicTy} (h : AllFit args tys)
    {t : BasicTy} (ht : t ∈ tys) : ∃ v ∈ args, v.Fits (.basic t) := by
  induction tys generalizing args with
  | nil => simp at ht
  | cons u tys ih =>
    obtain ⟨v, vs, rfl, hv, hvs⟩ := allFit_cons_iff.mp h
    rcases List.mem_cons.mp ht with rfl | ht
    · exact ⟨v, by simp, hv⟩
    · obtain ⟨w, hw, hfits⟩ := ih hvs ht
      exact ⟨w, by simp [hw], hfits⟩

namespace Prototype

def paramTys (p : Prototype) (i : Nat) : List BasicTy :=
  p.params.map fun q => q.1.member i

/-- The values of the prototype have its result type, or there are none because it takes a sampler
or writes to an argument. -/
def isTyped (p : Prototype) : Bool :=
  p.params.any (fun q => q.1.isSampler || q.2.isOutput) ||
    (List.range p.count).all fun i =>
      Library.resultTy? p.name (p.paramTys i) = some (p.result.member i)

theorem all_isTyped : Prelude.prototypes.all isTyped = true := by
  decide +kernel

/-- A declared function that only reads its arguments has a value of its result type, unless it
compares NaN. -/
theorem call_meets {p : Prototype} (hp : p ∈ Prelude.prototypes) {i : Nat} (hi : i < p.count)
    (hreads : ∀ q ∈ p.params, q.2.isOutput = false) {args : List Value}
    (hargs : Value.AllFit args (p.paramTys i)) :
    (Library.call p.name args).Meets (Library.ComparesNaN p.name args) fun v =>
      v.Fits (.basic (p.result.member i)) := by
  have htyped := List.all_eq_true.mp all_isTyped p hp
  simp only [isTyped, Bool.or_eq_true, List.any_eq_true, List.all_eq_true, List.mem_range,
    decide_eq_true_eq] at htyped
  rcases htyped with ⟨q, hq, hsampler | hout⟩ | htyped
  · obtain ⟨v, -, hv⟩ := hargs.exists_fits (List.mem_map_of_mem hq)
    exact (Slot.not_fits_of_isSampler hsampler i v hv).elim
  · simp [hreads q hq] at hout
  · exact Library.call_meets hargs (htyped i hi)

end Prototype

end Shader
