import Shader.Prelude
import Shader.Proofs.Fold

/-! Scopes whose bindings are sound: constants are of the types of their variables, builtin
functions have the overloads of their prototypes, and structs have names. -/

namespace Shader

/-- What can stand under a name in a scope of builtins, or in a scope of the unit. -/
def Binding.Sound (name : String) (builtin : Bool) : Binding → Prop
  | .variable v => v.Sound
  | .function f => f.name = name ∧ f.builtin = builtin ∧ f.Genuine
  | .struct ty => ty.HasName

theorem Overload.IsOf.of_eq {o p : Overload} {name : String} (h : o.IsOf name)
    (hparams : p.params = o.params) (hresult : p.result = o.result) : p.IsOf name := by
  obtain ⟨q, hq, hname, i, hi, ho⟩ := h
  exact ⟨q, hq, hname, i, hi, hparams.trans ho.1, hresult.trans ho.2⟩

theorem Function.mem_markDefined {o p : Overload} {os : List Overload}
    (h : p ∈ Function.addOverload.markDefined o os) :
    ∃ q ∈ os, p.params = q.params ∧ p.result = q.result := by
  induction os with
  | nil => simp [Function.addOverload.markDefined] at h
  | cons q os ih =>
    unfold Function.addOverload.markDefined at h
    split at h
    · rcases List.mem_cons.mp h with rfl | h
      · exact ⟨q, by simp, rfl, rfl⟩
      · exact ⟨p, by simp [h], rfl, rfl⟩
    · rcases List.mem_cons.mp h with rfl | h
      · exact ⟨p, by simp, rfl, rfl⟩
      · obtain ⟨r, hr, heq⟩ := ih h
        exact ⟨r, by simp [hr], heq⟩

theorem Function.addOverload_sound {f g : Function} {o : Overload} {name : String} {builtin : Bool}
    (hf : (Binding.function f).Sound name builtin) (ho : builtin = true → o.IsOf name)
    (h : f.addOverload o = .ok g) : (Binding.function g).Sound name builtin := by
  obtain ⟨rfl, rfl, hgenuine⟩ := hf
  unfold Function.addOverload at h
  split at h
  · obtain rfl := Except.ok.inj h
    refine ⟨rfl, rfl, fun hb p hp => ?_⟩
    rcases List.mem_append.mp hp with hp | hp
    · exact hgenuine hb p hp
    · obtain rfl := List.mem_singleton.mp hp
      exact ho hb
  · split at h
    · cases h
    · split at h
      · cases h
      · obtain rfl := Except.ok.inj h
        refine ⟨rfl, rfl, fun hb p hp => ?_⟩
        obtain ⟨q, hq, hparams, hresult⟩ := Function.mem_markDefined hp
        exact (hgenuine hb q hq).of_eq hparams hresult

namespace Scope

def Sound (builtin : Bool) (s : Scope) : Prop :=
  ∀ e ∈ s.entries, e.2.Sound e.1 builtin

variable {builtin : Bool} {s : Scope}

theorem sound_empty : empty.Sound builtin := by
  simp [Sound, empty]

theorem Sound.insert (hs : s.Sound builtin) {name : String} {b : Binding}
    (hb : b.Sound name builtin) : (s.insert name b).Sound builtin := by
  simp only [Sound, Scope.insert, List.mem_cons, forall_eq_or_imp]
  exact ⟨hb, hs⟩

theorem Sound.replace (hs : s.Sound builtin) {name : String} {b : Binding}
    (hb : b.Sound name builtin) : (s.replace name b).Sound builtin := by
  simp only [Sound, Scope.replace, List.mem_map]
  rintro e ⟨⟨n, old⟩, he, rfl⟩
  dsimp only
  split
  · rename_i hn
    subst hn
    exact hb
  · exact hs _ he

theorem Sound.lookup (hs : s.Sound builtin) {name : String} {b : Binding}
    (h : s.lookup? name = some b) : b.Sound name builtin := by
  obtain ⟨before, after, heq, -⟩ := List.lookup_eq_some_iff.mp h
  exact hs (name, b) (by simp [heq])

theorem Sound.addOverload (hs : s.Sound builtin) {name : String} {o : Overload}
    (ho : builtin = true → o.IsOf name) {s' : Scope} (h : s.addOverload name builtin o = .ok s') :
    s'.Sound builtin := by
  unfold Scope.addOverload at h
  split at h
  · obtain rfl := Except.ok.inj h
    refine hs.insert ⟨rfl, rfl, fun hb p hp => ?_⟩
    obtain rfl := List.mem_singleton.mp hp
    exact ho hb
  · rename_i f hf
    cases hadd : f.addOverload o with
    | error e =>
      rw [hadd] at h
      cases h
    | ok g =>
      rw [hadd] at h
      obtain rfl := Except.ok.inj h
      exact hs.replace (Function.addOverload_sound (hs.lookup hf) ho hadd)
  · cases h

end Scope

namespace Prelude

theorem sound_builtin (name : String) (ty : Ty) (storage : Storage) (span : Span) :
    (builtin name ty storage span).Sound := by
  simp [Variable.Sound, builtin]

theorem sound_limit (name : String) (value : Int32) (span : Span) :
    (limit name value span).Sound := by
  intro c hc
  obtain rfl := Option.some.inj hc
  exact ⟨Constant.sound_ofScalar _, rfl⟩

theorem sound_dataVariables : ∀ v ∈ dataVariables, v.Sound := by
  simp [dataVariables, sound_builtin, sound_limit]

theorem isTag_depthRangeName : IsTag depthRangeName where
  word := ⟨⟨'g', _, rfl, by decide, by decide⟩, by decide⟩
  fresh := by decide

theorem sound_dataScope : dataScope.Sound true := by
  have hvariables : (dataVariables.foldl (fun s v => Scope.insert s v.name (.variable v))
      Scope.empty).Sound true :=
    List.foldlRecOn _ _ Scope.sound_empty fun _ hs v hv => hs.insert (sound_dataVariables v hv)
  exact hvariables.insert isTag_depthRangeName

theorem sound_declare {s : Scope} (hs : s.Sound true) {p : Prototype} (hp : p ∈ prototypes) :
    (declare s p).Sound true := by
  refine List.foldlRecOn _ _ hs fun s hs o ho => ?_
  have hof : o.IsOf p.name := by
    obtain ⟨i, hi, rfl⟩ := List.mem_map.mp ho
    exact ⟨p, hp, rfl, i, List.mem_range.mp hi, rfl, rfl⟩
  cases hadd : s.addOverload p.name true o with
  | error e => simpa [hadd, Except.toOption] using hs
  | ok s' => simpa [hadd, Except.toOption] using hs.addOverload (fun _ => hof) hadd

/-- Every binding of the builtin scope is sound. -/
theorem sound_scope : scope.Sound true :=
  List.foldlRecOn _ _ sound_dataScope fun _ hs _ hp => sound_declare hs hp

end Prelude

end Shader
