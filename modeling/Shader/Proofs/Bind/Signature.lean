import Shader.Proofs.Bind.Resolved

/-! Functions in scope. The declarations of one name and the same parameter types are one overload,
which keeps the parameters of the first of them. -/

namespace Shader

def firstParams? (L : List (String × Overload)) (name : String) (types : List (Option Ty)) :
    Option (List Parameter) :=
  (L.find? fun s => s.1 = name ∧ s.2.paramTypes = types).map fun s => s.2.params

variable {T L : List (String × Overload)} {name : String} {o : Overload}

theorem firstParams?_eq_some (hL : ∀ q, (name, q) ∈ L → q.paramTypes ≠ o.paramTypes)
    (hT : L ++ [(name, o)] <+: T) : firstParams? T name o.paramTypes = some o.params := by
  obtain ⟨rest, rfl⟩ := hT
  have hnone : L.find? (fun s => s.1 = name ∧ s.2.paramTypes = o.paramTypes) = none := by
    refine List.find?_eq_none.mpr fun s hs => ?_
    rw [decide_eq_true_eq]
    rintro ⟨rfl, htypes⟩
    exact hL s.2 hs htypes
  rw [firstParams?, List.find?_append, List.find?_append, hnone]
  simp

namespace Function

/-- Each overload of a function of the unit has the parameters of a first declaration. -/
def FirstDeclared (T : List (String × Overload)) (f : Function) : Prop :=
  f.builtin = true ∨ ∀ ps ∈ f.overloads.map Overload.params,
    firstParams? T f.name (ps.map Parameter.ty) = some ps

theorem accepts_iff {p : Overload} (ho : ∀ t ∈ o.paramTypes, t.isSome = true) :
    p.accepts o.paramTypes = true ↔ p.paramTypes = o.paramTypes := by
  have hts : o.paramTypes = (o.paramTypes.filterMap id).map some := by
    rw [List.map_filterMap_some_eq_filter_map_isSome, List.map_id, List.filter_eq_self.mpr ho]
  rw [hts]
  exact Overload.accepts_map_some_iff

theorem params_markDefined (os : List Overload) :
    (addOverload.markDefined o os).map Overload.params = os.map Overload.params := by
  induction os with
  | nil => rfl
  | cons p os ih =>
    unfold addOverload.markDefined
    split
    · rfl
    · rw [List.map_cons, List.map_cons, ih]

theorem addOverload_eq_ok {f g : Function} (h : f.addOverload o = .ok g) :
    g.name = f.name ∧ g.builtin = f.builtin ∧
      (f.overload? o.paramTypes = none ∧ g.overloads = f.overloads ++ [o] ∨
        (∃ p, f.overload? o.paramTypes = some p) ∧
          g.overloads.map Overload.params = f.overloads.map Overload.params) := by
  unfold addOverload at h
  split at h
  · rename_i hnone
    obtain rfl := Except.ok.inj h
    exact ⟨rfl, rfl, .inl ⟨hnone, rfl⟩⟩
  · rename_i p hp
    split at h
    · cases h
    · split at h
      · cases h
      · obtain rfl := Except.ok.inj h
        exact ⟨rfl, rfl, .inr ⟨⟨p, hp⟩, params_markDefined f.overloads⟩⟩

theorem paramTypes_addOverload {f g : Function} (ho : ∀ t ∈ o.paramTypes, t.isSome = true)
    (h : f.addOverload o = .ok g) :
    f.overloads.map Overload.paramTypes ⊆ g.overloads.map Overload.paramTypes ∧
      o.paramTypes ∈ g.overloads.map Overload.paramTypes := by
  obtain ⟨-, -, ⟨-, hoverloads⟩ | ⟨⟨p, hp⟩, hparams⟩⟩ := addOverload_eq_ok h
  · rw [hoverloads, List.map_append]
    exact ⟨List.subset_append_left _ _, List.mem_append_right _ (by simp)⟩
  · have htypes := congrArg (List.map (List.map Parameter.ty)) hparams
    rw [List.map_map, List.map_map] at htypes
    have htypes : g.overloads.map Overload.paramTypes = f.overloads.map Overload.paramTypes :=
      htypes
    rw [htypes]
    obtain ⟨hmem, haccepts⟩ := overload?_eq_some hp
    exact ⟨List.Subset.refl _, List.mem_map.mpr ⟨p, hmem, (accepts_iff ho).mp haccepts⟩⟩

theorem FirstDeclared.addOverload {f g : Function} (hf : f.FirstDeclared T)
    (h : f.addOverload o = .ok g) (hnew : f.overload? o.paramTypes = none →
      firstParams? T f.name o.paramTypes = some o.params) : g.FirstDeclared T := by
  obtain ⟨hname, hbuiltin, hcase⟩ := addOverload_eq_ok h
  rcases hf with hf | hf
  · exact .inl (hbuiltin.trans hf)
  · refine .inr ?_
    rw [hname]
    rcases hcase with ⟨hnone, hoverloads⟩ | ⟨-, hparams⟩
    · rw [hoverloads, List.map_append]
      refine List.forall_mem_append.mpr ⟨hf, ?_⟩
      exact List.forall_mem_singleton.mpr (hnew hnone)
    · rwa [hparams]

end Function

def Binding.FirstDeclared (T : List (String × Overload)) : Binding → Prop
  | .function f => f.FirstDeclared T
  | _ => True

namespace Scope

variable {s s' : Scope}

theorem lookup?_insert (s : Scope) (name x : String) (b : Binding) :
    (s.insert name b).lookup? x = if x = name then some b else s.lookup? x := by
  simp only [lookup?, insert, List.lookup_cons]
  by_cases h : x = name
  · simp [h]
  · simp [h, beq_eq_false_iff_ne.mpr h]

theorem lookup?_replace (s : Scope) (name x : String) (b : Binding) :
    (s.replace name b).lookup? x =
      if x = name then (s.lookup? x).map fun _ => b else s.lookup? x := by
  have hreplace : s.replace name b =
      ⟨s.entries.map fun e => (e.1, if e.1 = name then b else e.2)⟩ := by
    refine congrArg Scope.mk (List.map_congr_left fun e _ => ?_)
    obtain ⟨n, old⟩ := e
    by_cases hn : n = name <;> simp [hn]
  rw [hreplace]
  clear hreplace
  obtain ⟨entries⟩ := s
  simp only [lookup?]
  induction entries with
  | nil => simp
  | cons e entries ih =>
    rw [List.map_cons, List.lookup_cons, List.lookup_cons, ih]
    by_cases he : x = e.1
    · subst he
      by_cases hname : e.1 = name <;> simp [hname]
    · rw [beq_eq_false_iff_ne.mpr he]

/-- The scope has every function of the list, each under its name and with the parameter types. -/
structure Records (L : List (String × Overload)) (s : Scope) : Prop where
  named : ∀ x f, s.lookup? x = some (.function f) → f.name = x
  recorded : ∀ e ∈ L, ∃ f, s.lookup? e.1 = some (.function f) ∧
    e.2.paramTypes ∈ f.overloads.map Overload.paramTypes

theorem records_nil : Scope.empty.Records [] :=
  ⟨by simp [lookup?, empty], by simp⟩

theorem Records.insert (hs : s.Records L) {b : Binding} (hb : ∀ f, b ≠ .function f)
    (hname : s.lookup? name = none) : (s.insert name b).Records L := by
  refine ⟨fun x f hf => ?_, fun e he => ?_⟩
  · rw [lookup?_insert] at hf
    split at hf
    · exact (hb f (Option.some.inj hf)).elim
    · exact hs.named x f hf
  · obtain ⟨f, hf, htypes⟩ := hs.recorded e he
    refine ⟨f, ?_, htypes⟩
    rw [lookup?_insert, if_neg, hf]
    rintro rfl
    rw [hname] at hf
    cases hf

theorem Records.enter (hs : s.Records L) {g : Function} (hname : g.name = name)
    (hat : s'.lookup? name = some (.function g))
    (helse : ∀ x, x ≠ name → s'.lookup? x = s.lookup? x)
    (hold : ∀ f, s.lookup? name = some (.function f) →
      f.overloads.map Overload.paramTypes ⊆ g.overloads.map Overload.paramTypes)
    (hnew : o.paramTypes ∈ g.overloads.map Overload.paramTypes) :
    s'.Records (L ++ [(name, o)]) := by
  refine ⟨fun x f hf => ?_, List.forall_mem_append.mpr ⟨fun e he => ?_, ?_⟩⟩
  · by_cases hx : x = name
    · subst hx
      rw [hat] at hf
      obtain rfl := Binding.function.inj (Option.some.inj hf)
      exact hname
    · exact hs.named x f (helse x hx ▸ hf)
  · obtain ⟨f, hf, htypes⟩ := hs.recorded e he
    by_cases hx : e.1 = name
    · exact ⟨g, hx ▸ hat, hold f (hx ▸ hf) htypes⟩
    · exact ⟨f, helse e.1 hx ▸ hf, htypes⟩
  · exact List.forall_mem_singleton.mpr ⟨g, hat, hnew⟩

/-- A declaration joins the overload of the same parameter types, or is the first of them. -/
theorem Records.addOverload (hs : s.Records L) (hall : s.All (Binding.FirstDeclared T))
    (hT : L ++ [(name, o)] <+: T) (ho : ∀ t ∈ o.paramTypes, t.isSome = true)
    (h : s.addOverload name false o = .ok s') :
    s'.Records (L ++ [(name, o)]) ∧ s'.All (Binding.FirstDeclared T) := by
  unfold Scope.addOverload at h
  split at h
  · rename_i hnone
    obtain rfl := Except.ok.inj h
    -- A name that is not in scope was not declared before.
    have hfirst : firstParams? T name o.paramTypes = some o.params := by
      refine firstParams?_eq_some (fun q hq => ?_) hT
      obtain ⟨f, hf, -⟩ := hs.recorded (name, q) hq
      rw [hnone] at hf
      cases hf
    refine ⟨hs.enter (g := ⟨name, false, [o]⟩) rfl ?_ (fun x hx => ?_) ?_ ?_, hall.insert (.inr ?_)⟩
    · rw [lookup?_insert, if_pos rfl]
    · rw [lookup?_insert, if_neg hx]
    · simp [hnone]
    · simp
    · exact List.forall_mem_singleton.mpr hfirst
  · rename_i f hf
    cases hadd : f.addOverload o with
    | error e =>
      rw [hadd] at h
      cases h
    | ok g =>
      rw [hadd] at h
      obtain rfl := Except.ok.inj h
      obtain rfl := hs.named name f hf
      obtain ⟨hname, -, hcase⟩ := f.addOverload_eq_ok hadd
      refine ⟨hs.enter hname ?_ (fun x hx => ?_) (fun f' hf' => ?_) ?_, hall.replace ?_⟩
      · rw [lookup?_replace, if_pos rfl, hf, Option.map_some]
      · rw [lookup?_replace, if_neg hx]
      · rw [hf] at hf'
        obtain rfl := Binding.function.inj (Option.some.inj hf')
        exact Function.paramTypes_addOverload ho hadd |>.1
      · exact Function.paramTypes_addOverload ho hadd |>.2
      -- If no overload accepts these types, then no declaration before this one had them.
      · refine Function.FirstDeclared.addOverload (hall.lookup hf) hadd fun hnone => ?_
        refine firstParams?_eq_some (fun q hq htypes => ?_) hT
        obtain ⟨f', hf', htypes'⟩ := hs.recorded _ hq
        rw [hf] at hf'
        obtain rfl := Binding.function.inj (Option.some.inj hf')
        obtain ⟨p, hp, hptypes⟩ := List.mem_map.mp htypes'
        have haccepts := (Function.accepts_iff ho).mpr (hptypes.trans htypes)
        exact List.find?_eq_none.mp hnone p hp haccepts
  · cases h

end Scope

namespace ScopeStack

variable {s s' : ScopeStack}

theorem global_push (s : ScopeStack) : s.push.global = s.global := by
  simp [global, push, List.getLast?_cons]

theorem global_pop (s : ScopeStack) : s.pop.global = s.global := by
  unfold pop
  split
  · rfl
  · rename_i scope rest hs
    simp [global, hs, List.getLast?_cons]

/-- The functions of the list are in the global scope, and what is visible is first declared. -/
structure Records (T L : List (String × Overload)) (k : Nat) (s : ScopeStack) : Prop where
  depth : s.outer.length = k
  visible : s.All (Binding.FirstDeclared T)
  global : s.global.Records L

theorem Records.define {k : Nat} (hs : s.Records T L k) {b : Binding}
    (hb : b.FirstDeclared T) (hf : ∀ f, b ≠ .function f) (h : s.define name b = .ok s') :
    s'.Records T L k := by
  have hvisible := hs.visible.define hb h
  unfold ScopeStack.define at h
  split at h
  · cases h
  · rename_i hnone
    obtain rfl := Except.ok.inj h
    refine ⟨hs.depth, hvisible, ?_⟩
    have hglobal := hs.global
    cases houter : s.outer with
    | nil =>
      simp only [ScopeStack.global, houter, List.getLast?_nil, Option.getD_none] at hglobal ⊢
      exact hglobal.insert hf hnone
    | cons scope rest =>
      simpa only [ScopeStack.global, houter, List.getLast?_cons, Option.getD_some] using hglobal

theorem Records.addOverload (hs : s.Records T L 0) (hT : L ++ [(name, o)] <+: T)
    (ho : ∀ t ∈ o.paramTypes, t.isSome = true) (h : s.addOverload name o = .ok s') :
    s'.Records T (L ++ [(name, o)]) 0 := by
  have houter := List.length_eq_zero_iff.mp hs.depth
  have hglobal := hs.global
  simp only [ScopeStack.global, houter, List.getLast?_nil, Option.getD_none] at hglobal
  unfold ScopeStack.addOverload at h
  split at h
  · cases h
  · cases hadd : s.inner.addOverload name false o with
    | error e =>
      rw [hadd] at h
      cases h
    | ok inner =>
      rw [hadd] at h
      obtain rfl := Except.ok.inj h
      obtain ⟨hrecords, hall⟩ := hglobal.addOverload hs.visible.inner hT ho hadd
      refine ⟨hs.depth, ⟨hs.visible.builtins, hall, hs.visible.outer⟩, ?_⟩
      simpa only [ScopeStack.global, houter, List.getLast?_nil, Option.getD_none] using hrecords

end ScopeStack

namespace Bind

theorem invariant_records (T L : List (String × Overload)) :
    Invariant (ScopeStack.Records T L) (Binding.FirstDeclared T) fun _ => True where
  lookup hs hb := hs.visible.lookup hb
  push hs := ⟨by simp [ScopeStack.push, hs.depth], hs.visible.push, by
    rw [ScopeStack.global_push]
    exact hs.global⟩
  pop := by
    intro k s hs
    refine ⟨?_, hs.visible.pop, by rw [ScopeStack.global_pop]; exact hs.global⟩
    have hdepth := hs.depth
    cases houter : s.outer with
    | nil => simp [houter] at hdepth
    | cons scope rest => simpa [ScopeStack.pop, houter] using hdepth
  define hs hb hf h := hs.define hb hf h
  declared := by
    intro e b _ _ hdeclares
    cases b with
    | «variable» v => trivial
    | struct t => trivial
    | function f => cases e <;> simp [Entry.Declares] at hdeclares

theorem records_start (T : List (String × Overload)) : start.scopes.Records T [] 0 where
  depth := rfl
  visible := by
    refine ⟨fun b hb => ?_, Scope.All.empty, by simp [start, ScopeStack.new]⟩
    obtain rfl := Option.some.inj hb
    intro e he
    have hsound := Prelude.sound_scope e he
    cases hcase : e.2 with
    | «variable» v => trivial
    | struct t => trivial
    | function f =>
      rw [hcase] at hsound
      exact .inl hsound.2.1
  global := Scope.records_nil

end Bind

theorem FunctionDecl.Signed.isSome_paramTypes {B : Binding → Prop} {f : FunctionDecl}
    (h : f.Signed B) : ∀ t ∈ f.overload.paramTypes, t.isSome = true := by
  intro t ht
  obtain ⟨q, hq, rfl⟩ := List.mem_map.mp ht
  obtain ⟨p, hp, rfl⟩ := List.mem_map.mp hq
  obtain ⟨hspec, hvalid⟩ := h.params p hp
  obtain ⟨t, -, hty⟩ := hspec.ty
  refine Bind.isSome_apply ?_ hvalid
  rw [hty]
  exact Bind.isSome_apply rfl hspec.valid

/-- Each function that a name stands for has the parameters of its first declarations. -/
theorem bind_firstDeclared {unit : TranslationUnit}
    (hplain : Site.AllPlain (TranslationUnit.sites unit))
    (hbare : Part.All Part.Bare (TranslationUnit.parts unit))
    (hclean : (bind unit).problems = []) :
    Resolution (Binding.FirstDeclared (TranslationUnit.signatures (bind unit).unit))
      (TranslationUnit.parts (bind unit).unit) (TranslationUnit.entries (bind unit).unit) :=
  bind_resolved_of hplain hbare hclean (fun _ _ => trivial) (Bind.invariant_records _)
    (Bind.records_start _) fun _ _ _ _ _ hT hsigned ht h =>
      ht.addOverload hT hsigned.isSome_paramTypes h

end Shader
