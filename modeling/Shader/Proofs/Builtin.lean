import Shader.Proofs.Overloads

/-! Builtin functions by name. Each stands in the builtin scope with the overloads of all its
prototypes, and a call on constants is a call of the library with the type of the overload. -/

namespace Shader

/-- The function that is builtin under the name. -/
structure Function.IsBuiltin (g : Function) (name : String) : Prop where
  lookup : Prelude.scope.lookup? name = some (.function g)
  name_eq : g.name = name
  builtin : g.builtin = true
  genuine : g.Genuine

namespace Function.IsBuiltin

variable {g : Function} {name : String}

theorem finds (h : g.IsBuiltin name) {p : Prototype} (hp : p ∈ Prelude.prototypes)
    (hname : p.name = name) {o : Overload} (ho : o ∈ p.overloads) : g.Finds o.paramTypes := by
  obtain ⟨f, hf, hfinds⟩ := Prelude.finds_scope hp ho
  rw [hname] at hf
  obtain rfl : g = f := Binding.function.inj (Option.some.inj (h.lookup.symm.trans hf))
  exact hfinds

end Function.IsBuiltin

theorem Prelude.exists_isBuiltin {p : Prototype} (hp : p ∈ prototypes) {o : Overload}
    (ho : o ∈ p.overloads) : ∃ g : Function, g.IsBuiltin p.name := by
  obtain ⟨g, hg, -⟩ := finds_scope hp ho
  obtain ⟨hname, hbuiltin, hgenuine⟩ := sound_scope.lookup hg
  exact ⟨g, hg, hname, hbuiltin, hgenuine⟩

theorem Overload.IsOf.hasOutput_eq_false {o : Overload} {name : String} (ho : o.IsOf name)
    (hname : name ≠ "modf") : o.hasOutput = false := by
  have hall : Prelude.prototypes.all (fun p => p.name = "modf" ||
      !p.params.any fun q => q.2.isOutput) = true := by
    decide +kernel
  obtain ⟨p, hp, rfl, i, -, hparams, -⟩ := ho
  have hreads := List.all_eq_true.mp hall p hp
  simpa [hname, Overload.hasOutput, hparams, Prototype.overload, Function.comp_def] using hreads

/-- A call on constants that an overload accepts has the value that the library gives. -/
theorem Fold.builtinCall_eq {g : Function} (hbuiltin : g.builtin = true) (hgenuine : g.Genuine)
    (hname : g.name ≠ "modf") (args : List Constant)
    (hfinds : g.Finds (args.map fun a => some a.ty)) (hargs : ∀ a ∈ args, a.WellShaped) :
    ∃ b, (builtinCall g args = Library.call g.name (args.map Constant.value) >>= fun w =>
        .value ⟨.basic b, w⟩) ∧
      (Library.call g.name (args.map Constant.value)).Meets
        (Library.ComparesNaN g.name (args.map Constant.value)) fun w => w.Fits (.basic b) := by
  obtain ⟨o, ho, -⟩ := hfinds
  obtain ⟨hmem, haccepts⟩ := Function.overload?_eq_some ho
  have hof : o.IsOf g.name := hgenuine hbuiltin o hmem
  have hreads : o.hasOutput = false := hof.hasOutput_eq_false hname
  obtain ⟨b, hb, hmeets⟩ := library_meets hof haccepts hreads hargs
  refine ⟨b, ?_, hmeets⟩
  simp [builtinCall, hbuiltin, ho, hreads, hb]

end Shader
