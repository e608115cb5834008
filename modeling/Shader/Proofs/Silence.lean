import Shader.Analysis
import Shader.Proofs.Check.Covers
import Shader.Proofs.Check.Typed
import Shader.Proofs.Refold

/-! No silent failure. A type that cannot be found is left out, and whoever depends on it says
nothing more; but whoever left it out said so. An analysis without a problem has left out none. -/

namespace Shader

theorem Expr.known_untyped {e : Expr} : e.untyped.Known ↔ e.Known := by
  cases e <;> rfl

theorem Expr.Kept.known {e d : Expr} (h : e.Kept d) (he : e.Known) : d.Known := by
  rw [← Expr.known_untyped, h.untyped]
  exact Expr.known_untyped.mpr he

theorem known_of_kept {es ds : List Expr} (h : List.Forall₂ Expr.Kept es ds)
    (hes : ∀ e ∈ es, e.Known) : ∀ d ∈ ds, d.Known := by
  induction h with
  | nil => simp
  | cons hed _ ih =>
    obtain ⟨he, hes⟩ := List.forall_mem_cons.mp hes
    exact List.forall_mem_cons.mpr ⟨hed.known he, ih hes⟩

namespace Check

variable {stage : Stage} {storage : Option Storage} {d : Declarator} {e : Expr}

theorem init_of_ok (hok : (declarator stage storage d).problems = []) (he : d.init = some e) :
    (expr stage e).problems = [] := by
  unfold declarator at hok
  simp only [he, Checked.problems_bind, List.append_eq_nil_iff] at hok
  exact (List.append_eq_nil_iff.mp hok.2.1).1

end Check

namespace Site

/-- What is declared here is bound to a variable of a known type. A parameter is bound where its
function has a body. -/
def Declared : Site → Prop
  | .root _ => True
  | .variable _ d | .blockInstance d => ∃ v, d.binding = some v ∧ v.ty.isSome = true
  | .parameter p => ∀ v, p.binding = some v → v.ty.isSome = true

theorem Known.declared {s : Site} (h : s.Known) (f : Expr → Expr) : (s.mapExprs f).Declared := by
  cases s with
  | root e => trivial
  | «variable» q d =>
    obtain ⟨-, v, hv, hty, -⟩ := h
    exact ⟨v, hv, hty⟩
  | blockInstance d => exact h.2
  | parameter p => exact h

theorem known_of_mem_nodes {r : Expr} (h : Part.All Part.Known r.parts) :
    ∀ e ∈ r.nodes, e.Known := by
  intro e he
  obtain ⟨p, hp, hpe⟩ := List.mem_filterMap.mp he
  have hp := h p hp
  cases p with
  | node d => exact Option.some.inj hpe ▸ hp
  | binding v => cases hpe
  | tag x => cases hpe

theorem Known.nodes {s : Site} (h : s.Known) : ∀ e ∈ s.nodes, e.Known := by
  cases s with
  | root r => exact known_of_mem_nodes h
  | «variable» q d =>
    intro e he
    obtain ⟨r, hr, he⟩ := List.mem_flatMap.mp he
    exact known_of_mem_nodes (h.1 r (Option.mem_toList.mp hr)) e he
  | blockInstance d => simp [Site.nodes, h.1]
  | parameter p => simp [Site.nodes]

/-- Where everything is known and nothing is reported, everything gets a type. -/
theorem Known.typed {s : Site} {stage : Stage} (h : s.Known) (hok : s.problems stage = []) :
    ∀ e ∈ (s.mapExprs (Expr.checked stage)).visited, e.ty.isSome = true := by
  cases s with
  | root e => exact Check.typed_expr stage h hok
  | «variable» q d =>
    intro x hx
    obtain ⟨r, hr, hx⟩ := List.mem_flatMap.mp hx
    obtain ⟨e, he, rfl⟩ := Option.map_eq_some_iff.mp (Option.mem_toList.mp hr)
    exact Check.typed_expr stage (h.1 e he) (Check.init_of_ok hok he) x hx
  | blockInstance d => simp [mapExprs, Site.visited, Declarator.mapSize, h.1]
  | parameter p => simp [mapExprs, Site.visited]

end Site

theorem known_nodes_check {tree : TranslationUnit} (stage : Stage)
    (hbound : Part.All Part.Bound (TranslationUnit.parts tree))
    (h : Site.AllKnown (TranslationUnit.sites tree)) :
    ∀ e ∈ TranslationUnit.nodes (check stage tree).value, e.Known := by
  have hnodes : ∀ e ∈ TranslationUnit.nodes tree, e.Known := by
    rw [TranslationUnit.nodes_eq_sites]
    intro e he
    obtain ⟨s, hs, he⟩ := List.mem_flatMap.mp he
    exact (h s hs).nodes e he
  exact known_of_kept (TranslationUnit.kept_nodes stage hbound) hnodes

theorem sortProblems_eq_nil {ps : List Diagnostic} (h : sortProblems ps = []) : ps = [] := by
  have hlength : (sortProblems ps).length = ps.length := List.length_mergeSort ps
  rw [h] at hlength
  exact List.length_eq_zero_iff.mp hlength.symm

/-- Neither binding nor checking has found a problem. -/
structure CleanRun (source : String) (stage : Stage) (unit : TranslationUnit) : Prop where
  parsed : parse source = .ok unit
  bound : (bind unit).problems = []
  checked : (check stage (bind unit).unit).problems = []

theorem exists_cleanRun {source : String} {stage : Stage} {a : Analysis}
    (h : analyze source stage = .ok a) (hclean : a.isClean = true) :
    ∃ unit, CleanRun source stage unit ∧ a.unit = (check stage (bind unit).unit).value := by
  obtain ⟨unit, hparse, rfl⟩ := analyze_eq_ok h
  have hnil := sortProblems_eq_nil (List.isEmpty_iff.mp hclean)
  obtain ⟨hbound, hchecked⟩ := List.append_eq_nil_iff.mp hnil
  exact ⟨unit, ⟨hparse, hbound, hchecked⟩, rfl⟩

namespace CleanRun

variable {source : String} {stage : Stage} {unit : TranslationUnit}

theorem parts_bound (h : CleanRun source stage unit) :
    Part.All Part.Bound (TranslationUnit.parts (bind unit).unit) :=
  (bind_bound (parse_bare h.parsed)).2

theorem allKnown (h : CleanRun source stage unit) :
    Site.AllKnown (TranslationUnit.sites (bind unit).unit) :=
  bind_known (parse_allPlain h.parsed) (parse_bare h.parsed) h.bound

theorem problems_eq_nil (h : CleanRun source stage unit) {s : Site}
    (hs : s ∈ TranslationUnit.sites (bind unit).unit) : s.problems stage = [] :=
  List.subset_nil.mp (h.checked ▸ problems_subset_check stage hs)

theorem init_bound (h : CleanRun source stage unit) {q : Qualifiers} {d : Declarator}
    (hd : .variable q d ∈ TranslationUnit.sites (bind unit).unit) {e : Expr}
    (he : d.init = some e) : Part.All Part.Bound e.parts := by
  refine TranslationUnit.bound_of_mem_nodes h.parts_bound ?_
  rw [TranslationUnit.nodes_eq_sites]
  refine List.mem_flatMap.mpr ⟨_, hd, List.mem_flatMap.mpr ⟨e, Option.mem_toList.mpr he, ?_⟩⟩
  exact e.self_mem_nodes

theorem exists_site {s : Site}
    (hs : s ∈ TranslationUnit.sites (check stage (bind unit).unit).value) :
    ∃ r ∈ TranslationUnit.sites (bind unit).unit, r.mapExprs (Expr.checked stage) = s := by
  rw [check_value, TranslationUnit.sites_mapExprs] at hs
  exact List.mem_map.mp hs

end CleanRun

/-- An analysis without a problem leaves nothing open: every expression that is checked has a type,
every name stands for something known, and every declaration is bound. -/
theorem all_known_of_isClean {source : String} {stage : Stage} {a : Analysis}
    (h : analyze source stage = .ok a) (hclean : a.isClean = true) :
    (∀ e ∈ TranslationUnit.visited a.unit, e.ty.isSome = true) ∧
    (∀ e ∈ TranslationUnit.nodes a.unit, e.Known) ∧
    ∀ s ∈ TranslationUnit.sites a.unit, s.Declared := by
  obtain ⟨unit, hrun, hunit⟩ := exists_cleanRun h hclean
  rw [hunit]
  refine ⟨fun e he => ?_, known_nodes_check stage hrun.parts_bound hrun.allKnown, fun s hs => ?_⟩
  · obtain ⟨s, hs, he⟩ := List.mem_flatMap.mp he
    obtain ⟨r, hr, rfl⟩ := CleanRun.exists_site hs
    exact (hrun.allKnown r hr).typed (hrun.problems_eq_nil hr) e he
  · obtain ⟨r, hr, rfl⟩ := CleanRun.exists_site hs
    exact (hrun.allKnown r hr).declared _

/-- A struct, an array of block instances and an array constructor with a size. -/
def declaringSource : String :=
  "struct S { vec2 p; }; uniform S s; uniform B { mat2 m; } b[2];
  vec2 v[1] = vec2[1](b[1].m[0] + s.p);"

theorem all_known_declaringSource :
    ∃ a, analyze declaringSource .vertex = .ok a ∧ a.isClean = true ∧
      (TranslationUnit.visited a.unit).length = 12 ∧
      (∀ e ∈ TranslationUnit.visited a.unit, e.ty.isSome = true) ∧
      (∀ e ∈ TranslationUnit.nodes a.unit, e.Known) ∧
      ∀ s ∈ TranslationUnit.sites a.unit, s.Declared := by
  have hany : ((analyze declaringSource .vertex).toOption.any fun a =>
      a.isClean && (TranslationUnit.visited a.unit).length == 12) = true := by decide +kernel
  obtain ⟨a, ha, hclean⟩ := exists_ok_of_any hany
  obtain ⟨hclean, hlength⟩ := Bool.and_eq_true_iff.mp hclean
  exact ⟨a, ha, hclean, beq_iff_eq.mp hlength, all_known_of_isClean ha hclean⟩

end Shader
