import Shader.Proofs.Check

/-! Folding in the trees that the front end builds, bound only or checked as well. Folding meets no
fault at any expression, what it gives has the shape of its type, and where the checker records a
type the two agree. -/

namespace Shader

namespace TranslationUnit

variable {tree : TranslationUnit} {e : Expr} {v : Variable}

theorem mem_nodes : e ∈ nodes tree ↔ .node e ∈ parts tree := by
  simp only [nodes, List.mem_filterMap]
  constructor
  · rintro ⟨p, hp, he⟩
    cases p <;> cases he
    exact hp
  · exact fun h => ⟨_, h, rfl⟩

theorem fold_meets (h : Part.All Part.Sound (parts tree)) (he : e ∈ nodes tree) :
    e.fold.Meets True Constant.Sound :=
  e.fold_sound ((closed_parts tree).all_parts h (mem_nodes.mp he))

end TranslationUnit

section Parsed

variable {source : String} {unit : TranslationUnit}

/-- The tree of a parsed source stays sound through binding and checking. -/
theorem parts_sound_of_parse (h : parse source = .ok unit) (stage : Stage) :
    ∀ tree ∈ [(bind unit).unit, (check stage (bind unit).unit).value],
      Part.All Part.Sound (TranslationUnit.parts tree) := by
  have hbound := (bind_bound (parse_bare h)).2
  simp only [List.forall_mem_cons, List.not_mem_nil, false_imp_iff, implies_true, and_true]
  exact ⟨hbound.mono fun _ => Part.Bound.sound,
    (check_checked stage hbound).mono fun _ => Part.Checked.sound⟩

theorem exists_ok_of_any {ε α : Type} {x : Except ε α} {p : α → Bool}
    (h : x.toOption.any p = true) : ∃ a, x = .ok a ∧ p a = true := by
  cases x with
  | error e => simp [Except.toOption] at h
  | ok a => exact ⟨a, rfl, by simpa [Except.toOption] using h⟩

theorem exists_unit_of_any {p : TranslationUnit → Bool}
    (h : (parse source).toOption.any p = true) :
    ∃ unit, parse source = .ok unit ∧ p unit = true :=
  exists_ok_of_any h

/-- A constant of a struct type, read down to one component. -/
def structSource : String :=
  "struct S { ivec2 b; }; const int n = S(ivec2(3, 4)).b.y;"

/-- A type that the checker records for an expression is the type of its constant. -/
theorem constant_ty_of_check (h : parse source = .ok unit) (stage : Stage) {e : Expr}
    (he : e ∈ TranslationUnit.nodes (check stage (bind unit).unit).value) {t : Ty} {c : Constant}
    (ht : e.ty = some t) (hc : e.constant? = some c) : c.ty = t := by
  have hchecked := check_checked stage (bind_bound (parse_bare h)).2
  have hagrees := (hchecked (.node e) (TranslationUnit.mem_nodes.mp he)).2
  exact hagrees t c ht (Outcome.value?_eq_some_iff.mp hc)

theorem constant_ty_structSource :
    ∃ unit, parse structSource = .ok unit ∧
      ∃ e ∈ TranslationUnit.nodes (check .vertex (bind unit).unit).value,
        ∃ c, e.ty = some (.scalar .int) ∧ e.constant? = some c ∧ c.ty = .scalar .int := by
  have hany : ((parse structSource).toOption.any fun unit =>
      (TranslationUnit.nodes (check .vertex (bind unit).unit).value).any fun e =>
        e.ty = some (.scalar .int) && e.constant?.isSome) = true := by decide +kernel
  obtain ⟨unit, hparse, hnodes⟩ := exists_unit_of_any hany
  obtain ⟨e, he, hec⟩ := List.any_eq_true.mp hnodes
  obtain ⟨ht, hc⟩ := Bool.and_eq_true_iff.mp hec
  obtain ⟨c, hc⟩ := Option.isSome_iff_exists.mp hc
  have ht := of_decide_eq_true ht
  exact ⟨unit, hparse, e, he, c, ht, hc, constant_ty_of_check hparse .vertex he ht hc⟩

end Parsed

end Shader
