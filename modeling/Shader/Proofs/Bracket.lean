import Shader.Proofs.Bind.Resolved
import Shader.Proofs.Check.Accepts

/-! Brackets and the types that they make. The types of declarations are well formed wherever the
brackets are looked at: some combinations of them are not, and those are told apart here. -/

namespace Shader

namespace Ty

/-- No array of arrays, none of void, and none of an open size or of size zero. -/
def isWellFormed : Ty → Bool
  | .array e n => !e.isArray && !e.isVoid && n.any (1 ≤ ·)
  | _ => true

def isDeclarable (t : Ty) : Bool :=
  t.isWellFormed && !t.isVoid

end Ty

def TypeSpec.isVoid : TypeSpec → Bool
  | .basic .void _ => true
  | _ => false

def TypeSpec.isVoidArray (spec : TypeSpec) : Bool :=
  spec.isVoid && spec.note.array.isSome

/-- A member of an array of void, or with brackets both at the type and at the name. -/
def Member.unguarded (m : Member TypeSpec) : Bool :=
  m.names.any fun x => m.spec.isVoidArray || m.spec.note.array.isSome && x.array.isSome

/-- The brackets at this place are not looked at: those of members and parameters on both sides, and
those of a result. -/
def Entry.unguarded : Entry → Bool
  | .members ms => ms.any Member.unguarded
  | .block b => b.members.any Member.unguarded
  | .variable _ _ _ => false
  | .parameter p => p.spec.note.array.isSome && p.array.isSome
  | .function f => f.spec.isVoidArray || f.spec.note.array.any fun a => a.size.isNone

def CalleeName.isVoid : CalleeName → Bool
  | .basic .void => true
  | _ => false

/-- A constructor of an array of void, or of one that takes its size from no arguments. -/
def Expr.unguarded : Expr → Bool
  | .call callee suffix args _ _ =>
    suffix.any fun a => callee.name.isVoid || a.size.isNone && args.isEmpty
  | _ => false

def Member.isWellTyped (m : Member TypeSpec) : Bool :=
  m.names.all fun x => (x.ty m.spec.ty).any Ty.isDeclarable

/-- What is declared here has a well-formed type, and only a result can be void. -/
def Entry.isWellTyped : Entry → Bool
  | .members ms => ms.all Member.isWellTyped
  | .block b => b.members.all Member.isWellTyped &&
      b.instance?.all fun d => (d.binding.bind Variable.ty).any Ty.isDeclarable
  | .variable _ _ d => (d.binding.bind Variable.ty).any Ty.isDeclarable
  | .parameter p => p.ty.any Ty.isDeclarable &&
      p.binding.all fun v => v.ty.any Ty.isDeclarable
  | .function f => f.spec.ty.any Ty.isWellFormed

def Target.isWellFormed : Target → Bool
  | .constructor t => t.isWellFormed
  | _ => true

/-- The type of the expression is well formed, and so is that of the name in it. -/
def Expr.isWellTyped (e : Expr) : Bool :=
  e.ty.all Ty.isWellFormed &&
    match e with
    | .var _ binding _ => (binding.bind Variable.ty).any Ty.isDeclarable
    | .call _ _ _ target _ => target.isWellFormed
    | _ => true

/-- A type and what it becomes with brackets on it, which may be left open. -/
inductive Bracketed (t : Ty) : Option (ArraySuffix Expr) → Option Ty → Prop where
  | bare : Bracketed t none (some t)
  | open (span : Span) : Bracketed t (some ⟨none, span⟩) (some (.array t none))
  | sized (e : Expr) (span : Span) {n : Nat} (hn : 1 ≤ n) :
    Bracketed t (some ⟨some e, span⟩) (some (.array t (some n)))

section Brackets

variable {B : Binding → Prop} {s : Option (ArraySuffix Expr)} {t : Ty} {ty : Option Ty}

theorem bracketed_apply (h : suffixExtent s ≠ .invalid) (t : Ty) :
    Bracketed t s ((suffixExtent s).apply (some t)) := by
  rcases s with _ | ⟨_ | e, span⟩
  · exact .bare
  · exact .open span
  · simp only [suffixExtent] at h ⊢
    split
    · exact .sized e span (by omega)
    · simp at h

theorem TypeSpec.Resolved.bracketed {spec : TypeSpec} (h : spec.Resolved B) :
    ∃ t, spec.HasBase B t ∧ Bracketed t spec.note.array spec.ty := by
  obtain ⟨t, ht, hty⟩ := h.ty
  exact ⟨t, ht, hty ▸ bracketed_apply h.valid t⟩

theorem Bracketed.exists_some (h : Bracketed t s ty) : ∃ u, ty = some u := by
  cases h <;> exact ⟨_, rfl⟩

theorem Bracketed.any_isArray (h : Bracketed t s ty) (hs : s.isSome = true) :
    ty.any Ty.isArray = true := by
  cases h with
  | bare => cases hs
  | «open» span | sized e span hn => rfl

theorem TypeSpec.HasBase.isVoid {spec : TypeSpec} (h : spec.HasBase B t)
    (hvoid : spec.isVoid = true) : t.isVoid = true := by
  unfold TypeSpec.isVoid at hvoid
  split at hvoid
  · obtain rfl := h
    rfl
  · cases hvoid

/-- The type in front of the brackets of a constructor. -/
def CalleeName.HasBase (B : Binding → Prop) : CalleeName → Ty → Prop
  | .basic b, t => t = .basic b
  | .named _, t => B (.struct t)

theorem CalleeName.HasBase.isVoid {name : CalleeName} (h : name.HasBase B t)
    (hvoid : name.isVoid = true) : t.isVoid = true := by
  unfold CalleeName.isVoid at hvoid
  split at hvoid
  · obtain rfl := h
    rfl
  · cases hvoid

/-- Open brackets take their size from the arguments, as far as it can be counted. -/
theorem Bracketed.constructorTarget {suffix : ArraySuffix Expr} (h : Bracketed t (some suffix) ty)
    (args : List Expr) :
    ∃ n, Bind.constructorTarget ty args = .constructor (.array t (some n)) ∧
      ((suffix.size.isNone && args.isEmpty) = true → n = 0) ∧
      ((suffix.size.isNone && args.isEmpty) = false → args.length = n → 1 ≤ n) := by
  cases h with
  | «open» span =>
    refine ⟨args.length % twoPow 32, rfl, fun hempty => ?_, fun hsome hcount => ?_⟩
    · obtain rfl : args = [] := by simpa using hempty
      rfl
    · have hne : args ≠ [] := by simpa using hsome
      exact hcount ▸ List.length_pos_iff.mpr hne
  | sized e span hn => exact ⟨_, rfl, fun hopen => by simp at hopen, fun _ _ => hn⟩

theorem Calls.exists_size {args : List Expr} {name : CalleeName} {suffix : ArraySuffix Expr}
    {target : Target} (h : Calls B args name (some suffix) target) :
    ∃ t n, name.HasBase B t ∧ target = .constructor (.array t (some n)) ∧
      ((suffix.size.isNone && args.isEmpty) = true → n = 0) ∧
      ((suffix.size.isNone && args.isEmpty) = false → args.length = n → 1 ≤ n) := by
  cases h with
  | array x ht hs =>
    obtain ⟨n, htarget, hn⟩ := (bracketed_apply hs _).constructorTarget args
    exact ⟨_, n, ht, htarget, hn⟩
  | basic b hs =>
    obtain ⟨n, htarget, hn⟩ := (bracketed_apply hs _).constructorTarget args
    exact ⟨_, n, rfl, htarget, hn⟩

end Brackets

section Unguarded

variable {B : Binding → Prop} {s s' : Option (ArraySuffix Expr)} {t u : Ty} {ty : Option Ty}

theorem Bracketed.not_isWellFormed (h : Bracketed t s ty) (hs : s.isSome = true)
    (ht : t.isVoid = true) : ty.any Ty.isWellFormed = false := by
  cases h with
  | bare => cases hs
  | «open» span | sized e span hn => simp [Ty.isWellFormed, ht]

theorem Bracketed.open_not_isWellFormed {suffix : ArraySuffix Expr}
    (h : Bracketed t (some suffix) ty) (hsize : suffix.size = none) :
    ty.any Ty.isWellFormed = false := by
  cases h with
  | «open» span => simp [Ty.isWellFormed]
  | sized e span hn => cases hsize

theorem Bracketed.not_isDeclarable (h : Bracketed t s (some u)) (h' : Bracketed u s' ty)
    (hs : s.isSome = true) (hbad : t.isVoid = true ∨ s'.isSome = true) :
    ty.any Ty.isDeclarable = false := by
  have harray : u.isArray = true := h.any_isArray hs
  cases h' with
  | bare =>
    have hvoid := hbad.resolve_right (by simp)
    have hu := h.not_isWellFormed hs hvoid
    simp only [Option.any_some] at hu
    simp [Ty.isDeclarable, hu]
  | «open» span | sized e span hn => simp [Ty.isDeclarable, Ty.isWellFormed, harray]

theorem TypeSpec.Resolved.not_isDeclarable {spec : TypeSpec} (h : spec.Resolved B)
    (hvalid : suffixExtent s ≠ .invalid)
    (hbad : (spec.isVoidArray || spec.note.array.isSome && s.isSome) = true) :
    ((suffixExtent s).apply spec.ty).any Ty.isDeclarable = false := by
  obtain ⟨t, ht, hspec⟩ := h.bracketed
  obtain ⟨u, hu⟩ := hspec.exists_some
  rw [hu] at hspec ⊢
  rcases Bool.or_eq_true_iff.mp hbad with hvoid | hboth
  · obtain ⟨hvoid, hs⟩ := Bool.and_eq_true_iff.mp hvoid
    exact hspec.not_isDeclarable (bracketed_apply hvalid u) hs (.inl (ht.isVoid hvoid))
  · obtain ⟨hs, hs'⟩ := Bool.and_eq_true_iff.mp hboth
    exact hspec.not_isDeclarable (bracketed_apply hvalid u) hs (.inr hs')

theorem Member.not_isWellTyped {m : Member TypeSpec} (h : m.Resolved B)
    (hbad : m.unguarded = true) : m.isWellTyped = false := by
  obtain ⟨x, hx, hbad⟩ := List.any_eq_true.mp hbad
  have hname : (x.ty m.spec.ty).any Ty.isDeclarable = false :=
    h.spec.not_isDeclarable (h.names x hx).1 hbad
  exact List.all_eq_false.mpr ⟨x, hx, by simpa using hname⟩

theorem not_isWellTyped_members {ms : List (Member TypeSpec)} (h : ∀ m ∈ ms, m.Resolved B)
    (hbad : ms.any Member.unguarded = true) : ms.all Member.isWellTyped = false := by
  obtain ⟨m, hm, hbad⟩ := List.any_eq_true.mp hbad
  exact List.all_eq_false.mpr ⟨m, hm, by simp [Member.not_isWellTyped (h m hm) hbad]⟩

theorem Entry.not_isWellTyped {e : Entry} (h : e.Resolved B) (hbad : e.unguarded = true) :
    e.isWellTyped = false := by
  cases e with
  | members ms => exact not_isWellTyped_members h hbad
  | «variable» q spec d => cases hbad
  | block b => simp [Entry.isWellTyped, not_isWellTyped_members h.1 hbad]
  | parameter p =>
    have hbad : (p.spec.isVoidArray || p.spec.note.array.isSome && p.array.isSome) = true := by
      rw [show (p.spec.note.array.isSome && p.array.isSome) = true from hbad, Bool.or_true]
    have hty : p.ty.any Ty.isDeclarable = false := h.1.not_isDeclarable h.2.1 hbad
    simp [Entry.isWellTyped, hty]
  | function f =>
    obtain ⟨t, ht, hspec⟩ := TypeSpec.Resolved.bracketed h
    rcases Bool.or_eq_true_iff.mp hbad with hvoid | hopen
    · obtain ⟨hvoid, hs⟩ := Bool.and_eq_true_iff.mp hvoid
      exact hspec.not_isWellFormed hs (ht.isVoid hvoid)
    · obtain ⟨suffix, hs, hsize⟩ := (Option.any_eq_true _ _).mp hopen
      rw [hs] at hspec
      exact hspec.open_not_isWellFormed (Option.isNone_iff_eq_none.mp hsize)

theorem Expr.not_isWellTyped {e : Expr} (h : e.Resolved B) (hbad : e.unguarded = true) :
    e.isWellTyped = false := by
  unfold Expr.unguarded at hbad
  split at hbad
  · rename_i callee suffix args target n
    obtain ⟨suffix, rfl, hbad⟩ := (Option.any_eq_true _ _).mp hbad
    obtain ⟨t, m, hbase, rfl, hm, -⟩ := Calls.exists_size h
    have htarget : (Ty.array t (some m)).isWellFormed = false := by
      rcases Bool.or_eq_true_iff.mp hbad with hvoid | hempty
      · simp [Ty.isWellFormed, hbase.isVoid hvoid]
      · simp [Ty.isWellFormed, hm hempty]
    simp [Expr.isWellTyped, Target.isWellFormed, htarget]
  · cases hbad

end Unguarded

end Shader
