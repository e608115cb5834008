/-! Where a computation reports its problems. Binding and checking are two monads in which problems
are reported at offsets of the text, and what is said of one step is carried to a whole run in the
same way in both. -/

namespace Shader

/-- A monad in which problems are reported. `Reports P x Q` says that what `x` reports starts at
offsets with the property `P`, and that what it returns has the property `Q`. -/
class Reporter (m : Type → Type) [Monad m] where
  Reports {α : Type} (P : Nat → Prop) (x : m α) (Q : α → Prop) : Prop
  reports_pure {α : Type} {P : Nat → Prop} {Q : α → Prop} {a : α} (h : Q a) :
    Reports P (pure a) Q
  reports_bind {α β : Type} {P : Nat → Prop} {Q : α → Prop} {R : β → Prop} {x : m α} {f : α → m β}
    (hx : Reports P x Q) (hf : ∀ a, Q a → Reports P (f a) R) : Reports P (x >>= f) R

variable {m : Type → Type} [Monad m] [Reporter m] {α β γ : Type}

def Locates (P : Nat → Prop) (x : m α) (Q : α → Prop) : Prop :=
  Reporter.Reports P x Q

namespace Locates

variable {P : Nat → Prop} {x : m α} {Q : α → Prop} {R : β → Prop}

theorem pure {a : α} (h : Q a) : Locates P (pure a : m α) Q :=
  Reporter.reports_pure h

theorem bind {f : α → m β} (hx : Locates P x Q) (hf : ∀ a, Q a → Locates P (f a) R) :
    Locates P (x >>= f) R :=
  Reporter.reports_bind hx hf

theorem ite {c : Prop} [Decidable c] {y : m α} (hx : Locates P x Q) (hy : Locates P y Q) :
    Locates P (if c then x else y) Q := by
  by_cases hc : c
  · rwa [if_pos hc]
  · rwa [if_neg hc]

theorem forIn {f : α → m Unit} {as : List α} (h : ∀ a ∈ as, Locates P (f a) fun _ => True) :
    Locates P (forIn as PUnit.unit fun a _ => do f a; return .yield PUnit.unit : m PUnit)
      fun _ => True := by
  induction as with
  | nil => exact .pure trivial
  | cons a as ih =>
    rw [List.forIn_cons]
    have hstep : Locates P (do f a; return ForInStep.yield PUnit.unit : m (ForInStep PUnit))
        fun _ => True :=
      (h a (by simp)).bind fun _ _ => .pure trivial
    refine hstep.bind fun r _ => ?_
    cases r with
    | done u => exact .pure trivial
    | yield u => exact ih fun b hb => h b (by simp [hb])

variable [LawfulMonad m]

theorem mapM_option {f : α → m β} {v : α → γ} {w : β → γ} {a : Option α}
    (h : ∀ x, a = some x → Locates P (f x) fun b => w b = v x) :
    Locates P (a.mapM f) fun b => b.toList.map w = a.toList.map v := by
  cases a with
  | none => exact .pure rfl
  | some x =>
    rw [Option.mapM_some, map_eq_pure_bind]
    refine (h x rfl).bind fun b hb => .pure ?_
    simp only [Option.toList_some, List.map_cons, List.map_nil, hb]

theorem mapM {f : α → m β} {v : α → γ} {w : β → γ} {as : List α}
    (h : ∀ a ∈ as, Locates P (f a) fun b => w b = v a) :
    Locates P (as.mapM f) fun bs => bs.map w = as.map v := by
  induction as with
  | nil => exact .pure rfl
  | cons a as ih =>
    rw [List.mapM_cons]
    refine (h a (by simp)).bind fun b hb => ?_
    refine (ih fun c hc => h c (by simp [hc])).bind fun bs hbs => .pure ?_
    rw [List.map_cons, List.map_cons, hb, hbs]

end Locates

end Shader
