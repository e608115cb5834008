import Shader.Outcome

/-! What can be said of an outcome: which values it has, and what excuses it from having one. -/

namespace Shader

namespace Outcome

variable {α β : Type}

instance : LawfulMonad Outcome :=
  LawfulMonad.mk' Outcome (by intro _ x; cases x <;> rfl) (by intros; rfl)
    (by intro _ _ _ x _ _; cases x <;> rfl)

@[simp] theorem pure_eq (a : α) : (pure a : Outcome α) = value a := rfl

@[simp] theorem value_bind (a : α) (f : α → Outcome β) : (value a >>= f) = f a := rfl

@[simp] theorem notConstant_bind (f : α → Outcome β) :
    ((notConstant : Outcome α) >>= f) = notConstant := rfl

@[simp] theorem fault_bind (e : Fault) (f : α → Outcome β) :
    ((fault e : Outcome α) >>= f) = fault e := rfl

@[simp] theorem ofOption_some (a : α) : ofOption (some a) = value a := rfl

@[simp] theorem ofOption_none : ofOption (none : Option α) = notConstant := rfl

theorem ofOption_bind (x : Option α) (f : α → Option β) :
    ofOption (x >>= f) = ofOption x >>= fun a => ofOption (f a) := by
  cases x <;> rfl

theorem ofOption_mapM (f : α → Option β) (as : List α) :
    ofOption (as.mapM f) = as.mapM fun a => ofOption (f a) := by
  induction as with
  | nil => rfl
  | cons a as ih => simp only [List.mapM_cons, ofOption_bind, ih, ofOption_some, pure]

@[simp] theorem ofExcept_ok (a : α) : ofExcept (.ok a) = value a := rfl

theorem value?_eq_some_iff {x : Outcome α} {a : α} : x.value? = some a ↔ x = value a := by
  cases x <;> simp [value?]

theorem bind_eq_value {x : Outcome α} {f : α → Outcome β} {b : β}
    (h : x >>= f = .value b) : ∃ a, x = .value a ∧ f a = .value b := by
  cases x with
  | value a => exact ⟨a, rfl, h⟩
  | notConstant => cases h
  | fault e => cases h

/-- No fault arises, a value has the property, and without a value there is the excuse. -/
def Meets (x : Outcome α) (excuse : Prop) (P : α → Prop) : Prop :=
  match x with
  | value a => P a
  | notConstant => excuse
  | fault _ => False

@[simp] theorem meets_value {excuse : Prop} {P : α → Prop} (a : α) :
    (value a).Meets excuse P ↔ P a := Iff.rfl

@[simp] theorem meets_notConstant {excuse : Prop} {P : α → Prop} :
    (notConstant : Outcome α).Meets excuse P ↔ excuse := Iff.rfl

theorem Meets.mono {x : Outcome α} {e e' : Prop} {P Q : α → Prop} (h : x.Meets e P)
    (he : e → e') (hp : ∀ a, P a → Q a) : x.Meets e' Q := by
  cases x with
  | value a => exact hp a h
  | notConstant => exact he h
  | fault f => exact h

theorem Meets.bind {x : Outcome α} {e : Prop} {P : α → Prop} {f : α → Outcome β}
    {Q : β → Prop} (hx : x.Meets e P) (hf : ∀ a, P a → (f a).Meets e Q) :
    (x >>= f).Meets e Q := by
  cases x with
  | value a => exact hf a hx
  | notConstant => exact hx
  | fault f => exact hx.elim

theorem Meets.mapM {f : α → Outcome β} {e : Prop} {P : β → Prop} {as : List α}
    (h : ∀ a ∈ as, (f a).Meets e P) :
    (as.mapM f).Meets e fun bs => bs.length = as.length ∧ ∀ b ∈ bs, P b := by
  induction as with
  | nil => simp
  | cons a as ih =>
    rw [List.mapM_cons]
    refine (h a (by simp)).bind fun b hb => ?_
    refine (ih fun c hc => h c (by simp [hc])).bind fun bs hbs => ?_
    simpa [hbs.1] using ⟨hb, hbs.2⟩

theorem Meets.of_value {x : Outcome α} {e : Prop} {P : α → Prop} (h : x.Meets e P) {a : α}
    (hx : x = value a) : P a := by
  subst hx
  exact h

theorem Meets.exists_value {x : Outcome α} {P : α → Prop} (h : x.Meets False P) :
    ∃ a, x = value a ∧ P a := by
  cases x with
  | value a => exact ⟨a, rfl, h⟩
  | notConstant => exact h.elim
  | fault f => exact h.elim

end Outcome

end Shader
