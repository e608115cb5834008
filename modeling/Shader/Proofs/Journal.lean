import Shader.Proofs.Scoping

/-! Runs of a stack of scopes. Whatever is done to a stack, it answers as a journal does that notes
in each live scope what was stored there, and a scope that was entered and left again leaves no
trace. -/

namespace Shader

/-- What can be asked of a stack of scopes. -/
inductive ScopeAction where
  | push
  | pop
  | define (name : String) (b : Binding)
  /-- Puts another binding in the place of the one that the innermost scope has. -/
  | replace (name : String) (b : Binding)
  | lookup (name : String)
  | lookupBuiltin (name : String)

inductive ScopeAnswer where
  | moved (isGlobal : Bool)
  | stored
  | refused (d : Duplicate)
  | absent
  | meaning (b : Option Binding)

namespace ScopeAction

def isPush : ScopeAction → Bool
  | push => true
  | _ => false

def isPop : ScopeAction → Bool
  | pop => true
  | _ => false

def run {σ : Type} (step : σ → ScopeAction → ScopeAnswer × σ) :
    σ → List ScopeAction → List ScopeAnswer × σ
  | s, [] => ([], s)
  | s, a :: as =>
    let rest := run step (step s a).2 as
    ((step s a).1 :: rest.1, rest.2)

theorem run_append {σ : Type} {step : σ → ScopeAction → ScopeAnswer × σ} (s : σ)
    (as bs : List ScopeAction) :
    (run step s (as ++ bs)).2 = (run step (run step s as).2 bs).2 := by
  induction as generalizing s with
  | nil => rfl
  | cons a as ih => exact ih (step s a).2

end ScopeAction

namespace ScopeStack

/-- What a stack answers. A refused definition and a replacement of nothing leave it as it is. -/
def step (s : ScopeStack) : ScopeAction → ScopeAnswer × ScopeStack
  | .push => (.moved s.push.isGlobal, s.push)
  | .pop => (.moved s.pop.isGlobal, s.pop)
  | .define name b =>
    match s.define name b with
    | .ok t => (.stored, t)
    | .error d => (.refused d, s)
  | .replace name b =>
    match s.lookupLocal? name with
    | some _ => (.stored, s.replaceLocal name b)
    | none => (.absent, s)
  | .lookup name => (.meaning (s.lookup? name), s)
  | .lookupBuiltin name => (.meaning (s.lookupBuiltin? name), s)

/-- The scopes from the innermost outward, as maps. -/
def maps (s : ScopeStack) : List (String → Option Binding) :=
  (s.inner :: s.outer).map Scope.lookup?

end ScopeStack

/-- What was stored in each scope that is still live: in the innermost one, and in the ones around
it from the inside out. In each scope the latest store stands first. -/
structure Journal where
  builtins : Option Scope
  inner : List (String × Binding)
  outer : List (List (String × Binding))

namespace Journal

def new (builtins : Option Scope) : Journal :=
  ⟨builtins, [], []⟩

def maps (j : Journal) : List (String → Option Binding) :=
  (j.inner :: j.outer).map fun stores name => stores.lookup name

/-- The binding last stored for a name in a live scope, as far inside as there is one; a builtin
otherwise. -/
def meaning? (j : Journal) (name : String) : Option Binding :=
  j.maps.findSome? (fun stored => stored name) <|>
    j.builtins.bind fun scope => scope.lookup? name

/-- A name can be defined once in a scope, and replaced where it is defined. -/
def step (j : Journal) : ScopeAction → ScopeAnswer × Journal
  | .push => (.moved false, { j with inner := [], outer := j.inner :: j.outer })
  | .pop =>
    match j.outer with
    | [] => (.moved true, j)
    | stores :: rest => (.moved rest.isEmpty, { j with inner := stores, outer := rest })
  | .define name b =>
    match j.inner.lookup name with
    | some last => (.refused ⟨name, last⟩, j)
    | none => (.stored, { j with inner := (name, b) :: j.inner })
  | .replace name b =>
    match j.inner.lookup name with
    | some _ => (.stored, { j with inner := (name, b) :: j.inner })
    | none => (.absent, j)
  | .lookup name => (.meaning (j.meaning? name), j)
  | .lookupBuiltin name => (.meaning (j.builtins.bind fun scope => scope.lookup? name), j)

/-- The journal notes what the stack has. -/
structure Shows (j : Journal) (s : ScopeStack) : Prop where
  builtins : s.builtins = j.builtins
  maps : s.maps = j.maps

namespace Shows

variable {j : Journal} {s : ScopeStack}

theorem start (builtins : Option Scope) : (new builtins).Shows (.new builtins) :=
  ⟨rfl, rfl⟩

theorem inner (h : j.Shows s) (name : String) : s.inner.lookup? name = j.inner.lookup name :=
  congrFun (List.cons.inj h.maps).1 name

theorem outer (h : j.Shows s) :
    s.outer.map Scope.lookup? = j.outer.map fun stores name => stores.lookup name :=
  (List.cons.inj h.maps).2

theorem lookupBuiltin? (h : j.Shows s) (name : String) :
    s.lookupBuiltin? name = j.builtins.bind fun scope => scope.lookup? name := by
  rw [ScopeStack.lookupBuiltin?, h.builtins]

theorem lookup? (h : j.Shows s) (name : String) : s.lookup? name = j.meaning? name := by
  rw [ScopeStack.lookup?, meaning?, ← h.maps, ScopeStack.maps, List.findSome?_map,
    h.lookupBuiltin?]
  rfl

theorem store (h : j.Shows s) {name : String} {b : Binding} {inner : Scope}
    (hinner : ∀ x, inner.lookup? x = if x = name then some b else s.inner.lookup? x) :
    Shows { j with inner := (name, b) :: j.inner } { s with inner } where
  builtins := h.builtins
  maps := by
    refine congrArg₂ List.cons (funext fun x => ?_) h.outer
    show inner.lookup? x = ((name, b) :: j.inner).lookup x
    rw [hinner, h.inner, List.lookup_cons]
    by_cases hx : x = name
    · simp [hx]
    · rw [if_neg hx, beq_eq_false_iff_ne.mpr hx]

theorem push (h : j.Shows s) : Shows { j with inner := [], outer := j.inner :: j.outer } s.push :=
  ⟨h.builtins, congrArg (List.cons _) h.maps⟩

theorem pop (h : j.Shows s) :
    (j.step .pop).1 = .moved s.pop.isGlobal ∧ (j.step .pop).2.Shows s.pop := by
  have houter := h.outer
  cases hj : j.outer with
  | nil =>
    rw [hj, List.map_nil, List.map_eq_nil_iff] at houter
    have hpop : s.pop = s := by rw [ScopeStack.pop, houter]
    simp only [Journal.step, hj, hpop, ScopeStack.isGlobal, houter]
    exact ⟨rfl, h⟩
  | cons stores rest =>
    rw [hj] at houter
    obtain ⟨scope, scopes, hs, hfirst, hothers⟩ := List.map_eq_cons_iff.mp houter
    have hpop : s.pop = { s with inner := scope, outer := scopes } := by rw [ScopeStack.pop, hs]
    have hempty : scopes.isEmpty = rest.isEmpty := by
      rw [← List.isEmpty_map (f := Scope.lookup?), hothers, List.isEmpty_map]
    simp only [Journal.step, hj, hpop, ScopeStack.isGlobal, hempty]
    exact ⟨trivial, h.builtins, congrArg₂ List.cons hfirst hothers⟩

/-- One action gets the same answer, and the journal goes on to note what the stack has. -/
theorem step (h : j.Shows s) (a : ScopeAction) :
    (s.step a).1 = (j.step a).1 ∧ (j.step a).2.Shows (s.step a).2 := by
  cases a with
  | push => exact ⟨rfl, h.push⟩
  | pop => exact ⟨h.pop.1.symm, h.pop.2⟩
  | define name b =>
    have hinner := h.inner name
    cases hlast : j.inner.lookup name with
    | none =>
      rw [hlast] at hinner
      simp only [ScopeStack.step, Journal.step, ScopeStack.define, ScopeStack.lookupLocal?,
        hinner, hlast]
      exact ⟨trivial, h.store fun x => Scope.lookup?_insert _ _ _ _⟩
    | some last =>
      rw [hlast] at hinner
      simp only [ScopeStack.step, Journal.step, ScopeStack.define, ScopeStack.lookupLocal?,
        hinner, hlast]
      exact ⟨trivial, h⟩
  | replace name b =>
    have hinner := h.inner name
    cases hlast : j.inner.lookup name with
    | none =>
      rw [hlast] at hinner
      simp only [ScopeStack.step, Journal.step, ScopeStack.lookupLocal?, hinner, hlast]
      exact ⟨trivial, h⟩
    | some last =>
      rw [hlast] at hinner
      simp only [ScopeStack.step, Journal.step, ScopeStack.lookupLocal?, hinner, hlast]
      refine ⟨trivial, h.store fun x => ?_⟩
      rw [Scope.lookup?_replace]
      by_cases hx : x = name
      · rw [if_pos hx, if_pos hx, hx, hinner, Option.map_some]
      · rw [if_neg hx, if_neg hx]
  | lookup name => exact ⟨congrArg ScopeAnswer.meaning (h.lookup? name), h⟩
  | lookupBuiltin name => exact ⟨congrArg ScopeAnswer.meaning (h.lookupBuiltin? name), h⟩

theorem run (h : j.Shows s) (as : List ScopeAction) :
    (ScopeAction.run ScopeStack.step s as).1 = (ScopeAction.run Journal.step j as).1 ∧
      (ScopeAction.run Journal.step j as).2.Shows (ScopeAction.run ScopeStack.step s as).2 := by
  induction as generalizing j s with
  | nil => exact ⟨rfl, h⟩
  | cons a as ih =>
    obtain ⟨hanswer, hnext⟩ := h.step a
    obtain ⟨hanswers, hlast⟩ := ih hnext
    exact ⟨congrArg₂ List.cons hanswer hanswers, hlast⟩

end Shows

end Journal

namespace ScopeStack

theorem builtins_step (s : ScopeStack) (a : ScopeAction) : (s.step a).2.builtins = s.builtins := by
  cases a with
  | push => rfl
  | pop =>
    simp only [step, pop]
    split <;> rfl
  | define name b =>
    simp only [step]
    split
    · rename_i t ht
      rw [(define_eq_ok ht).2]
    · rfl
  | replace name b =>
    simp only [step]
    split <;> rfl
  | lookup name => rfl
  | lookupBuiltin name => rfl

theorem builtins_run (s : ScopeStack) (as : List ScopeAction) :
    (ScopeAction.run step s as).2.builtins = s.builtins := by
  induction as generalizing s with
  | nil => rfl
  | cons a as ih => exact (ih (s.step a).2).trans (s.builtins_step a)

/-- In `t` a scope was entered from `s`, then `n` more, and none of the scopes of `s` was left. -/
structure Within (s : ScopeStack) (n : Nat) (t : ScopeStack) : Prop where
  builtins : t.builtins = s.builtins
  outer : ∃ entered, entered.length = n ∧ t.outer = entered ++ s.inner :: s.outer

namespace Within

variable {s t : ScopeStack} {n : Nat}

theorem push (h : Within s n t) : Within s (n + 1) t.push := by
  obtain ⟨hbuiltins, entered, hlength, houter⟩ := h
  exact ⟨hbuiltins, t.inner :: entered, by rw [List.length_cons, hlength],
    congrArg (List.cons _) houter⟩

theorem pop (h : Within s (n + 1) t) : Within s n t.pop := by
  obtain ⟨hbuiltins, entered, hlength, houter⟩ := h
  cases entered with
  | nil => cases hlength
  | cons scope entered =>
    have hpop : t.pop = { t with inner := scope, outer := entered ++ s.inner :: s.outer } := by
      rw [ScopeStack.pop, houter]
      rfl
    rw [hpop]
    exact ⟨hbuiltins, entered, Nat.succ.inj hlength, rfl⟩

theorem pop_eq (h : Within s 0 t) : t.pop = s := by
  obtain ⟨hbuiltins, entered, hlength, houter⟩ := h
  rw [List.eq_nil_of_length_eq_zero hlength, List.nil_append] at houter
  rw [ScopeStack.pop, houter, hbuiltins]

theorem step (h : Within s n t) {a : ScopeAction}
    (ha : (if a.isPop then 1 else 0) ≤ n + if a.isPush then 1 else 0) :
    ∃ m, m + (if a.isPop then 1 else 0) = n + (if a.isPush then 1 else 0) ∧
      Within s m (t.step a).2 := by
  have hbuiltins := (builtins_step t a).trans h.builtins
  cases a with
  | push => exact ⟨n + 1, rfl, h.push⟩
  | pop =>
    obtain ⟨m, rfl⟩ : ∃ m, n = m + 1 := Nat.exists_eq_add_one.mpr ha
    exact ⟨m, rfl, h.pop⟩
  | define name b =>
    refine ⟨n, rfl, hbuiltins, ?_⟩
    simp only [ScopeStack.step]
    split
    · rename_i u hu
      rw [(define_eq_ok hu).2]
      exact h.outer
    · exact h.outer
  | replace name b =>
    refine ⟨n, rfl, hbuiltins, ?_⟩
    simp only [ScopeStack.step]
    split
    · exact h.outer
    · exact h.outer
  | lookup name => exact ⟨n, rfl, h⟩
  | lookupBuiltin name => exact ⟨n, rfl, h⟩

theorem run {m : Nat} (h : Within s n t) {as : List ScopeAction}
    (hfront : ∀ bs, bs <+: as → bs.countP ScopeAction.isPop ≤ n + bs.countP ScopeAction.isPush)
    (hm : m + as.countP ScopeAction.isPop = n + as.countP ScopeAction.isPush) :
    Within s m (ScopeAction.run ScopeStack.step t as).2 := by
  induction as generalizing n t with
  | nil =>
    obtain rfl : m = n := by simpa using hm
    exact h
  | cons a as ih =>
    have hcons : ∀ bs, bs <+: as → bs.countP ScopeAction.isPop + (if a.isPop then 1 else 0) ≤
        n + (bs.countP ScopeAction.isPush + if a.isPush then 1 else 0) := by
      intro bs hbs
      rw [← List.countP_cons, ← List.countP_cons]
      exact hfront (a :: bs) (List.cons_prefix_cons.mpr ⟨rfl, hbs⟩)
    obtain ⟨k, hk, hnext⟩ := h.step (by simpa using hcons [] (List.nil_prefix))
    rw [List.countP_cons, List.countP_cons] at hm
    refine ih hnext (fun bs hbs => ?_) (by omega)
    have := hcons bs hbs
    omega

theorem run_pops (h : Within s n t) :
    (ScopeAction.run ScopeStack.step t (List.replicate (n + 1) .pop)).2 = s := by
  induction n generalizing t with
  | zero => exact h.pop_eq
  | succ n ih => exact ih h.pop

end Within

theorem within_push (s : ScopeStack) : Within s 0 s.push :=
  ⟨rfl, [], rfl, rfl⟩

/-- A new scope is left without a trace, whatever happened inside. -/
theorem run_nested (s : ScopeStack) {inside : List ScopeAction} {n : Nat}
    (hfront : ∀ front, front <+: inside →
      front.countP ScopeAction.isPop ≤ front.countP ScopeAction.isPush)
    (hn : inside.countP ScopeAction.isPop + n = inside.countP ScopeAction.isPush + 1) :
    (ScopeAction.run step s (.push :: inside ++ List.replicate n .pop)).2 = s := by
  have hle := hfront inside List.prefix_rfl
  obtain ⟨m, rfl⟩ : ∃ m, n = m + 1 := Nat.exists_eq_add_one.mpr (by omega)
  have hwithin : Within s m (ScopeAction.run step s (.push :: inside)).2 :=
    s.within_push.run (fun front h => by have := hfront front h; omega) (by omega)
  rw [ScopeAction.run_append]
  exact hwithin.run_pops

end ScopeStack

/-- After any actions from a new stack, the answers so far are those of a journal of what each live
scope was last told, the scopes are its maps, and the builtins are the ones given. From there, a
refused definition changes nothing, nor does leaving the global scope, and entering a scope, doing
there whatever never leaves more scopes than it enters, and leaving what was entered leads back to
the same stack. -/
theorem scopes_follow_journal (builtins : Option Scope) (actions : List ScopeAction) :
    let reached := ScopeAction.run ScopeStack.step (.new builtins) actions
    let noted := ScopeAction.run Journal.step (.new builtins) actions
    let s := reached.2
    reached.1 = noted.1 ∧ s.maps = noted.2.maps ∧ s.builtins = builtins ∧
      (∀ name, s.lookup? name = noted.2.meaning? name) ∧
      (∀ name b d, (s.step (.define name b)).1 = .refused d → (s.step (.define name b)).2 = s) ∧
      (s.isGlobal = true → s.pop = s) ∧
      ∀ inside n, (∀ front, front <+: inside →
          front.countP ScopeAction.isPop ≤ front.countP ScopeAction.isPush) →
        inside.countP ScopeAction.isPop + n = inside.countP ScopeAction.isPush + 1 →
        (ScopeAction.run ScopeStack.step s (.push :: inside ++ List.replicate n .pop)).2 = s := by
  intro reached noted s
  obtain ⟨hanswers, hshows⟩ := (Journal.Shows.start builtins).run actions
  refine ⟨hanswers, hshows.maps, ScopeStack.builtins_run _ actions, hshows.lookup?, ?_, ?_, ?_⟩
  · intro name b d h
    simp only [ScopeStack.step] at h ⊢
    split at h
    · cases h
    · rfl
  · intro h
    rw [ScopeStack.pop, List.isEmpty_iff.mp h]
  · intro inside n hfront hn
    exact s.run_nested hfront hn

/-- A name is defined, refused, shadowed and replaced; the last action finds no scope to leave. -/
def shadowing (a b c : Binding) : List ScopeAction :=
  [.define "x" a, .define "x" b, .push, .define "x" b, .replace "x" c, .lookup "x", .pop,
    .lookup "x", .pop]

theorem scopes_follow_journal_shadowing :
    let a := Binding.struct (.scalar .int)
    let b := Binding.struct (.scalar .float)
    let c := Binding.struct (.scalar .bool)
    let reached := ScopeAction.run ScopeStack.step (.new none) (shadowing a b c)
    let s := reached.2
    reached.1 = [.stored, .refused ⟨"x", a⟩, .moved false, .stored, .stored, .meaning (some c),
      .moved true, .meaning (some a), .moved true] ∧
      (s.step (.define "x" b)).2 = s ∧ s.pop = s ∧
      (ScopeAction.run ScopeStack.step s
        [.push, .define "x" b, .push, .pop, .pop]).2 = s := by
  intro a b c reached s
  obtain ⟨hanswers, -, -, -, hrefused, hglobal, hnested⟩ :=
    scopes_follow_journal none (shadowing a b c)
  refine ⟨hanswers.trans rfl, hrefused "x" b ⟨"x", a⟩ rfl, hglobal rfl, ?_⟩
  refine hnested [.define "x" b, .push, .pop] 1 (fun front hfront => ?_) rfl
  simp only [List.prefix_cons_iff, List.prefix_nil] at hfront
  rcases hfront with rfl | ⟨_, rfl, rfl | ⟨_, rfl, rfl | ⟨_, rfl, rfl⟩⟩⟩ <;> decide

end Shader
