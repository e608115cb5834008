import Shader.Proofs.Check
import Shader.Proofs.Meaning
import Shader.Proofs.Scoping

/-! Array sizes. A size is any positive 32-bit integer, signed or not, and the length of an array is
its size as a signed one: the two agree below half of the range and a larger size comes back as a
negative length, which is no size. A size is checked in a declaration and not in the brackets of a
constructor call, where its value alone counts. -/

namespace Shader

def ScopeStack.env (s : ScopeStack) (builtins : Scope) : Env :=
  ⟨builtins, s.lookup?, s.inner.names, s.isGlobal⟩

theorem ScopeStack.env_shows {s : ScopeStack} {builtins : Scope} (h : s.builtins = some builtins) :
    (s.env builtins).Shows s where
  builtins := h
  meaning _ := rfl
  own x := by
    rw [Scope.lookup?, ← Option.ne_none_iff_isSome, ne_eq, List.lookup_eq_none_iff]
    simp [ScopeStack.env, Scope.names]
  isGlobal := rfl

variable {n : Nat}

theorem Constant.index?_lt {c : Constant} (h : c.index? = some (n : Int)) : n < twoPow 32 := by
  obtain ⟨s, -, hs⟩ := Option.bind_eq_some_iff.mp h
  cases s with
  | int i =>
    have hi := i.toInt_lt
    have hn : i.toInt = n := Option.some.inj hs
    rw [show twoPow 32 = 4294967296 from rfl]
    omega
  | uint u =>
    have hn : ((u.toNat : Nat) : Int) = n := Option.some.inj hs
    have hu := u.toNat_lt
    rw [show twoPow 32 = 4294967296 from rfl]
    omega
  | float x => cases hs
  | bool b => cases hs

theorem suffixExtent_eq_sized_iff {a : Option (ArraySuffix Expr)} : suffixExtent a = .sized n ↔
    0 < n ∧ ∃ e span c, a = some ⟨some e, span⟩ ∧ e.constant? = some c ∧
      c.index? = some (n : Int) := by
  constructor
  · intro h
    rcases a with _ | ⟨_ | e, span⟩
    · cases h
    · cases h
    · simp only [suffixExtent] at h
      split at h
      · rename_i k hk
        obtain ⟨c, hc, hindex⟩ := Option.bind_eq_some_iff.mp hk
        cases h
        exact ⟨Nat.succ_pos k, e, span, c, rfl, hc, hindex⟩
      · cases h
  · rintro ⟨hpos, e, span, c, rfl, hc, hindex⟩
    obtain ⟨k, rfl⟩ := Nat.exists_eq_add_one.mpr hpos
    simp only [suffixExtent, hc, Option.bind_some, hindex]

def lengthConstant (n : Nat) : Constant :=
  .ofScalar (.int (Int32.ofNat n))

theorem index?_lengthConstant (hn : n < twoPow 32) :
    (lengthConstant n).index? =
      some (if n < twoPow 31 then (n : Int) else n - (twoPow 32 : Nat)) := by
  have hbits : (lengthConstant n).index? = some ((BitVec.ofNat 32 n).toInt) := rfl
  rw [show twoPow 32 = 4294967296 from rfl] at hn ⊢
  rw [show twoPow 31 = 2147483648 from rfl, hbits]
  simp only [BitVec.toInt, BitVec.toNat_ofNat, Nat.mod_eq_of_lt hn, Option.some.injEq]
  split <;> split <;> omega

namespace Bind

variable {s : BindState} {env : Env} {quals : Qualifiers} {kind : VariableKind} {t : Ty} {n : Nat}

theorem run_of_follows {α : Type} {x : Bind α} {v : Env → α}
    (h : Follows x fun env => pure (v env, env)) (henv : env.Shows s.scopes) :
    (x.run s).1 = v env ∧ env.Shows (x.run s).2.scopes := by
  obtain ⟨-, env', henv', hrun⟩ := h s env henv
  obtain ⟨hpair, -⟩ := Prod.mk.inj hrun
  obtain ⟨hvalue, rfl⟩ := Prod.mk.inj hpair
  exact ⟨hvalue.symm, henv'⟩

theorem run_declarator (quals : Qualifiers) (base : Option Ty) (kind : VariableKind)
    (d : Declarator) (henv : env.Shows s.scopes) :
    ∃ v : Variable, ((declarator quals base kind d).run s).1 = { d with
        init := d.init.map (Resolve.expr env), array := Resolve.arraySuffix env d.array,
        binding := some v } ∧
      v.ty = Resolve.declaratorTy base (suffixExtent (Resolve.arraySuffix env d.array))
        { d with init := d.init.map (Resolve.expr env), array := Resolve.arraySuffix env d.array } ∧
      (env.declare d.name (.variable v)).Shows ((declarator quals base kind d).run s).2.scopes := by
  obtain ⟨-, env', henv', hrun⟩ := follows_declarator quals base kind d s env henv
  obtain ⟨hpair, -⟩ := Prod.mk.inj hrun
  obtain ⟨hvalue, rfl⟩ := Prod.mk.inj hpair
  exact ⟨_, hvalue.symm, rfl, henv'⟩

theorem declaratorTy_sized (ht : t.isArray = false) (d : Declarator) :
    Resolve.declaratorTy (some t) (.sized n) d = some (.array t (some n)) := by
  simp [Resolve.declaratorTy, ht, Extent.apply]

section Length

variable {u : BindState} {x : String} {v : Variable} {old : Option Variable} {inner span : Span}
  {note : Note}

theorem run_reference (hx : u.scopes.lookup? x = some (.variable v)) :
    (reference x span).run u = (some v, u) := by
  simp only [reference, lookup?, StateT.run_bind, StateT.run_get, pure_bind, hx]
  rfl

theorem run_length (hx : u.scopes.lookup? x = some (.variable v)) :
    (expr (.length (.var x old ⟨inner, none⟩) note)).run u =
      (.length (.var x (some v) ⟨inner, none⟩) note, u) := by
  rw [expr]
  refine run_bind_eq ?_
  rw [expr]
  exact run_bind_eq (run_reference hx)

theorem fold_length (hv : v.ty = some (.array t (some n))) :
    (Expr.length (.var x (some v) ⟨inner, none⟩) note).fold = .value (lengthConstant n) := by
  simp [Expr.fold, Expr.knownTy, Expr.ty, Expr.note, Expr.binding?, hv, Fold.length, Ty.length?,
    lengthConstant]

theorem check_length (stage : Stage) (hv : v.ty = some (.array t (some n))) :
    (Check.expr stage (.length (.var x (some v) ⟨inner, none⟩) note)).problems = [] ∧
      (Check.expr stage (.length (.var x (some v) ⟨inner, none⟩) note)).value.fold =
        .value (lengthConstant n) := by
  have hcheck : Check.expr stage (.length (.var x (some v) ⟨inner, none⟩) note) =
      pure (.length (.var x (some v) ⟨inner, v.ty⟩) { note with ty := some .int }) := by
    rw [Check.expr_length, Check.expr, pure_bind, Option.bind_some, hv]
    rfl
  rw [hcheck]
  refine ⟨rfl, ?_⟩
  simp [Expr.fold, Expr.knownTy, Expr.ty, Expr.note, hv, Fold.length, Ty.length?, lengthConstant]

theorem run_size_length (u : BindState) (x : String) (inner span : Span) (note : Note)
    (hv : v.ty = some (.array t (some n))) (hpos : 0 < n) (hn : n < twoPow 32) :
    (size (.length (.var x (some v) ⟨inner, none⟩) note) span).run u =
      if n < twoPow 31 then (.sized n, u)
      else (.invalid, { u with
        problems := ⟨span, .bind (.sizeNotPositive (lengthConstant n))⟩ :: u.problems }) := by
  have hconstant : (Expr.length (.var x (some v) ⟨inner, none⟩) note).constant? =
      some (lengthConstant n) := by
    rw [Expr.constant?, fold_length hv]
    rfl
  have hindex := index?_lengthConstant hn
  by_cases hhalf : n < twoPow 31
  · obtain ⟨k, rfl⟩ := Nat.exists_eq_add_one.mpr hpos
    rw [if_pos hhalf] at hindex ⊢
    simp only [size, hconstant, hindex]
    rfl
  · rw [if_neg hhalf] at hindex ⊢
    obtain ⟨k, hk⟩ : ∃ k, (n : Int) - (twoPow 32 : Nat) = .negSucc k :=
      Int.eq_negSucc_of_lt_zero (by omega)
    rw [hk] at hindex
    simp only [size, hconstant, hindex]
    rfl

theorem run_declarator_brackets {u' : BindState} {a : Option (ArraySuffix Expr)} {y : String}
    {r : Option (ArraySuffix Expr) × Extent} {base : Option Ty} (ty : Option Ty)
    (hsuffix : (arraySuffix a).run u = (r, u'))
    (hty : declaratorTy base r.2 ⟨y, r.1, none, span, old⟩ = pure ty) :
    (declarator quals base kind ⟨y, a, none, span, old⟩).run u =
      let w : Variable := ⟨y, ty, kind, quals.storage, constantOf quals ty none, span⟩
      (⟨y, r.1, none, span, some w⟩, ((define y (.variable w) span).run u').2) := by
  rw [declarator]
  refine (run_bind_eq (a := none) rfl).trans ((run_bind_eq hsuffix).trans ?_)
  dsimp only
  rw [hty]
  rfl

theorem mem_problems_define {y : String} {b : Binding} {p : Diagnostic} (hp : p ∈ u.problems) :
    p ∈ ((define y b span).run u).2.problems := by
  cases h : u.scopes.define y b with
  | ok scopes => rwa [run_define h]
  | error e =>
    rw [run_define_error h]
    exact List.mem_cons_of_mem _ hp

theorem problems_define_new {y : String} {b : Binding} (hy : u.scopes.inner.lookup? y = none) :
    ((define y b span).run u).2.problems = u.problems := by
  have hok : u.scopes.define y b = .ok { u.scopes with inner := u.scopes.inner.insert y b } := by
    rw [ScopeStack.define, ScopeStack.lookupLocal?, hy]
  rw [run_define hok]

theorem run_arraySuffix_length {extent : Extent} {u' : BindState}
    (hx : u.scopes.lookup? x = some (.variable v))
    (hsize : (size (.length (.var x (some v) ⟨inner, none⟩) note) span).run u = (extent, u')) :
    (arraySuffix (some ⟨some (.length (.var x old ⟨inner, none⟩) note), span⟩)).run u =
      ((some ⟨some (.length (.var x (some v) ⟨inner, none⟩) note), span⟩, extent), u') := by
  rw [arraySuffix]
  exact (run_bind_eq (run_length hx)).trans (run_bind_eq hsize)

theorem run_declarator_length {y : String} {place : Span} {b : Option Variable}
    (hx : u.scopes.lookup? x = some (.variable v)) (hv : v.ty = some (.array t (some n)))
    (hpos : 0 < n) (hn : n < twoPow 32) (ht : t.isArray = false) :
    let r := (declarator quals (some t) kind
      ⟨y, some ⟨some (.length (.var x old ⟨inner, none⟩) note), span⟩, none, place, b⟩).run u
    (n < twoPow 31 → r.1.binding.bind Variable.ty = some (.array t (some n)) ∧
      (u.scopes.inner.lookup? y = none → r.2.problems = u.problems)) ∧
    (¬ n < twoPow 31 → r.1.binding.bind Variable.ty = none ∧
      ⟨span, .bind (.sizeNotPositive (lengthConstant n))⟩ ∈ r.2.problems) := by
  intro r
  have hsize := run_size_length u x inner span note hv hpos hn
  refine ⟨fun hhalf => ?_, fun hhalf => ?_⟩
  · rw [if_pos hhalf] at hsize
    have hr : r = _ := run_declarator_brackets (some (.array t (some n)))
      (run_arraySuffix_length hx hsize) (by simp [declaratorTy, ht, Extent.apply])
    rw [hr]
    exact ⟨rfl, problems_define_new⟩
  · rw [if_neg hhalf] at hsize
    have hr : r = _ := run_declarator_brackets none (run_arraySuffix_length hx hsize)
      (by simp [declaratorTy, Extent.apply])
    rw [hr]
    exact ⟨rfl, mem_problems_define List.mem_cons_self⟩

end Length

end Bind

/-- An array that is declared with a size has that size in its type and, as far as a signed integer
goes, as its length: then the length is a size again and makes the same type. The length of a larger
array is negative, and brackets with it are refused. -/
theorem length_is_size_iff {s : BindState} {builtins : Scope} {quals : Qualifiers}
    {kind : VariableKind} {d : Declarator} {t : Ty} (hs : s.scopes.builtins = some builtins)
    (ht : t.isArray = false)
    (hn : suffixExtent ((Bind.declarator quals (some t) kind d).run s).1.array = .sized n) :
    ∃ v, ((Bind.declarator quals (some t) kind d).run s).1.binding = some v ∧
      v.ty = some (.array t (some n)) ∧ n < twoPow 32 ∧
      (s.scopes.inner.lookup? d.name = none →
        ((Bind.declarator quals (some t) kind d).run s).2.scopes.lookup? d.name =
          some (.variable v)) ∧
      ∀ u : BindState, u.scopes.lookup? d.name = some (.variable v) → ∀ old inner note span,
        (Bind.expr (.length (.var d.name old ⟨inner, none⟩) note)).run u =
          (.length (.var d.name (some v) ⟨inner, none⟩) note, u) ∧
        (Expr.length (.var d.name (some v) ⟨inner, none⟩) note).fold = .value (lengthConstant n) ∧
        (∀ stage, (Check.expr stage (.length (.var d.name (some v) ⟨inner, none⟩) note)).problems =
            [] ∧
          (Check.expr stage (.length (.var d.name (some v) ⟨inner, none⟩) note)).value.fold =
            .value (lengthConstant n)) ∧
        ((lengthConstant n).index? = some (n : Int) ↔ n < twoPow 31) ∧
        ∀ quals' kind' y place b,
          let r := (Bind.declarator quals' (some t) kind'
            ⟨y, some ⟨some (.length (.var d.name old ⟨inner, none⟩) note), span⟩, none, place,
              b⟩).run u
          (n < twoPow 31 → r.1.binding.bind Variable.ty = v.ty ∧
            (u.scopes.inner.lookup? y = none → r.2.problems = u.problems)) ∧
          (¬ n < twoPow 31 → r.1.binding.bind Variable.ty = none ∧
            ⟨span, .bind (.sizeNotPositive (lengthConstant n))⟩ ∈ r.2.problems) := by
  have henv := ScopeStack.env_shows hs
  obtain ⟨v, hr, hty, hafter⟩ := Bind.run_declarator quals (some t) kind d henv
  rw [hr] at hn ⊢
  -- A size is what an integer constant denotes, and so below `2 ^ 32`.
  obtain ⟨hpos, e, place, c, -, -, hindex⟩ := suffixExtent_eq_sized_iff.mp hn
  have hlt := Constant.index?_lt hindex
  have hv : v.ty = some (.array t (some n)) := by
    rw [hty, show suffixExtent _ = .sized n from hn, Bind.declaratorTy_sized ht]
  refine ⟨v, rfl, hv, hlt, fun hnew => ?_, fun u hu old inner note span => ?_⟩
  · rw [← hafter.meaning, Env.declare, if_neg]
    · simp [Env.extend]
    · simp [henv.own, hnew]
  · refine ⟨Bind.run_length hu, Bind.fold_length hv, fun stage => Bind.check_length stage hv, ?_,
      fun quals' kind' y place b => ?_⟩
    · rw [index?_lengthConstant hlt]
      by_cases hhalf : n < twoPow 31
      · simp [hhalf]
      · simp only [hhalf, if_false, iff_false, Option.some.injEq]
        omega
    · rw [hv]
      exact Bind.run_declarator_length hu hv hpos hlt ht

def Bind.floats (name : String) (size : Expr) : Bind Declarator :=
  declarator ⟨none, none, false, none, [], ⟨0, 0⟩⟩ (some .float) .global
    ⟨name, some ⟨some size, ⟨0, 0⟩⟩, none, ⟨0, 0⟩, none⟩

def Expr.lengthOf (name : String) : Expr :=
  .length (.var name none ⟨⟨0, 0⟩, none⟩) ⟨⟨0, 0⟩, none⟩

theorem length_is_size_three :
    let first := (Bind.floats "a" (.int "3" ⟨⟨0, 0⟩, none⟩)).run Bind.start
    let second := (Bind.floats "b" (.lengthOf "a")).run first.2
    first.1.binding.bind Variable.ty = some (.array .float (some 3)) ∧
      second.1.binding.bind Variable.ty = some (.array .float (some 3)) ∧
      second.2.problems = first.2.problems := by
  intro first second
  obtain ⟨v, hbinding, hty, -, hvisible, hlength⟩ :=
    @length_is_size_iff 3 Bind.start Prelude.scope ⟨none, none, false, none, [], ⟨0, 0⟩⟩ .global
      ⟨"a", some ⟨some (.int "3" ⟨⟨0, 0⟩, none⟩), ⟨0, 0⟩⟩, none, ⟨0, 0⟩, none⟩ .float rfl rfl rfl
  obtain ⟨-, -, -, -, hsecond⟩ := hlength first.2 (hvisible rfl) none ⟨0, 0⟩ ⟨⟨0, 0⟩, none⟩ ⟨0, 0⟩
  obtain ⟨hsame, hclean⟩ :=
    (hsecond ⟨none, none, false, none, [], ⟨0, 0⟩⟩ .global "b" ⟨0, 0⟩ none).1 (by decide)
  refine ⟨?_, hsame.trans hty, hclean rfl⟩
  rw [show first.1.binding = some v from hbinding]
  exact hty

/-- An array of the largest size has the length -1. -/
theorem length_wraps :
    let first := (Bind.floats "a" (.int "4294967295u" ⟨⟨0, 0⟩, none⟩)).run Bind.start
    let second := (Bind.floats "b" (.lengthOf "a")).run first.2
    first.1.binding.bind Variable.ty = some (.array .float (some 4294967295)) ∧
      first.2.problems = [] ∧ second.1.binding.bind Variable.ty = none ∧
      second.2.problems =
        [⟨⟨0, 0⟩, .bind (.sizeNotPositive (.ofScalar (.int (-1))))⟩] := by
  exact ⟨rfl, rfl, rfl, rfl⟩

/-- The name of a callee stands for the type. -/
def CalleeName.Denotes (s : BindState) (t : Ty) : CalleeName → Prop
  | .basic b => t = .basic b
  | .named x => s.scopes.lookup? x = some (.struct t)

namespace Bind

variable {s : BindState} {env : Env} {callee : Callee} {size : Expr} {args : List Expr} {t : Ty}
  {k : Nat} {span : Span} {note : Note} {target : Target}

theorem run_call_sized (henv : env.Shows s.scopes) (ht : callee.name.Denotes s t)
    (hk : suffixExtent (some ⟨some (Resolve.expr env size), span⟩) = .sized k) :
    ((expr (.call callee (some ⟨some size, span⟩) args target note)).run s).1 =
      .call callee (some ⟨some (Resolve.expr env size), span⟩) (Resolve.exprs env args)
        (.constructor (.array t (some k))) note := by
  rw [(run_of_follows (follows_expr _) henv).1]
  obtain ⟨name, place⟩ := callee
  cases name with
  | basic b =>
    obtain rfl : t = .basic b := ht
    simp only [Resolve.expr, Resolve.arraySuffix, hk, Extent.apply, Option.map_some,
      constructorTarget, constructorTy]
  | named x =>
    have hty : env.ty? x = some t := by
      rw [Env.ty?, henv.meaning, show s.scopes.lookup? x = some (.struct t) from ht]
    simp only [Resolve.expr, Resolve.arraySuffix, hk, hty, Extent.apply, Option.map_some,
      constructorTarget, constructorTy]

end Bind

namespace Check

variable {stage : Stage} {size : Expr} {args : List Expr} {t : Ty} {k : Nat} {span : Span}

theorem mapM_ty {es : List Expr} (h : es.map Expr.ty = List.replicate k (some t)) :
    es.mapM Expr.ty = some (List.replicate k t) := by
  induction es generalizing k with
  | nil =>
    cases k with
    | zero => rfl
    | succ k => simp [List.replicate_succ] at h
  | cons e es ih =>
    cases k with
    | zero => simp at h
    | succ k =>
      obtain ⟨he, hes⟩ : e.ty = some t ∧ es.map Expr.ty = List.replicate k (some t) := by
        simpa [List.replicate_succ] using h
      simp [he, ih hes, List.replicate_succ]

/-- Arguments of the element type, as many as the size says, make an array without a problem; the
brackets are not looked at. -/
theorem problems_call_sized (callee : Callee) (suffix : Option (ArraySuffix Expr)) (note : Note)
    (hargs : (exprs stage args).value.map Expr.ty = List.replicate k (some t)) :
    (expr stage (.call callee suffix args (.constructor (.array t (some k))) note)).problems =
      (exprs stage args).problems := by
  have hok : constructorProblem? (.array t (some k)) (List.replicate k t) = none := by
    simp [constructorProblem?]
  simp [expr_call, targetTy, constructTy, mapM_ty hargs, hok]

theorem problems_declarator_sized (stage : Stage) (storage : Option Storage) {d : Declarator}
    (hd : d.array = some ⟨some size, span⟩) :
    (declarator stage storage d).problems = (expr stage size).problems ++
      (declarator stage storage { d with array := none }).problems := by
  obtain ⟨name, array, init, place, binding⟩ := d
  obtain rfl : array = some ⟨some size, span⟩ := hd
  have hsize : ((some ⟨some size, span⟩ : Option (ArraySuffix Expr)).mapM
      (arraySuffix stage)).problems = (expr stage size).problems := by
    simp [arraySuffix, map_eq_pure_bind, -bind_pure_comp]
  simp only [declarator, Checked.problems_bind, hsize]
  cases binding.bind Variable.ty with
  | none => rfl
  | some ty => by_cases hvoid : ty.base.isVoid = true <;> simp only [hvoid] <;> rfl

end Check

/-- A size that makes an array of just the arguments of a constructor call is the same expression in
the call and in a declaration, but only the declaration has it checked: the problems of the two are
alike exactly if the size has none. -/
theorem size_checked_alike_iff {s : BindState} {builtins : Scope} {stage : Stage} {callee : Callee}
    {size : Expr} {args : List Expr} {t : Ty} {k : Nat} {span : Span}
    (hs : s.scopes.builtins = some builtins) (ht : callee.name.Denotes s t)
    (hk : suffixExtent (some ⟨some ((Bind.expr size).run s).1, span⟩) = .sized k)
    (hargs : (Check.exprs stage ((Bind.exprs args).run s).1).value.map Expr.ty =
      List.replicate k (some t)) :
    ∀ target note quals kind storage x place around b,
      let bound := ((Bind.expr size).run s).1
      let call := ((Bind.expr (.call callee (some ⟨some size, span⟩) args target note)).run s).1
      let d := ((Bind.declarator quals (some t) kind
        ⟨x, some ⟨some size, around⟩, none, place, b⟩).run s).1
      call = .call callee (some ⟨some bound, span⟩) ((Bind.exprs args).run s).1
        (.constructor (.array t (some k))) note ∧
      d.array = some ⟨some bound, around⟩ ∧
      (Check.expr stage call).problems =
        (Check.exprs stage ((Bind.exprs args).run s).1).problems ∧
      (Check.declarator stage storage d).problems = (Check.expr stage bound).problems ++
        (Check.declarator stage storage { d with array := none }).problems ∧
      ∀ inCall inDeclaration : List Diagnostic,
        (Check.expr stage call).problems =
          (Check.exprs stage ((Bind.exprs args).run s).1).problems ++ inCall →
        (Check.declarator stage storage d).problems =
          inDeclaration ++ (Check.declarator stage storage { d with array := none }).problems →
        (inCall.map Diagnostic.problem = inDeclaration.map Diagnostic.problem ↔
          (Check.expr stage bound).problems = []) := by
  intro target note quals kind storage x place around b bound call d
  have henv := ScopeStack.env_shows hs
  have hbound := (Bind.run_of_follows (Bind.follows_expr size) henv).1
  have hexprs := (Bind.run_of_follows (Bind.follows_exprs_of fun e (_ : e ∈ args) =>
    Bind.follows_expr e) henv).1
  rw [hbound] at hk
  have hcall : call = .call callee (some ⟨some bound, span⟩) ((Bind.exprs args).run s).1
      (.constructor (.array t (some k))) note := by
    rw [hexprs, show bound = _ from hbound]
    exact Bind.run_call_sized henv ht hk
  have harray : d.array = some ⟨some bound, around⟩ := by
    obtain ⟨v, hd, -⟩ := Bind.run_declarator quals (some t) kind
      ⟨x, some ⟨some size, around⟩, none, place, b⟩ henv
    rw [show d = _ from hd, show bound = _ from hbound]
    rfl
  -- The call looks at its arguments alone, the declaration at the size first.
  have hsilent := hcall ▸ Check.problems_call_sized callee (some ⟨some bound, span⟩) note hargs
  have hchecked := Check.problems_declarator_sized stage storage harray
  refine ⟨hcall, harray, hsilent, hchecked, fun inCall inDeclaration h h' => ?_⟩
  obtain rfl : inCall = [] := List.self_eq_append_right.mp (hsilent.symm.trans h)
  obtain rfl := List.append_cancel_right (hchecked.symm.trans h')
  rw [List.map_nil, eq_comm, List.map_eq_nil_iff]

/-- The call of the constructor of float arrays. -/
def Expr.floatArray (size : Expr) (args : List Expr) : Expr :=
  .call ⟨.basic (.scalar .float), ⟨0, 0⟩⟩ (some ⟨some size, ⟨0, 0⟩⟩) args .unresolved
    ⟨⟨0, 0⟩, none⟩

theorem size_checked_alike_two :
    let note : Note := ⟨⟨0, 0⟩, none⟩
    let size := Expr.int "2" note
    let args := [Expr.float "1.0" note, .float "2.0" note]
    (Check.expr .fragment ((Bind.expr (.floatArray size args)).run Bind.start).1).problems = [] ∧
      (Check.declarator .fragment none ((Bind.floats "a" size).run Bind.start).1).problems =
        [] := by
  intro note size args
  obtain ⟨-, -, hcall, hdeclaration, -⟩ :=
    @size_checked_alike_iff Bind.start Prelude.scope .fragment
      ⟨.basic (.scalar .float), ⟨0, 0⟩⟩ size args .float 2 ⟨0, 0⟩ rfl rfl rfl rfl .unresolved note
      ⟨none, none, false, none, [], ⟨0, 0⟩⟩ .global none "a" ⟨0, 0⟩ ⟨0, 0⟩ none
  exact ⟨hcall.trans rfl, hdeclaration.trans rfl⟩

/-- The size `ivec2(2, 3, 4).x` is 2, with one argument too many on the way. -/
def Expr.surplusSize : Expr :=
  let note : Note := ⟨⟨0, 0⟩, none⟩
  .field (.call ⟨.basic (.vector .int .two), ⟨0, 0⟩⟩ none
    [.int "2" note, .int "3" note, .int "4" note] .unresolved note) "x" note

/-- The declaration is reported, the call is not. -/
theorem surplus_size_unchecked_in_call :
    let note : Note := ⟨⟨0, 0⟩, none⟩
    let args := [Expr.float "1.0" note, .float "2.0" note]
    (Check.expr .fragment ((Bind.expr (.floatArray .surplusSize args)).run Bind.start).1).problems =
        [] ∧
      (Check.declarator .fragment none
        ((Bind.floats "a" .surplusSize).run Bind.start).1).problems =
        [⟨⟨0, 0⟩, .expr (.constructor (.tooMany (.basic (.vector .int .two))))⟩] :=
  ⟨rfl, rfl⟩

end Shader
