import Shader.Parse
import Shader.Proofs.Site

/-! The parser gives no initializer to the instance of an interface block. -/

namespace Shader

namespace Site

def Plain : Site → Prop
  | blockInstance d => d.init = none
  | _ => True

/-- No instance of a block has an initializer. -/
def AllPlain (ps : List Site) : Prop :=
  ∀ p ∈ ps, p.Plain

variable {ps qs : List Site}

theorem allPlain_nil : AllPlain [] := by simp [AllPlain]

theorem AllPlain.append (hp : AllPlain ps) (hq : AllPlain qs) : AllPlain (ps ++ qs) :=
  List.forall_mem_append.mpr ⟨hp, hq⟩

theorem AllPlain.cons {p : Site} (hp : p.Plain) (h : AllPlain ps) : AllPlain (p :: ps) :=
  List.forall_mem_cons.mpr ⟨hp, h⟩

theorem allPlain_flatMap {α : Type} {sites : α → List Site} {as : List α}
    (h : ∀ a ∈ as, AllPlain (sites a)) : AllPlain (as.flatMap sites) := by
  intro p hp
  obtain ⟨a, ha, hp⟩ := List.mem_flatMap.mp hp
  exact h a ha p hp

theorem allPlain_roots (es : List Expr) : AllPlain (es.map root) := by
  simp [AllPlain, Plain]

theorem allPlain_suffix (suffix : Option (ArraySuffix Expr)) : AllPlain (suffixSites suffix) :=
  allPlain_roots _

theorem allPlain_members_of {ms : List (Member TypeSpec)}
    (h : ∀ m ∈ ms, AllPlain m.spec.sites) : AllPlain (memberSites ms) := by
  induction ms with
  | nil => exact allPlain_nil
  | cons m ms ih =>
    refine ((h m (by simp)).append ?_).append (ih fun a ha => h a (by simp [ha]))
    exact allPlain_flatMap fun x _ => allPlain_suffix x.array

theorem allPlain_typeSpec (spec : TypeSpec) : AllPlain spec.sites := by
  induction spec using TypeSpec.induction with
  | basic b note | named x note => exact allPlain_suffix _
  | struct tag members span note ih => exact (allPlain_members_of ih).append (allPlain_suffix _)

theorem allPlain_members (ms : List (Member TypeSpec)) : AllPlain (memberSites ms) :=
  allPlain_members_of fun m _ => allPlain_typeSpec m.spec

theorem allPlain_declarator (q : Qualifiers) (d : Declarator) : AllPlain (d.sites q) :=
  (allPlain_suffix _).append (.cons trivial allPlain_nil)

theorem allPlain_parameter (p : ParamDecl) : AllPlain p.sites :=
  ((allPlain_typeSpec _).append (allPlain_suffix _)).append (.cons trivial allPlain_nil)

end Site

open Site

namespace Parse

/-- What the parser returns has the property. -/
def Yields {α : Type} (x : Parser α) (Q : α → Prop) : Prop :=
  ∀ c a c', x c = .ok (a, c') → Q a

section Yields

variable {α β : Type} {x : Parser α} {P Q : α → Prop} {R : β → Prop}

theorem Yields.pure {a : α} (h : Q a) : Yields (pure a) Q := by
  intro c b c' heq
  obtain ⟨rfl, -⟩ : a = b ∧ c = c' := by simpa using Except.ok.inj heq
  exact h

theorem Yields.bind {f : α → Parser β} (hx : Yields x P) (hf : ∀ a, P a → Yields (f a) R) :
    Yields (x >>= f) R := by
  intro c b c' heq
  change (x c >>= fun r => f r.1 r.2) = .ok (b, c') at heq
  cases hxc : x c with
  | error e =>
    rw [hxc] at heq
    cases heq
  | ok r =>
    rw [hxc] at heq
    exact hf r.1 (hx c r.1 r.2 hxc) r.2 b c' heq

theorem yields_then {f : α → Parser β} (hf : ∀ a, Yields (f a) R) : Yields (x >>= f) R :=
  Yields.bind (fun _ _ _ _ => trivial) fun a _ => hf a

theorem Yields.map {f : α → β} (hx : Yields x P) (hf : ∀ a, P a → R (f a)) :
    Yields (f <$> x) R := by
  rw [map_eq_pure_bind]
  exact hx.bind fun a ha => .pure (hf a ha)

theorem Yields.ite {b : Prop} [Decidable b] {y : Parser α} (hx : Yields x Q) (hy : Yields y Q) :
    Yields (if b then x else y) Q := by
  split
  · exact hx
  · exact hy

theorem Yields.throw {e : ParseError} : Yields (throw e : Parser α) Q := by
  intro c a c' heq
  cases heq

end Yields

theorem yields_unfinished {α : Type} {Q : α → Prop} : Yields unfinished Q :=
  yields_then fun _ => .throw

theorem yields_interfaceBlock (n : Nat) (quals : Qualifiers) :
    Yields (interfaceBlock n quals) fun b => AllPlain b.sites := by
  unfold interfaceBlock
  refine yields_then fun _ => yields_then fun _ => yields_then fun ms => yields_then fun _ =>
    .ite ?_ ?_
  · refine yields_then fun _ => yields_then fun _ => yields_then fun _ => yields_then fun _ =>
      .pure ?_
    refine (allPlain_members ms).append (allPlain_flatMap fun d hd => ?_)
    obtain rfl := List.mem_singleton.mp hd
    exact (allPlain_suffix _).append (.cons rfl allPlain_nil)
  · exact yields_then fun _ => .pure ((allPlain_members ms).append allPlain_nil)

def Head.AllPlain : Head → Prop
  | .declaration d => Site.AllPlain d.sites
  | .function _ _ _ _ => True

theorem allPlain_vars (quals : Qualifiers) (spec : TypeSpec) (ds : List Declarator) (span : Span) :
    AllPlain (Declaration.vars quals spec ds span).sites :=
  (allPlain_typeSpec spec).append (allPlain_flatMap fun d _ => allPlain_declarator quals d)

theorem yields_head (n : Nat) : Yields (head n) Head.AllPlain := by
  unfold head
  refine yields_then fun _ => yields_then fun _ => .ite ?_ ?_
  · refine yields_then fun k => ?_
    split
    · refine yields_then fun _ => yields_then fun spec => yields_then fun _ => yields_then fun _ =>
        .pure ?_
      exact allPlain_typeSpec spec
    · exact yields_then fun _ => .throw
  · refine yields_then fun _ => .ite ?_ ?_
    · exact yields_then fun _ => yields_then fun _ => yields_then fun _ => .pure allPlain_nil
    · refine yields_then fun quals => yields_then fun _ => .ite ?_ ?_
      · refine (yields_interfaceBlock n quals).bind fun b hb => yields_then fun _ => .pure hb
      · refine yields_then fun spec => yields_then fun _ => .ite ?_ ?_
        · exact yields_then fun _ => .pure (allPlain_vars _ _ _ _)
        · refine yields_then fun _ => yields_then fun _ => .ite (.pure trivial) ?_
          exact yields_then fun _ => yields_then fun _ => yields_then fun _ =>
            .pure (allPlain_vars _ _ _ _)

theorem yields_simpleStatement (n : Nat) :
    Yields (simpleStatement n) fun s => AllPlain s.sites := by
  have hlocal : Yields (localDeclaration n) fun d => AllPlain d.sites := by
    unfold localDeclaration
    refine (yields_head n).bind fun h hh => ?_
    split
    · exact .pure hh
    · exact .throw
  unfold simpleStatement
  refine yields_then fun _ => .ite (hlocal.bind fun d hd => .pure hd) ?_
  unfold expressionStatement
  exact yields_then fun _ => yields_then fun _ => yields_then fun _ => yields_then fun _ =>
    .pure (.cons trivial allPlain_nil)

theorem yields_statement_succ {n : Nat} (hs : Yields (statement n) fun s => AllPlain s.sites)
    (hb : Yields (block n) fun b => AllPlain (Stmt.allSites b.stmts)) :
    Yields (statement (n + 1)) fun s => AllPlain s.sites := by
  unfold statement
  refine yields_then fun start => yields_then fun k => ?_
  split
  · -- a block
    exact hb.bind fun b hb => yields_then fun _ => .pure hb
  · -- `if`
    refine yields_then fun _ => yields_then fun c => hs.bind fun t ht => yields_then fun _ => ?_
    refine .ite (hs.bind fun e he => ?_) (yields_then fun _ => .pure (.cons trivial ht))
    exact yields_then fun _ => .pure (.cons trivial (ht.append he))
  · -- `switch`
    refine yields_then fun _ => yields_then fun e => hb.bind fun b hb => ?_
    exact yields_then fun _ => .pure (.cons trivial hb)
  · -- `case`
    exact yields_then fun _ => yields_then fun _ => yields_then fun _ => yields_then fun _ =>
      .pure (.cons trivial allPlain_nil)
  · -- `default`
    exact yields_then fun _ => yields_then fun _ => yields_then fun _ => .pure allPlain_nil
  · -- `while`
    refine yields_then fun _ => yields_then fun c => hs.bind fun b hb => ?_
    exact yields_then fun _ => .pure (.cons trivial hb)
  · -- `do`
    refine yields_then fun _ => hs.bind fun b hb => yields_then fun _ => ?_
    exact yields_then fun c => yields_then fun _ => yields_then fun _ => .pure (.cons trivial hb)
  · -- `for`
    refine yields_then fun _ => yields_then fun _ => yields_then fun _ => ?_
    refine .ite (.bind (P := fun init => ∀ s, init = some s → AllPlain s.sites)
      (.pure (by simp)) ?loop) (.bind (.map (yields_simpleStatement n) ?init) ?loop)
    case init => exact fun s hs t ht => Option.some.inj ht ▸ hs
    case loop =>
      intro init hinit
      refine yields_then fun c => yields_then fun _ => yields_then fun u => yields_then fun _ => ?_
      refine hs.bind fun b hb => yields_then fun _ => .pure ?_
      cases init with
      | none => exact ((allPlain_roots _).append (allPlain_roots _)).append hb
      | some s =>
        exact (((hinit s rfl).append (allPlain_roots _)).append (allPlain_roots _)).append hb
  · -- `continue`
    exact yields_then fun _ => yields_then fun _ => yields_then fun _ => .pure allPlain_nil
  · -- `break`
    exact yields_then fun _ => yields_then fun _ => yields_then fun _ => .pure allPlain_nil
  · -- `discard`
    exact yields_then fun _ => yields_then fun _ => yields_then fun _ => .pure allPlain_nil
  · -- `return`
    refine yields_then fun _ => yields_then fun e => yields_then fun _ => yields_then fun _ =>
      .pure ?_
    cases e with
    | none => exact allPlain_nil
    | some e => exact .cons trivial allPlain_nil
  · exact yields_then fun _ => .pure allPlain_nil
  · exact yields_simpleStatement n

theorem yields_statements (n : Nat) :
    (Yields (statement n) fun s => AllPlain s.sites) ∧
      (Yields (block n) fun b => AllPlain (Stmt.allSites b.stmts)) ∧
      Yields (statements n) fun ss => AllPlain (Stmt.allSites ss) := by
  induction n with
  | zero =>
    unfold statement block statements
    exact ⟨yields_unfinished, yields_unfinished, yields_unfinished⟩
  | succ n ih =>
    obtain ⟨hs, hb, hss⟩ := ih
    refine ⟨yields_statement_succ hs hb, ?_, ?_⟩
    · unfold block
      refine yields_then fun _ => yields_then fun _ => hss.bind fun ss hss => ?_
      exact yields_then fun _ => .pure hss
    · unfold statements
      refine yields_then fun _ => .ite (yields_then fun _ => .pure allPlain_nil) ?_
      exact hs.bind fun s hs => hss.bind fun ss hss => .pure (hs.append hss)

theorem yields_functionRest (n : Nat) (quals : Qualifiers) (spec : TypeSpec) (x : String)
    (start : Span) : Yields (functionRest n quals spec x start) fun f => AllPlain f.sites := by
  have hrest : ∀ params : List ParamDecl, Yields (do
      expectMark .rParen
      let body ← if ← acceptMark .semi then pure none else some <$> block n
      return FunctionDecl.mk quals spec x params body (← spanFrom start))
      fun f => AllPlain f.sites := by
    intro params
    have hhead : AllPlain (spec.sites ++ params.flatMap ParamDecl.sites) :=
      (allPlain_typeSpec spec).append (allPlain_flatMap fun p _ => allPlain_parameter p)
    refine yields_then fun _ => yields_then fun _ => ?_
    refine .ite (.bind (P := fun b => AllPlain (b.toList.flatMap fun b => Stmt.allSites b.stmts))
      (.pure allPlain_nil) ?body) (.bind (.map (yields_statements n).2.1 ?some) ?body)
    case some => exact fun b hb => hb.append allPlain_nil
    case body => exact fun body hbody => yields_then fun _ => .pure (hhead.append hbody)
  unfold functionRest
  refine yields_then fun _ => yields_then fun _ => yields_then fun _ => .ite ?_ (.ite ?_ ?_)
  · exact yields_then fun _ => hrest []
  · exact hrest []
  · exact yields_then hrest

theorem yields_topLevel (n : Nat) : Yields (topLevel n) fun d => AllPlain d.sites := by
  unfold topLevel
  refine yields_then fun _ => (yields_head n).bind fun h hh => ?_
  split
  · exact .pure hh
  · exact (yields_functionRest n _ _ _ _).bind fun f hf => .pure hf

theorem yields_topLevels (n : Nat) :
    Yields (topLevels n) fun unit => AllPlain (TranslationUnit.sites unit) := by
  induction n with
  | zero =>
    unfold topLevels
    exact yields_unfinished
  | succ n ih =>
    unfold topLevels
    refine yields_then fun _ => .ite (.pure allPlain_nil) ?_
    exact (yields_topLevel n).bind fun d hd => ih.bind fun ds hds => .pure (hd.append hds)

end Parse

/-- In the tree of a parsed source the instances of blocks have no initializer. -/
theorem parse_allPlain {source : String} {unit : TranslationUnit} (h : parse source = .ok unit) :
    AllPlain (TranslationUnit.sites unit) := by
  obtain ⟨tokens, -, hparse⟩ := parse_eq_ok h
  rcases parseTokens_eq_ok hparse with ⟨rfl, rfl⟩ | ⟨t, ts, stop, rfl, hrun⟩
  · exact allPlain_nil
  · exact Parse.yields_topLevels _ _ unit stop hrun

end Shader
