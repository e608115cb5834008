import Shader.Parse
import Shader.Proofs.Parse.Expr

/-! Nothing is recorded in the tree of a parsed unit. -/

namespace Shader

namespace Parse

theorem gives_layoutItems (n : Nat) : Gives (layoutItems n) fun _ => True := by
  induction n with
  | zero =>
    unfold layoutItems
    exact gives_unfinished
  | succ n ih =>
    unfold layoutItems
    refine gives_here.bind fun _ _ => gives_kind.bind fun k _ => ?_
    split
    · refine gives_advance.bind fun _ _ => Gives.bind (P := fun _ => True) ?_ fun _ _ => ?_
      · refine (gives_accept _).bind fun _ _ => .ite (gives_kind.bind fun k _ => ?_) (.pure trivial)
        split
        · exact gives_advance.bind fun _ _ => .pure trivial
        · exact gives_expected _
      · refine (gives_spanFrom _).bind fun _ _ => (gives_accept _).bind fun _ _ => .ite ?_ ?_
        · exact ih.bind fun _ _ => .pure trivial
        · exact (gives_expect _).bind fun _ _ => .pure trivial
    · exact gives_expected _

theorem gives_qualifierRun : ∀ n run, Gives (qualifierRun n run) fun _ => True
  | 0, _ => by
    unfold qualifierRun
    exact gives_unfinished
  | n + 1, run => by
    have hnext : ∀ next, Gives (advance >>= fun _ => qualifierRun n next) fun _ => True :=
      fun next => gives_advance.bind fun _ _ => gives_qualifierRun n next
    unfold qualifierRun
    refine gives_kind.bind fun k _ => ?_
    dsimp only
    split
    · refine .ite (gives_here.bind fun _ _ => ?_) (hnext _)
      exact Gives.bind (P := fun _ => True) .throw fun _ _ => hnext _
    · split
      · exact hnext _
      · split
        · exact hnext _
        · refine .ite (hnext _) (.ite (hnext _) (.ite ?_ (.pure trivial)))
          refine gives_advance.bind fun _ _ => (gives_expect _).bind fun _ _ => ?_
          exact (gives_layoutItems n).bind fun _ _ => gives_qualifierRun n _

theorem gives_qualifiers (n : Nat) : Gives (qualifiers n) fun _ => True := by
  unfold qualifiers
  refine gives_here.bind fun _ _ => gives_get.bind fun _ _ => .ite ?_ (.pure trivial)
  refine (gives_qualifierRun n _).bind fun _ _ => (gives_spanFrom _).bind fun _ _ => ?_
  refine .ite ?_ (.pure trivial)
  split
  · exact .pure trivial
  · exact .pure trivial
  · exact .throw

theorem gives_memberNames (n : Nat) : Gives (memberNames n) fun ms =>
    Part.All Part.Bare (ms.flatMap MemberName.parts) := by
  induction n with
  | zero =>
    unfold memberNames
    exact gives_unfinished
  | succ n ih =>
    unfold memberNames
    refine gives_name.bind fun _ _ => (gives_arraySuffix n).bind fun array harray => ?_
    refine (gives_spanFrom _).bind fun _ _ => (gives_accept _).bind fun _ _ => .ite ?_ ?_
    · refine ih.bind fun ms hms => .pure ?_
      exact Part.all_append.mpr ⟨harray, hms⟩
    · refine (gives_expect _).bind fun _ _ => .pure ?_
      exact Part.all_append.mpr ⟨harray, Part.all_nil⟩

theorem gives_specNote (n : Nat) (start : Span) :
    Gives (specNote n start) fun note => PlainSuffix note.array :=
  (gives_arraySuffix n).bind fun _ harray => (gives_spanFrom _).bind fun _ _ => .pure harray

mutual

theorem gives_typeSpec : ∀ n, Gives (typeSpec n) fun spec => Part.All Part.Bare spec.parts
  | 0 => by
    unfold typeSpec
    exact gives_unfinished
  | n + 1 => by
    unfold typeSpec
    refine gives_here.bind fun start _ => gives_kind.bind fun k _ => ?_
    split
    · refine gives_advance.bind fun _ _ => gives_atIdentifier.bind fun _ _ => ?_
      refine .ite (.bind (.map gives_name ?tag) ?members)
        (.bind (P := fun tag => ∀ x, tag = some x → IsTag x) (.pure (by simp)) ?members)
      case tag => exact fun p hp x hx => Option.some.inj hx ▸ hp
      case members =>
        intro tag htag
        refine (gives_expect _).bind fun _ _ => (gives_memberLines n).bind fun ms hms => ?_
        refine (gives_spanFrom _).bind fun _ _ => ?_
        refine (gives_specNote n start).bind fun note hnote => .pure ?_
        refine Part.all_append.mpr ⟨Part.all_append.mpr ⟨?_, hms⟩, hnote⟩
        cases tag with
        | none => exact Part.all_nil
        | some x => exact Part.all_cons.mpr ⟨htag x rfl, Part.all_nil⟩
    · refine gives_advance.bind fun _ _ => (gives_specNote n start).bind fun note hnote => ?_
      split
      · exact .pure hnote
      · exact .pure hnote
    · exact gives_expected _

theorem gives_memberLines : ∀ n, Gives (memberLines n) fun ms => Part.All Part.Bare (memberParts ms)
  | 0 => by
    unfold memberLines
    exact gives_unfinished
  | n + 1 => by
    unfold memberLines
    refine gives_kind.bind fun k _ => .ite ?_ ?_
    · exact (gives_expect _).bind fun _ _ => .pure Part.all_nil
    · refine gives_here.bind fun _ _ => (gives_qualifiers n).bind fun _ _ => ?_
      refine (gives_typeSpec n).bind fun spec hspec => ?_
      refine (gives_memberNames n).bind fun names hnames => (gives_spanFrom _).bind fun _ _ => ?_
      refine (gives_memberLines n).bind fun ms hms => .pure ?_
      exact Part.all_append.mpr ⟨Part.all_append.mpr ⟨hspec, hnames⟩, hms⟩

end

theorem gives_declarator (n : Nat) (x : String) (start : Span) :
    Gives (declarator n x start) fun d => Part.All Part.Bare d.parts := by
  unfold declarator
  refine (gives_arraySuffix n).bind fun array harray => (gives_accept _).bind fun _ _ => ?_
  refine .ite (.bind (.map (gives_assignment n) ?some) ?init)
    (.bind (P := fun init => ∀ e, init = some e → Plain e) (.pure (by simp)) ?init)
  case some => exact fun e he a ha => Option.some.inj ha ▸ he
  case init =>
    intro init hinit
    refine (gives_spanFrom _).bind fun _ _ => .pure ?_
    refine Part.all_append.mpr ⟨Part.all_append.mpr ⟨harray, ?_⟩, Part.all_nil⟩
    simpa [Plain] using hinit

theorem gives_moreDeclarators : ∀ n, Gives (moreDeclarators n) fun ds =>
    Part.All Part.Bare (ds.flatMap Declarator.parts)
  | 0 => by
    unfold moreDeclarators
    exact gives_unfinished
  | n + 1 => by
    unfold moreDeclarators
    refine (gives_accept _).bind fun _ _ => .ite ?_ ?_
    · refine gives_name.bind fun _ _ => (gives_declarator n _ _).bind fun d hd => ?_
      refine (gives_moreDeclarators n).bind fun ds hds => .pure ?_
      exact Part.all_append.mpr ⟨hd, hds⟩
    · exact (gives_expect _).bind fun _ _ => .pure Part.all_nil

theorem gives_invariantTargets :
    ∀ n, Gives (invariantTargets n) fun ts => ∀ t ∈ ts, t.binding = none
  | 0 => by
    unfold invariantTargets
    exact gives_unfinished
  | n + 1 => by
    unfold invariantTargets
    refine gives_name.bind fun _ _ => (gives_accept _).bind fun _ _ => .ite ?_ ?_
    · refine (gives_invariantTargets n).bind fun ts hts => .pure ?_
      simpa using hts
    · exact (gives_expect _).bind fun _ _ => .pure (by simp)

theorem gives_interfaceBlock (n : Nat) (quals : Qualifiers) :
    Gives (interfaceBlock n quals) fun b => Part.All Part.Bare b.parts := by
  unfold interfaceBlock
  refine gives_name.bind fun _ _ => (gives_expect _).bind fun _ _ => ?_
  refine (gives_memberLines n).bind fun ms hms => gives_atIdentifier.bind fun _ _ => .ite ?_ ?_
  · refine gives_name.bind fun _ _ => (gives_arraySuffix n).bind fun array harray => ?_
    refine (gives_spanFrom _).bind fun _ _ => (gives_expect _).bind fun _ _ => .pure ?_
    simpa [InterfaceBlock.parts, Declarator.parts] using ⟨hms, harray⟩
  · refine (gives_expect _).bind fun _ _ => .pure ?_
    simpa [InterfaceBlock.parts] using hms

def Head.Plain : Head → Prop
  | .declaration d => Part.All Part.Bare d.parts
  | .function _ spec _ _ => Part.All Part.Bare spec.parts

theorem gives_atInvariantList : Gives atInvariantList fun _ => True :=
  gives_get.bind fun _ _ => .pure trivial

theorem gives_head (n : Nat) : Gives (head n) Head.Plain := by
  unfold head
  refine gives_here.bind fun _ _ => (gives_accept _).bind fun _ _ => .ite ?_ ?_
  · refine gives_kind.bind fun k _ => ?_
    split
    · refine gives_advance.bind fun _ _ => (gives_typeSpec n).bind fun spec hspec => ?_
      exact (gives_expect _).bind fun _ _ => (gives_spanFrom _).bind fun _ _ => .pure hspec
    · exact gives_here.bind fun _ _ => .throw
  · refine gives_atInvariantList.bind fun _ _ => .ite ?_ ?_
    · refine gives_advance.bind fun _ _ => (gives_invariantTargets n).bind fun ts hts => ?_
      refine (gives_spanFrom _).bind fun _ _ => .pure ?_
      refine Part.all_flatMap.mpr fun t ht => ?_
      simp [hts t ht]
    · refine (gives_qualifiers n).bind fun quals _ => gives_get.bind fun _ _ => .ite ?_ ?_
      · refine (gives_interfaceBlock n quals).bind fun b hb => ?_
        exact (gives_spanFrom _).bind fun _ _ => .pure hb
      · refine (gives_typeSpec n).bind fun spec hspec => (gives_accept _).bind fun _ _ => .ite ?_ ?_
        · refine (gives_spanFrom _).bind fun _ _ => .pure ?_
          exact Part.all_append.mpr ⟨hspec, Part.all_nil⟩
        · refine gives_name.bind fun _ _ => (gives_isAt _).bind fun _ _ => .ite (.pure hspec) ?_
          refine (gives_declarator n _ _).bind fun d hd => ?_
          refine (gives_moreDeclarators n).bind fun ds hds => ?_
          refine (gives_spanFrom _).bind fun _ _ => .pure ?_
          exact Part.all_append.mpr ⟨hspec, Part.all_append.mpr ⟨hd, hds⟩⟩

theorem gives_localDeclaration (n : Nat) :
    Gives (localDeclaration n) fun d => Part.All Part.Bare d.parts := by
  unfold localDeclaration
  refine (gives_head n).bind fun h hh => ?_
  split
  · exact .pure hh
  · exact .throw

theorem gives_expressionStatement (n : Nat) :
    Gives (expressionStatement n) fun s => Part.All Part.Bare s.parts := by
  unfold expressionStatement
  refine gives_here.bind fun _ _ => (gives_expression n).bind fun e he => ?_
  exact (gives_expect _).bind fun _ _ => (gives_spanFrom _).bind fun _ _ => .pure he

theorem gives_simpleStatement (n : Nat) :
    Gives (simpleStatement n) fun s => Part.All Part.Bare s.parts := by
  unfold simpleStatement
  refine gives_get.bind fun _ _ => .ite ?_ (gives_expressionStatement n)
  exact (gives_localDeclaration n).bind fun d hd => .pure hd

theorem gives_enclosed (n : Nat) : Gives (enclosed n) Plain := by
  unfold enclosed
  refine (gives_expect _).bind fun _ _ => (gives_expression n).bind fun e he => ?_
  exact (gives_expect _).bind fun _ _ => .pure he

theorem gives_expressionBefore (n : Nat) (stop : Mark) :
    Gives (expressionBefore? n stop) fun e => Part.All Part.Bare (e.toList.flatMap Expr.parts) := by
  unfold expressionBefore?
  refine (gives_isAt _).bind fun _ _ => .ite (.pure Part.all_nil) ?_
  exact (gives_expression n).map fun e he => Part.all_append.mpr ⟨he, Part.all_nil⟩

mutual

theorem gives_statement : ∀ n, Gives (statement n) fun s => Part.All Part.Bare s.parts
  | 0 => by
    unfold statement
    exact gives_unfinished
  | n + 1 => by
    unfold statement
    refine gives_here.bind fun start _ => gives_kind.bind fun k _ => ?_
    split
    · -- a block
      refine (gives_block n).bind fun b hb => ?_
      exact (gives_spanFrom _).bind fun _ _ => .pure hb
    · -- `if`
      refine gives_advance.bind fun _ _ => (gives_enclosed n).bind fun c hc => ?_
      refine (gives_statement n).bind fun t ht => (gives_accept _).bind fun _ _ => .ite ?_ ?_
      · refine (gives_statement n).bind fun e he => (gives_spanFrom _).bind fun _ _ => .pure ?_
        exact Part.all_append.mpr ⟨Part.all_append.mpr ⟨hc, ht⟩, he⟩
      · exact (gives_spanFrom _).bind fun _ _ => .pure (Part.all_append.mpr ⟨hc, ht⟩)
    · -- `switch`
      refine gives_advance.bind fun _ _ => (gives_enclosed n).bind fun e he => ?_
      refine (gives_block n).bind fun b hb => (gives_spanFrom _).bind fun _ _ => .pure ?_
      exact Part.all_append.mpr ⟨he, hb⟩
    · -- `case`
      refine gives_advance.bind fun _ _ => (gives_expression n).bind fun e he => ?_
      exact (gives_expect _).bind fun _ _ => (gives_spanFrom _).bind fun _ _ => .pure he
    · -- `default`
      refine gives_advance.bind fun _ _ => (gives_expect _).bind fun _ _ => ?_
      exact (gives_spanFrom _).bind fun _ _ => .pure Part.all_nil
    · -- `while`
      refine gives_advance.bind fun _ _ => (gives_enclosed n).bind fun c hc => ?_
      refine (gives_statement n).bind fun body hbody => (gives_spanFrom _).bind fun _ _ => .pure ?_
      exact Part.all_append.mpr ⟨hc, hbody⟩
    · -- `do`
      refine gives_advance.bind fun _ _ => (gives_statement n).bind fun body hbody => ?_
      refine (gives_expect _).bind fun _ _ => (gives_enclosed n).bind fun c hc => ?_
      refine (gives_expect _).bind fun _ _ => (gives_spanFrom _).bind fun _ _ => .pure ?_
      exact Part.all_append.mpr ⟨hc, hbody⟩
    · -- `for`
      refine gives_advance.bind fun _ _ => (gives_expect _).bind fun _ _ => ?_
      refine (gives_accept _).bind fun _ _ => ?_
      refine .ite (.bind (P := fun init => ∀ s, init = some s → Part.All Part.Bare s.parts)
        (.pure (by simp)) ?loop) (.bind (.map (gives_simpleStatement n) ?init) ?loop)
      case init => exact fun s hs t ht => Option.some.inj ht ▸ hs
      case loop =>
        intro init hinit
        refine (gives_expressionBefore n _).bind fun c hc => (gives_expect _).bind fun _ _ => ?_
        refine (gives_expressionBefore n _).bind fun u hu => (gives_expect _).bind fun _ _ => ?_
        refine (gives_statement n).bind fun body hbody => ?_
        refine (gives_spanFrom _).bind fun _ _ => .pure ?_
        cases init with
        | none => exact Part.all_append.mpr ⟨Part.all_append.mpr ⟨hc, hu⟩, hbody⟩
        | some s =>
          have hs := hinit s rfl
          exact Part.all_append.mpr
            ⟨Part.all_append.mpr ⟨Part.all_append.mpr ⟨hs, hc⟩, hu⟩, hbody⟩
    · -- `continue`
      refine gives_advance.bind fun _ _ => (gives_expect _).bind fun _ _ => ?_
      exact (gives_spanFrom _).bind fun _ _ => .pure Part.all_nil
    · -- `break`
      refine gives_advance.bind fun _ _ => (gives_expect _).bind fun _ _ => ?_
      exact (gives_spanFrom _).bind fun _ _ => .pure Part.all_nil
    · -- `discard`
      refine gives_advance.bind fun _ _ => (gives_expect _).bind fun _ _ => ?_
      exact (gives_spanFrom _).bind fun _ _ => .pure Part.all_nil
    · -- `return`
      refine gives_advance.bind fun _ _ => (gives_expressionBefore n _).bind fun e he => ?_
      refine (gives_expect _).bind fun _ _ => (gives_spanFrom _).bind fun _ _ => .pure ?_
      cases e with
      | none => exact Part.all_nil
      | some e => exact (Part.all_append.mp he).1
    · exact gives_advance.bind fun _ _ => .pure Part.all_nil
    · exact gives_simpleStatement n

theorem gives_block : ∀ n, Gives (block n) fun b => Part.All Part.Bare (Stmt.allParts b.stmts)
  | 0 => by
    unfold block
    exact gives_unfinished
  | n + 1 => by
    unfold block
    refine gives_here.bind fun _ _ => (gives_expect _).bind fun _ _ => ?_
    exact (gives_statements n).bind fun ss hss => (gives_spanFrom _).bind fun _ _ => .pure hss

theorem gives_statements : ∀ n, Gives (statements n) fun ss => Part.All Part.Bare (Stmt.allParts ss)
  | 0 => by
    unfold statements
    exact gives_unfinished
  | n + 1 => by
    unfold statements
    refine gives_kind.bind fun k _ => .ite ?_ ?_
    · exact (gives_expect _).bind fun _ _ => .pure Part.all_nil
    · refine (gives_statement n).bind fun s hs => (gives_statements n).bind fun ss hss => .pure ?_
      exact Part.all_append.mpr ⟨hs, hss⟩

end

theorem gives_parameter (n : Nat) : Gives (parameter n) fun p => Part.All Part.Bare p.parts := by
  unfold parameter
  refine gives_here.bind fun _ _ => (gives_qualifiers n).bind fun _ _ => ?_
  refine (gives_typeSpec n).bind fun spec hspec => gives_atIdentifier.bind fun _ _ => .ite ?_ ?_
  · refine gives_name.bind fun _ _ => (gives_arraySuffix n).bind fun array harray => ?_
    refine (gives_spanFrom _).bind fun _ _ => .pure ?_
    exact Part.all_append.mpr ⟨Part.all_append.mpr ⟨hspec, harray⟩, Part.all_nil⟩
  · refine (gives_spanFrom _).bind fun _ _ => .pure ?_
    exact Part.all_append.mpr ⟨Part.all_append.mpr ⟨hspec, Part.all_nil⟩, Part.all_nil⟩

theorem gives_parameters : ∀ n, Gives (parameters n) fun ps =>
    Part.All Part.Bare (ps.flatMap ParamDecl.parts)
  | 0 => by
    unfold parameters
    exact gives_unfinished
  | n + 1 => by
    unfold parameters
    refine (gives_parameter n).bind fun p hp => (gives_accept _).bind fun _ _ => .ite ?_ ?_
    · refine (gives_parameters n).bind fun ps hps => .pure ?_
      exact Part.all_append.mpr ⟨hp, hps⟩
    · exact .pure (Part.all_append.mpr ⟨hp, Part.all_nil⟩)

theorem gives_functionRest (n : Nat) (quals : Qualifiers) {spec : TypeSpec} (x : String)
    (start : Span) (hspec : Part.All Part.Bare spec.parts) :
    Gives (functionRest n quals spec x start) fun f => Part.All Part.Bare f.parts := by
  have hrest : ∀ params, Part.All Part.Bare (params.flatMap ParamDecl.parts) → Gives (do
      expectMark .rParen
      let body ← if ← acceptMark .semi then pure none else some <$> block n
      return FunctionDecl.mk quals spec x params body (← spanFrom start))
      fun f => Part.All Part.Bare f.parts := by
    intro params hparams
    refine (gives_expect _).bind fun _ _ => (gives_accept _).bind fun _ _ => ?_
    refine .ite (.bind (P := fun b => Part.All Part.Bare
        (b.toList.flatMap fun b => Stmt.allParts b.stmts)) (.pure Part.all_nil) ?body)
      (.bind (.map (gives_block n) ?some) ?body)
    case some => exact fun b hb => Part.all_append.mpr ⟨hb, Part.all_nil⟩
    case body =>
      intro body hbody
      refine (gives_spanFrom _).bind fun _ _ => .pure ?_
      exact Part.all_append.mpr ⟨Part.all_append.mpr ⟨hspec, hparams⟩, hbody⟩
  unfold functionRest
  refine (gives_expect _).bind fun _ _ => gives_atVoidList.bind fun _ _ => ?_
  refine (gives_isAt _).bind fun _ _ => .ite ?_ (.ite ?_ ?_)
  · exact gives_advance.bind fun _ _ => hrest [] Part.all_nil
  · exact hrest [] Part.all_nil
  · exact (gives_parameters n).bind hrest

theorem gives_topLevel (n : Nat) : Gives (topLevel n) fun d => Part.All Part.Bare d.parts := by
  unfold topLevel
  refine gives_here.bind fun _ _ => (gives_head n).bind fun h hh => ?_
  split
  · exact .pure hh
  · exact (gives_functionRest n _ _ _ hh).bind fun f hf => .pure hf

theorem gives_topLevels : ∀ n, Gives (topLevels n) fun unit =>
    Part.All Part.Bare (TranslationUnit.parts unit)
  | 0 => by
    unfold topLevels
    exact gives_unfinished
  | n + 1 => by
    unfold topLevels
    refine (gives_isAt _).bind fun _ _ => .ite (.pure Part.all_nil) ?_
    refine (gives_topLevel n).bind fun d hd => (gives_topLevels n).bind fun ds hds => .pure ?_
    exact Part.all_append.mpr ⟨hd, hds⟩

end Parse

/-- Nothing is recorded in the tree of a parsed source. -/
theorem parse_bare {source : String} {unit : TranslationUnit} (h : parse source = .ok unit) :
    Part.All Part.Bare (TranslationUnit.parts unit) := by
  obtain ⟨tokens, htokens, hparse⟩ := parse_eq_ok h
  have hscanned := tokenize_isScanned htokens
  rcases parseTokens_eq_ok hparse with ⟨rfl, rfl⟩ | ⟨t, ts, stop, rfl, hrun⟩
  · exact Part.all_nil
  · have hcursor : (Cursor.ofTokens t ts).IsScanned :=
      ⟨hscanned t (by simp), fun u hu => hscanned u (List.mem_cons_of_mem t hu)⟩
    exact (Parse.gives_topLevels _ _ hcursor unit stop hrun).2

end Shader
