import Shader.Proofs.Tree

/-! The places of a tree that a pass visits: the expressions that stand in no other one, and the
names that are declared. A pass that rewrites expressions only is a map over these places. -/

namespace Shader

def ArraySuffix.map {α β : Type} (f : α → β) (a : ArraySuffix α) : ArraySuffix β :=
  ⟨a.size.map f, a.span⟩

def MemberName.mapExprs (f : Expr → Expr) (m : MemberName) : MemberName :=
  { m with array := m.array.map (.map f) }

def SpecNote.mapExprs (f : Expr → Expr) (note : SpecNote) : SpecNote :=
  { note with array := note.array.map (.map f) }

mutual

def TypeSpec.mapExprs (f : Expr → Expr) : TypeSpec → TypeSpec
  | .basic b note => .basic b (note.mapExprs f)
  | .named x note => .named x (note.mapExprs f)
  | .struct tag members span note => .struct tag (mapMembers f members) span (note.mapExprs f)

def mapMembers (f : Expr → Expr) : List (Member TypeSpec) → List (Member TypeSpec)
  | [] => []
  | ⟨quals, spec, names, span⟩ :: rest =>
    ⟨quals, spec.mapExprs f, names.map (.mapExprs f), span⟩ :: mapMembers f rest

end

def Declarator.mapSize (f : Expr → Expr) (d : Declarator) : Declarator :=
  { d with array := d.array.map (.map f) }

def Declarator.mapExprs (f : Expr → Expr) (d : Declarator) : Declarator :=
  { d with array := d.array.map (.map f), init := d.init.map f }

/-- The instance of a block takes no initializer. -/
def InterfaceBlock.mapExprs (f : Expr → Expr) (b : InterfaceBlock) : InterfaceBlock :=
  { b with members := mapMembers f b.members, instance? := b.instance?.map (.mapSize f) }

def Declaration.mapExprs (f : Expr → Expr) : Declaration → Declaration
  | .vars q spec ds span => .vars q (spec.mapExprs f) (ds.map (.mapExprs f)) span
  | .block b span => .block (b.mapExprs f) span
  | .precision p spec span => .precision p (spec.mapExprs f) span
  | .invariant targets span => .invariant targets span

mutual

def Stmt.mapExprs (f : Expr → Expr) : Stmt → Stmt
  | .expr e span => .expr (f e) span
  | .empty span => .empty span
  | .block ⟨stmts, inner⟩ span => .block ⟨mapStmts f stmts, inner⟩ span
  | .decl d span => .decl (d.mapExprs f) span
  | .branch c t none span => .branch (f c) (t.mapExprs f) none span
  | .branch c t (some e) span => .branch (f c) (t.mapExprs f) (some (e.mapExprs f)) span
  | .switch e ⟨stmts, inner⟩ span => .switch (f e) ⟨mapStmts f stmts, inner⟩ span
  | .caseLabel e span => .caseLabel (f e) span
  | .defaultLabel span => .defaultLabel span
  | .whileLoop c body span => .whileLoop (f c) (body.mapExprs f) span
  | .doLoop body c span => .doLoop (body.mapExprs f) (f c) span
  | .forLoop none c u body span => .forLoop none (c.map f) (u.map f) (body.mapExprs f) span
  | .forLoop (some init) c u body span =>
    .forLoop (some (init.mapExprs f)) (c.map f) (u.map f) (body.mapExprs f) span
  | .continueLoop span => .continueLoop span
  | .breakLoop span => .breakLoop span
  | .giveBack value span => .giveBack (value.map f) span
  | .discard span => .discard span

def mapStmts (f : Expr → Expr) : List Stmt → List Stmt
  | [] => []
  | s :: ss => s.mapExprs f :: mapStmts f ss

end

def ParamDecl.mapExprs (f : Expr → Expr) (p : ParamDecl) : ParamDecl :=
  { p with spec := p.spec.mapExprs f, array := p.array.map (.map f) }

def FunctionDecl.mapExprs (f : Expr → Expr) (g : FunctionDecl) : FunctionDecl :=
  { g with
    spec := g.spec.mapExprs f
    params := g.params.map (.mapExprs f)
    body := g.body.map fun b => { b with stmts := mapStmts f b.stmts } }

def TopLevel.mapExprs (f : Expr → Expr) : TopLevel → TopLevel
  | .declaration d => .declaration (d.mapExprs f)
  | .function g => .function (g.mapExprs f)

def TranslationUnit.mapExprs (f : Expr → Expr) (unit : TranslationUnit) : TranslationUnit :=
  unit.map (.mapExprs f)

inductive Site where
  /-- An expression that stands in no other one and initializes nothing. -/
  | root (e : Expr)
  /-- A declarator with its initializer. -/
  | variable (q : Qualifiers) (d : Declarator)
  | blockInstance (d : Declarator)
  | parameter (p : ParamDecl)

def suffixSites (suffix : Option (ArraySuffix Expr)) : List Site :=
  (suffix.bind ArraySuffix.size).toList.map .root

def MemberName.sites (m : MemberName) : List Site :=
  suffixSites m.array

mutual

def TypeSpec.sites : TypeSpec → List Site
  | .basic _ note | .named _ note => suffixSites note.array
  | .struct _ members _ note => memberSites members ++ suffixSites note.array

def memberSites : List (Member TypeSpec) → List Site
  | [] => []
  | ⟨_, spec, names, _⟩ :: rest => spec.sites ++ names.flatMap MemberName.sites ++ memberSites rest

end

def Declarator.sites (q : Qualifiers) (d : Declarator) : List Site :=
  suffixSites d.array ++ [.variable q d]

def InterfaceBlock.sites (b : InterfaceBlock) : List Site :=
  memberSites b.members ++
    b.instance?.toList.flatMap fun d => suffixSites d.array ++ [.blockInstance d]

def Declaration.sites : Declaration → List Site
  | .vars q spec ds _ => spec.sites ++ ds.flatMap (Declarator.sites q)
  | .block b _ => b.sites
  | .precision _ spec _ => spec.sites
  | .invariant _ _ => []

mutual

def Stmt.sites : Stmt → List Site
  | .expr e _ | .caseLabel e _ | .giveBack (some e) _ => [.root e]
  | .block ⟨stmts, _⟩ _ => Stmt.allSites stmts
  | .decl d _ => d.sites
  | .branch c t none _ => .root c :: t.sites
  | .branch c t (some e) _ => .root c :: (t.sites ++ e.sites)
  | .switch e ⟨stmts, _⟩ _ => .root e :: Stmt.allSites stmts
  | .whileLoop c body _ | .doLoop body c _ => .root c :: body.sites
  | .forLoop none c u body _ => c.toList.map .root ++ u.toList.map .root ++ body.sites
  | .forLoop (some init) c u body _ =>
    init.sites ++ c.toList.map .root ++ u.toList.map .root ++ body.sites
  | .giveBack none _ | .empty _ | .defaultLabel _ | .continueLoop _ | .breakLoop _
  | .discard _ => []

def Stmt.allSites : List Stmt → List Site
  | [] => []
  | s :: ss => s.sites ++ Stmt.allSites ss

end

def ParamDecl.sites (p : ParamDecl) : List Site :=
  p.spec.sites ++ suffixSites p.array ++ [.parameter p]

def FunctionDecl.sites (f : FunctionDecl) : List Site :=
  f.spec.sites ++ f.params.flatMap ParamDecl.sites ++
    f.body.toList.flatMap fun b => Stmt.allSites b.stmts

def TopLevel.sites : TopLevel → List Site
  | .declaration d => d.sites
  | .function f => f.sites

def TranslationUnit.sites (unit : TranslationUnit) : List Site :=
  unit.flatMap TopLevel.sites

def Site.mapExprs (f : Expr → Expr) : Site → Site
  | .root e => .root (f e)
  | .variable q d => .variable q (d.mapExprs f)
  | .blockInstance d => .blockInstance (d.mapSize f)
  | .parameter p => .parameter (p.mapExprs f)

section Rewritten

variable (f : Expr → Expr)

-- The equations are long to make; made here, they are there for all the proofs below.
attribute [local simp] TypeSpec.mapExprs mapMembers TypeSpec.sites memberSites
attribute [local simp] Stmt.mapExprs mapStmts Stmt.sites Stmt.allSites

theorem suffixSites_map (suffix : Option (ArraySuffix Expr)) :
    suffixSites (suffix.map (.map f)) = (suffixSites suffix).map (.mapExprs f) := by
  rcases suffix with _ | ⟨_ | e, span⟩ <;> rfl

theorem exprSites_map (e : Option Expr) :
    (e.map f).toList.map Site.root = (e.toList.map Site.root).map (.mapExprs f) := by
  cases e <;> rfl

theorem flatMap_sites_map {α : Type} {sites : α → List Site} {g : α → α}
    (h : ∀ a, sites (g a) = (sites a).map (.mapExprs f)) (as : List α) :
    (as.map g).flatMap sites = (as.flatMap sites).map (.mapExprs f) := by
  simp only [List.flatMap_map, List.map_flatMap, h]

theorem MemberName.sites_mapExprs (m : MemberName) :
    (m.mapExprs f).sites = m.sites.map (.mapExprs f) :=
  suffixSites_map f m.array

theorem memberSites_map_of {ms : List (Member TypeSpec)}
    (h : ∀ m ∈ ms, (m.spec.mapExprs f).sites = m.spec.sites.map (.mapExprs f)) :
    memberSites (mapMembers f ms) = (memberSites ms).map (.mapExprs f) := by
  induction ms with
  | nil => rfl
  | cons m ms ih =>
    simp only [mapMembers, memberSites, List.map_append, h m (by simp),
      flatMap_sites_map f (MemberName.sites_mapExprs f), ih fun a ha => h a (by simp [ha])]

theorem TypeSpec.sites_mapExprs (spec : TypeSpec) :
    (spec.mapExprs f).sites = spec.sites.map (.mapExprs f) := by
  induction spec using TypeSpec.induction with
  | basic b note | named x note => exact suffixSites_map f note.array
  | struct tag members span note ih =>
    simp only [TypeSpec.mapExprs, TypeSpec.sites, SpecNote.mapExprs, memberSites_map_of f ih,
      suffixSites_map, List.map_append]

theorem memberSites_map (ms : List (Member TypeSpec)) :
    memberSites (mapMembers f ms) = (memberSites ms).map (.mapExprs f) :=
  memberSites_map_of f fun m _ => m.spec.sites_mapExprs f

theorem Declarator.sites_mapExprs (q : Qualifiers) (d : Declarator) :
    (d.mapExprs f).sites q = (d.sites q).map (.mapExprs f) := by
  simp only [Declarator.sites, List.map_append, ← suffixSites_map]
  rfl

theorem InterfaceBlock.sites_mapExprs (b : InterfaceBlock) :
    (b.mapExprs f).sites = b.sites.map (.mapExprs f) := by
  obtain ⟨q, name, members, d⟩ := b
  cases d with
  | none => simp [InterfaceBlock.sites, InterfaceBlock.mapExprs, memberSites_map]
  | some d =>
    simp [InterfaceBlock.sites, InterfaceBlock.mapExprs, memberSites_map, Declarator.mapSize,
      suffixSites_map, Site.mapExprs]

theorem Declaration.sites_mapExprs (d : Declaration) :
    (d.mapExprs f).sites = d.sites.map (.mapExprs f) := by
  cases d with
  | vars q spec ds span =>
    simp only [Declaration.mapExprs, Declaration.sites, List.map_append, spec.sites_mapExprs,
      flatMap_sites_map f (Declarator.sites_mapExprs f q)]
  | block b span => exact b.sites_mapExprs f
  | precision p spec span => exact spec.sites_mapExprs f
  | invariant targets span => rfl

theorem Stmt.allSites_map_of {ss : List Stmt}
    (h : ∀ s ∈ ss, (s.mapExprs f).sites = s.sites.map (.mapExprs f)) :
    Stmt.allSites (mapStmts f ss) = (Stmt.allSites ss).map (.mapExprs f) := by
  induction ss with
  | nil => rfl
  | cons s ss ih =>
    simp only [mapStmts, Stmt.allSites, List.map_append, h s (by simp),
      ih fun a ha => h a (by simp [ha])]

theorem Stmt.sites_mapExprs (s : Stmt) : (s.mapExprs f).sites = s.sites.map (.mapExprs f) := by
  induction s using Stmt.induction with
  | expr e span | caseLabel e span => rfl
  | giveBack value span => cases value <;> rfl
  | empty | defaultLabel | continueLoop | breakLoop | discard => rfl
  | block stmts inner span ih => exact Stmt.allSites_map_of f ih
  | decl d span => exact d.sites_mapExprs f
  | branch c t e span iht ihe =>
    cases e with
    | none => simp only [Stmt.mapExprs, Stmt.sites, List.map_cons, iht, Site.mapExprs]
    | some e =>
      simp only [Stmt.mapExprs, Stmt.sites, List.map_cons, List.map_append, iht, ihe e rfl,
        Site.mapExprs]
  | switch e stmts inner span ih =>
    simp only [Stmt.mapExprs, Stmt.sites, List.map_cons, Stmt.allSites_map_of f ih, Site.mapExprs]
  | whileLoop c body span ih | doLoop body c span ih =>
    simp only [Stmt.mapExprs, Stmt.sites, List.map_cons, ih, Site.mapExprs]
  | forLoop init c u body span ihinit ihbody =>
    cases init with
    | none => simp only [Stmt.mapExprs, Stmt.sites, List.map_append, ihbody, exprSites_map]
    | some s =>
      simp only [Stmt.mapExprs, Stmt.sites, List.map_append, ihinit s rfl, ihbody, exprSites_map]

theorem ParamDecl.sites_mapExprs (p : ParamDecl) :
    (p.mapExprs f).sites = p.sites.map (.mapExprs f) := by
  simp only [ParamDecl.sites, List.map_append, ← suffixSites_map, ← p.spec.sites_mapExprs f]
  rfl

theorem FunctionDecl.sites_mapExprs (g : FunctionDecl) :
    (g.mapExprs f).sites = g.sites.map (.mapExprs f) := by
  simp only [FunctionDecl.sites, FunctionDecl.mapExprs, List.map_append, g.spec.sites_mapExprs,
    flatMap_sites_map f (ParamDecl.sites_mapExprs f)]
  cases g.body with
  | none => rfl
  | some b =>
    have hbody := Stmt.allSites_map_of f fun s (_ : s ∈ b.stmts) => s.sites_mapExprs f
    simp [hbody]

theorem TranslationUnit.sites_mapExprs (unit : TranslationUnit) :
    TranslationUnit.sites (TranslationUnit.mapExprs f unit) =
      (TranslationUnit.sites unit).map (.mapExprs f) := by
  refine flatMap_sites_map f (fun d => ?_) unit
  cases d with
  | declaration d => exact d.sites_mapExprs f
  | function g => exact g.sites_mapExprs f

end Rewritten

/-- The expression and the ones inside it. -/
def Expr.nodes (e : Expr) : List Expr :=
  e.parts.filterMap Part.expr?

theorem Expr.self_mem_nodes (e : Expr) : e ∈ e.nodes :=
  List.mem_filterMap.mpr ⟨.node e, e.node_mem_parts, rfl⟩

def Site.nodes : Site → List Expr
  | .root e => e.nodes
  | .variable _ d | .blockInstance d => d.init.toList.flatMap Expr.nodes
  | .parameter _ => []

mutual

/-- The expression and the ones inside it that checking visits; it leaves out the size in the
brackets of a callee. -/
def Expr.visited : Expr → List Expr
  | .int text n => [.int text n]
  | .float text n => [.float text n]
  | .bool b n => [.bool b n]
  | .var x binding n => [.var x binding n]
  | .unary op e n => .unary op e n :: e.visited
  | .update op before e n => .update op before e n :: e.visited
  | .binary op l r n => .binary op l r n :: (l.visited ++ r.visited)
  | .assign op t v n => .assign op t v n :: (t.visited ++ v.visited)
  | .ternary c t e n => .ternary c t e n :: (c.visited ++ t.visited ++ e.visited)
  | .comma l r n => .comma l r n :: (l.visited ++ r.visited)
  | .call callee suffix args target n =>
    .call callee suffix args target n :: Expr.allVisited args
  | .field e x n => .field e x n :: e.visited
  | .index a i n => .index a i n :: (a.visited ++ i.visited)
  | .length e n => .length e n :: e.visited

def Expr.allVisited : List Expr → List Expr
  | [] => []
  | e :: es => e.visited ++ Expr.allVisited es

end

def Site.visited : Site → List Expr
  | .root e => e.visited
  | .variable _ d | .blockInstance d => d.init.toList.flatMap Expr.visited
  | .parameter _ => []

def TranslationUnit.visited (unit : TranslationUnit) : List Expr :=
  (TranslationUnit.sites unit).flatMap Site.visited

section Nodes

-- As above, for the parts of a tree.
attribute [local simp] Expr.visited Expr.allVisited
attribute [local simp] TypeSpec.parts memberParts Stmt.parts Stmt.allParts

theorem Expr.mem_allVisited {d : Expr} {es : List Expr} :
    d ∈ Expr.allVisited es ↔ ∃ e ∈ es, d ∈ e.visited := by
  induction es with
  | nil => simp [Expr.allVisited]
  | cons e es ih => simp [Expr.allVisited, ih]

theorem nodes_suffix (suffix : Option (ArraySuffix Expr)) :
    (suffixParts suffix).filterMap Part.expr? = (suffixSites suffix).flatMap Site.nodes := by
  rcases suffix with _ | ⟨_ | e, span⟩
  · rfl
  · rfl
  · exact (List.append_nil _).symm

theorem nodes_optionExpr (e : Option Expr) :
    (e.toList.flatMap Expr.parts).filterMap Part.expr? =
      (e.toList.map Site.root).flatMap Site.nodes := by
  cases e with
  | none => rfl
  | some e => simp [Site.nodes, Expr.nodes]

theorem nodes_bindings (v : Option Variable) :
    (v.toList.map Part.binding).filterMap Part.expr? = [] := by
  cases v <;> rfl

theorem nodes_flatMap {α : Type} {parts : α → List Part} {sites : α → List Site} {as : List α}
    (h : ∀ a ∈ as, (parts a).filterMap Part.expr? = (sites a).flatMap Site.nodes) :
    (as.flatMap parts).filterMap Part.expr? = (as.flatMap sites).flatMap Site.nodes := by
  induction as with
  | nil => rfl
  | cons a as ih =>
    simp only [List.flatMap_cons, List.filterMap_append, List.flatMap_append, h a (by simp),
      ih fun b hb => h b (by simp [hb])]

theorem nodes_members_of {ms : List (Member TypeSpec)}
    (h : ∀ m ∈ ms, m.spec.parts.filterMap Part.expr? = m.spec.sites.flatMap Site.nodes) :
    (memberParts ms).filterMap Part.expr? = (memberSites ms).flatMap Site.nodes := by
  induction ms with
  | nil => rfl
  | cons m ms ih =>
    have hnames := nodes_flatMap fun x (_ : x ∈ m.names) => nodes_suffix x.array
    simp only [memberParts, memberSites, List.filterMap_append, List.flatMap_append,
      h m (by simp), ih fun a ha => h a (by simp [ha])]
    exact congrArg (_ ++ · ++ _) hnames

theorem TypeSpec.nodes_sites (spec : TypeSpec) :
    spec.parts.filterMap Part.expr? = spec.sites.flatMap Site.nodes := by
  induction spec using TypeSpec.induction with
  | basic b note | named x note => exact nodes_suffix note.array
  | struct tag members span note ih =>
    have htag : (tag.toList.map Part.tag).filterMap Part.expr? = [] := by cases tag <;> rfl
    simp only [TypeSpec.parts, TypeSpec.sites, List.filterMap_append, List.flatMap_append, htag,
      nodes_members_of ih, nodes_suffix, List.nil_append]

theorem nodes_members (ms : List (Member TypeSpec)) :
    (memberParts ms).filterMap Part.expr? = (memberSites ms).flatMap Site.nodes :=
  nodes_members_of fun m _ => m.spec.nodes_sites

theorem Declarator.nodes_sites (q : Qualifiers) (d : Declarator) :
    d.parts.filterMap Part.expr? = (d.sites q).flatMap Site.nodes := by
  simp only [Declarator.parts, Declarator.sites, List.filterMap_append, List.flatMap_append,
    nodes_suffix, nodes_bindings, List.append_nil, List.flatMap_singleton, Site.nodes,
    List.filterMap_flatMap]
  rfl

theorem InterfaceBlock.nodes_sites (b : InterfaceBlock) :
    b.parts.filterMap Part.expr? = b.sites.flatMap Site.nodes := by
  simp only [InterfaceBlock.parts, InterfaceBlock.sites, List.filterMap_append,
    List.flatMap_append, nodes_members]
  refine congrArg (_ ++ ·) (nodes_flatMap fun d _ => ?_)
  simp only [Declarator.parts, List.filterMap_append, List.flatMap_append, nodes_suffix,
    nodes_bindings, List.append_nil, List.flatMap_singleton, Site.nodes, List.filterMap_flatMap]
  rfl

theorem Declaration.nodes_sites (d : Declaration) :
    d.parts.filterMap Part.expr? = d.sites.flatMap Site.nodes := by
  cases d with
  | vars q spec ds span =>
    have hds := nodes_flatMap fun d (_ : d ∈ ds) => d.nodes_sites q
    simp only [Declaration.parts, Declaration.sites, List.filterMap_append, List.flatMap_append,
      spec.nodes_sites, hds]
  | block b span => exact b.nodes_sites
  | precision p spec span => exact spec.nodes_sites
  | invariant targets span =>
    simp only [Declaration.parts, Declaration.sites, List.filterMap_flatMap, nodes_bindings]
    simp

theorem Stmt.nodes_allSites_of {ss : List Stmt}
    (h : ∀ s ∈ ss, s.parts.filterMap Part.expr? = s.sites.flatMap Site.nodes) :
    (Stmt.allParts ss).filterMap Part.expr? = (Stmt.allSites ss).flatMap Site.nodes := by
  induction ss with
  | nil => rfl
  | cons s ss ih =>
    simp only [Stmt.allParts, Stmt.allSites, List.filterMap_append, List.flatMap_append,
      h s (by simp), ih fun a ha => h a (by simp [ha])]

theorem Stmt.nodes_sites (s : Stmt) :
    s.parts.filterMap Part.expr? = s.sites.flatMap Site.nodes := by
  induction s using Stmt.induction with
  | expr e span | caseLabel e span => exact (List.append_nil _).symm
  | giveBack value span =>
    cases value with
    | none => rfl
    | some e => exact (List.append_nil _).symm
  | empty | defaultLabel | continueLoop | breakLoop | discard => rfl
  | block stmts inner span ih => exact Stmt.nodes_allSites_of ih
  | decl d span => exact d.nodes_sites
  | branch c t e span iht ihe =>
    cases e with
    | none =>
      simp only [Stmt.parts, Stmt.sites, List.filterMap_append, List.flatMap_cons, iht,
        Site.nodes, Expr.nodes]
    | some e =>
      simp only [Stmt.parts, Stmt.sites, List.filterMap_append, List.flatMap_cons,
        List.flatMap_append, iht, ihe e rfl, Site.nodes, Expr.nodes, List.append_assoc]
  | switch e stmts inner span ih =>
    simp only [Stmt.parts, Stmt.sites, List.filterMap_append, List.flatMap_cons,
      Stmt.nodes_allSites_of ih, Site.nodes, Expr.nodes]
  | whileLoop c body span ih | doLoop body c span ih =>
    simp only [Stmt.parts, Stmt.sites, List.filterMap_append, List.flatMap_cons, ih,
      Site.nodes, Expr.nodes]
  | forLoop init c u body span ihinit ihbody =>
    cases init with
    | none =>
      simp only [Stmt.parts, Stmt.sites, List.filterMap_append, List.flatMap_append, ihbody,
        nodes_optionExpr]
    | some s =>
      simp only [Stmt.parts, Stmt.sites, List.filterMap_append, List.flatMap_append,
        ihinit s rfl, ihbody, nodes_optionExpr]

theorem ParamDecl.nodes_sites (p : ParamDecl) :
    p.parts.filterMap Part.expr? = p.sites.flatMap Site.nodes := by
  simp only [ParamDecl.parts, ParamDecl.sites, List.filterMap_append, List.flatMap_append,
    p.spec.nodes_sites, nodes_suffix, nodes_bindings]
  rfl

theorem FunctionDecl.nodes_sites (f : FunctionDecl) :
    f.parts.filterMap Part.expr? = f.sites.flatMap Site.nodes := by
  have hparams := nodes_flatMap fun p (_ : p ∈ f.params) => p.nodes_sites
  have hbody : (f.body.toList.flatMap fun b => Stmt.allParts b.stmts).filterMap Part.expr? =
      (f.body.toList.flatMap fun b => Stmt.allSites b.stmts).flatMap Site.nodes :=
    nodes_flatMap fun b _ => Stmt.nodes_allSites_of fun s _ => s.nodes_sites
  simp only [FunctionDecl.parts, FunctionDecl.sites, List.filterMap_append, List.flatMap_append,
    f.spec.nodes_sites, hparams, hbody]

theorem TranslationUnit.nodes_eq_sites (unit : TranslationUnit) :
    TranslationUnit.nodes unit = (TranslationUnit.sites unit).flatMap Site.nodes := by
  refine nodes_flatMap fun d _ => ?_
  cases d with
  | declaration d => exact d.nodes_sites
  | function f => exact f.nodes_sites

end Nodes

end Shader
