import Shader.Bind
import Shader.Proofs.Site

/-! The places of a tree where something is declared, and the types that are written there. The size
in a pair of brackets is read off the tree as it was bound. -/

namespace Shader

/-- What a bound pair of brackets says. -/
def suffixExtent : Option (ArraySuffix Expr) → Extent
  | none => .none
  | some ⟨none, _⟩ => .unsized
  | some ⟨some e, _⟩ =>
    match e.constant?.bind Constant.index? with
    | some (.ofNat (n + 1)) => .sized (n + 1)
    | _ => .invalid

def MemberName.ty (base : Option Ty) (m : MemberName) : Option Ty :=
  (suffixExtent m.array).apply base

def ParamDecl.ty (p : ParamDecl) : Option Ty :=
  (suffixExtent p.array).apply p.spec.ty

def ParamDecl.parameter (p : ParamDecl) : Parameter :=
  ⟨p.ty, .ofStorage p.qualifiers.storage⟩

def FunctionDecl.overload (f : FunctionDecl) : Overload :=
  ⟨f.params.map ParamDecl.parameter, f.spec.ty, f.span, f.body.isSome⟩

def MemberName.field? (base : Option Ty) (m : MemberName) : Option Field :=
  (m.ty base).map fun t => ⟨m.name, t, m.span⟩

def memberFields (ms : List (Member TypeSpec)) : List Field :=
  ms.flatMap fun m => m.names.filterMap (MemberName.field? m.spec.ty)

inductive Entry where
  /-- The members of a struct or a block. -/
  | members (ms : List (Member TypeSpec))
  /-- A declarator with its type specifier. -/
  | variable (q : Qualifiers) (spec : TypeSpec) (d : Declarator)
  | block (b : InterfaceBlock)
  | parameter (p : ParamDecl)
  | function (f : FunctionDecl)

mutual

def TypeSpec.entries : TypeSpec → List Entry
  | .basic _ _ | .named _ _ => []
  | .struct _ members _ _ => memberEntries members ++ [.members members]

def memberEntries : List (Member TypeSpec) → List Entry
  | [] => []
  | ⟨_, spec, _, _⟩ :: rest => spec.entries ++ memberEntries rest

end

def InterfaceBlock.entries (b : InterfaceBlock) : List Entry :=
  memberEntries b.members ++ [.members b.members] ++ [.block b]

def Declaration.entries : Declaration → List Entry
  | .vars q spec ds _ => spec.entries ++ ds.map (.variable q spec)
  | .block b _ => b.entries
  | .precision _ spec _ => spec.entries
  | .invariant _ _ => []

mutual

def Stmt.entries : Stmt → List Entry
  | .block ⟨stmts, _⟩ _ | .switch _ ⟨stmts, _⟩ _ => Stmt.allEntries stmts
  | .decl d _ => d.entries
  | .branch _ t none _ => t.entries
  | .branch _ t (some e) _ => t.entries ++ e.entries
  | .whileLoop _ body _ | .doLoop body _ _ | .forLoop none _ _ body _ => body.entries
  | .forLoop (some init) _ _ body _ => init.entries ++ body.entries
  | .expr _ _ | .caseLabel _ _ | .giveBack _ _ | .empty _ | .defaultLabel _ | .continueLoop _
  | .breakLoop _ | .discard _ => []

def Stmt.allEntries : List Stmt → List Entry
  | [] => []
  | s :: ss => s.entries ++ Stmt.allEntries ss

end

def ParamDecl.entries (p : ParamDecl) : List Entry :=
  p.spec.entries ++ [.parameter p]

def FunctionDecl.entries (f : FunctionDecl) : List Entry :=
  f.spec.entries ++ f.params.flatMap ParamDecl.entries ++ [.function f] ++
    f.body.toList.flatMap fun b => Stmt.allEntries b.stmts

def TopLevel.entries : TopLevel → List Entry
  | .declaration d => d.entries
  | .function f => f.entries

def TranslationUnit.entries (unit : TranslationUnit) : List Entry :=
  unit.flatMap TopLevel.entries

def Entry.mapExprs (f : Expr → Expr) : Entry → Entry
  | .members ms => .members (mapMembers f ms)
  | .variable q spec d => .variable q (spec.mapExprs f) (d.mapExprs f)
  | .block b => .block (b.mapExprs f)
  | .parameter p => .parameter (p.mapExprs f)
  | .function g => .function (g.mapExprs f)

section Rewritten

variable (f : Expr → Expr)

-- The equations are long to make; made here, they are there for all the proofs below.
attribute [local simp] TypeSpec.mapExprs mapMembers TypeSpec.entries memberEntries
attribute [local simp] Stmt.mapExprs mapStmts Stmt.entries Stmt.allEntries

theorem TypeSpec.ty_mapExprs (spec : TypeSpec) : (spec.mapExprs f).ty = spec.ty := by
  cases spec <;> rfl

theorem flatMap_entries_map {α : Type} {entries : α → List Entry} {g : α → α}
    (h : ∀ a, entries (g a) = (entries a).map (.mapExprs f)) (as : List α) :
    (as.map g).flatMap entries = (as.flatMap entries).map (.mapExprs f) := by
  simp only [List.flatMap_map, List.map_flatMap, h]

theorem memberEntries_map_of {ms : List (Member TypeSpec)}
    (h : ∀ m ∈ ms, (m.spec.mapExprs f).entries = m.spec.entries.map (.mapExprs f)) :
    memberEntries (mapMembers f ms) = (memberEntries ms).map (.mapExprs f) := by
  induction ms with
  | nil => rfl
  | cons m ms ih =>
    simp only [mapMembers, memberEntries, List.map_append, h m (by simp),
      ih fun a ha => h a (by simp [ha])]

theorem TypeSpec.entries_mapExprs (spec : TypeSpec) :
    (spec.mapExprs f).entries = spec.entries.map (.mapExprs f) := by
  induction spec using TypeSpec.induction with
  | basic b note | named x note => rfl
  | struct tag members span note ih =>
    simp only [TypeSpec.mapExprs, TypeSpec.entries, memberEntries_map_of f ih, List.map_append]
    rfl

theorem InterfaceBlock.entries_mapExprs (b : InterfaceBlock) :
    (b.mapExprs f).entries = b.entries.map (.mapExprs f) := by
  have hmembers := memberEntries_map_of f fun m (_ : m ∈ b.members) => m.spec.entries_mapExprs f
  simp only [InterfaceBlock.entries, List.map_append, ← hmembers]
  rfl

theorem Declaration.entries_mapExprs (d : Declaration) :
    (d.mapExprs f).entries = d.entries.map (.mapExprs f) := by
  cases d with
  | vars q spec ds span =>
    simp only [Declaration.mapExprs, Declaration.entries, List.map_append, List.map_map,
      spec.entries_mapExprs]
    rfl
  | block b span => exact b.entries_mapExprs f
  | precision p spec span => exact spec.entries_mapExprs f
  | invariant targets span => rfl

theorem Stmt.allEntries_map_of {ss : List Stmt}
    (h : ∀ s ∈ ss, (s.mapExprs f).entries = s.entries.map (.mapExprs f)) :
    Stmt.allEntries (mapStmts f ss) = (Stmt.allEntries ss).map (.mapExprs f) := by
  induction ss with
  | nil => rfl
  | cons s ss ih =>
    simp only [mapStmts, Stmt.allEntries, List.map_append, h s (by simp),
      ih fun a ha => h a (by simp [ha])]

theorem Stmt.entries_mapExprs (s : Stmt) :
    (s.mapExprs f).entries = s.entries.map (.mapExprs f) := by
  induction s using Stmt.induction with
  | expr | caseLabel | giveBack | empty | defaultLabel | continueLoop | breakLoop | discard => rfl
  | block stmts inner span ih | switch e stmts inner span ih => exact Stmt.allEntries_map_of f ih
  | decl d span => exact d.entries_mapExprs f
  | branch c t e span iht ihe =>
    cases e with
    | none => exact iht
    | some e => simp only [Stmt.mapExprs, Stmt.entries, List.map_append, iht, ihe e rfl]
  | whileLoop c body span ih | doLoop body c span ih => exact ih
  | forLoop init c u body span ihinit ihbody =>
    cases init with
    | none => exact ihbody
    | some s => simp only [Stmt.mapExprs, Stmt.entries, List.map_append, ihinit s rfl, ihbody]

theorem ParamDecl.entries_mapExprs (p : ParamDecl) :
    (p.mapExprs f).entries = p.entries.map (.mapExprs f) := by
  simp only [ParamDecl.entries, List.map_append, ← p.spec.entries_mapExprs f]
  rfl

theorem FunctionDecl.entries_mapExprs (g : FunctionDecl) :
    (g.mapExprs f).entries = g.entries.map (.mapExprs f) := by
  simp only [FunctionDecl.entries, List.map_append, ← g.spec.entries_mapExprs f,
    ← flatMap_entries_map f (ParamDecl.entries_mapExprs f)]
  cases hbody : g.body with
  | none => simp [FunctionDecl.mapExprs, Entry.mapExprs, hbody]
  | some b =>
    have hstmts := Stmt.allEntries_map_of f fun s (_ : s ∈ b.stmts) => s.entries_mapExprs f
    simp [FunctionDecl.mapExprs, Entry.mapExprs, hbody, hstmts]

theorem TranslationUnit.entries_mapExprs (unit : TranslationUnit) :
    TranslationUnit.entries (TranslationUnit.mapExprs f unit) =
      (TranslationUnit.entries unit).map (.mapExprs f) := by
  refine flatMap_entries_map f (fun d => ?_) unit
  cases d with
  | declaration d => exact d.entries_mapExprs f
  | function g => exact g.entries_mapExprs f

end Rewritten

def memberNameParts (ms : List (Member TypeSpec)) : List Part :=
  ms.flatMap fun m => m.names.flatMap MemberName.parts

def Entry.parts : Entry → List Part
  | .members ms => memberNameParts ms
  | .block b => memberNameParts b.members
  | .variable _ _ d => d.init.toList.flatMap Expr.parts
  | .parameter p => suffixParts p.array
  | .function _ => []

section Parts

variable {P : Part → Prop}

/-- What holds of all parts holds at the places as well. -/
def Entry.AllParts (P : Part → Prop) (es : List Entry) : Prop :=
  ∀ e ∈ es, Part.All P e.parts

theorem Entry.allParts_flatMap {α : Type} {parts : α → List Part} {entries : α → List Entry}
    {as : List α} (h : ∀ a ∈ as, Part.All P (parts a) → Entry.AllParts P (entries a))
    (has : Part.All P (as.flatMap parts)) : Entry.AllParts P (as.flatMap entries) := by
  intro e he
  obtain ⟨a, ha, he⟩ := List.mem_flatMap.mp he
  exact h a ha (Part.all_flatMap.mp has a ha) e he

theorem all_memberNameParts {ms : List (Member TypeSpec)} (h : Part.All P (memberParts ms)) :
    Part.All P (memberNameParts ms) :=
  Part.all_flatMap.mpr fun m hm => Part.all_flatMap.mpr (all_memberParts.mp h m hm).2

theorem memberEntries_allParts_of {ms : List (Member TypeSpec)}
    (h : ∀ m ∈ ms, Part.All P m.spec.parts → Entry.AllParts P m.spec.entries)
    (hms : Part.All P (memberParts ms)) : Entry.AllParts P (memberEntries ms) := by
  induction ms with
  | nil => simp [Entry.AllParts, memberEntries]
  | cons m ms ih =>
    obtain ⟨hm, hrest⟩ := Part.all_append.mp hms
    refine List.forall_mem_append.mpr ⟨h m (by simp) (Part.all_append.mp hm).1, ?_⟩
    exact ih (fun a ha => h a (by simp [ha])) hrest

theorem TypeSpec.entries_allParts {spec : TypeSpec} (h : Part.All P spec.parts) :
    Entry.AllParts P spec.entries := by
  induction spec using TypeSpec.induction with
  | basic | named => simp [Entry.AllParts, TypeSpec.entries]
  | struct tag members span note ih =>
    have hmembers := (Part.all_append.mp (Part.all_append.mp h).1).2
    refine List.forall_mem_append.mpr ⟨memberEntries_allParts_of ih hmembers, ?_⟩
    exact List.forall_mem_singleton.mpr (all_memberNameParts hmembers)

theorem Declaration.entries_allParts {d : Declaration} (h : Part.All P d.parts) :
    Entry.AllParts P d.entries := by
  cases d with
  | vars q spec ds span =>
    obtain ⟨hspec, hds⟩ := Part.all_append.mp h
    refine List.forall_mem_append.mpr ⟨TypeSpec.entries_allParts hspec, ?_⟩
    refine List.forall_mem_map.mpr fun d hd => ?_
    exact (Part.all_append.mp (Part.all_append.mp (Part.all_flatMap.mp hds d hd)).1).2
  | block b span =>
    have hmembers := (Part.all_append.mp h).1
    have hentries := memberEntries_allParts_of (fun m _ => TypeSpec.entries_allParts) hmembers
    have hnames := all_memberNameParts hmembers
    refine List.forall_mem_append.mpr ⟨List.forall_mem_append.mpr ⟨hentries, ?_⟩, ?_⟩
    · exact List.forall_mem_singleton.mpr hnames
    · exact List.forall_mem_singleton.mpr hnames
  | precision p spec span => exact TypeSpec.entries_allParts h
  | invariant targets span => simp [Entry.AllParts, Declaration.entries]

theorem Stmt.allEntries_allParts_of {ss : List Stmt}
    (h : ∀ s ∈ ss, Part.All P s.parts → Entry.AllParts P s.entries)
    (hss : Part.All P (Stmt.allParts ss)) : Entry.AllParts P (Stmt.allEntries ss) := by
  induction ss with
  | nil => simp [Entry.AllParts, Stmt.allEntries]
  | cons s ss ih =>
    obtain ⟨hs, hss⟩ := Part.all_append.mp hss
    refine List.forall_mem_append.mpr ⟨h s (by simp) hs, ?_⟩
    exact ih (fun a ha => h a (by simp [ha])) hss

theorem Stmt.entries_allParts {s : Stmt} (h : Part.All P s.parts) : Entry.AllParts P s.entries := by
  induction s using Stmt.induction with
  | expr | caseLabel | giveBack | empty | defaultLabel | continueLoop | breakLoop | discard =>
    simp [Entry.AllParts, Stmt.entries]
  | block stmts inner span ih => exact Stmt.allEntries_allParts_of ih h
  | switch e stmts inner span ih => exact Stmt.allEntries_allParts_of ih (Part.all_append.mp h).2
  | decl d span => exact Declaration.entries_allParts h
  | branch c t e span iht ihe =>
    cases e with
    | none => exact iht (Part.all_append.mp h).2
    | some e =>
      obtain ⟨hct, he⟩ := Part.all_append.mp h
      exact List.forall_mem_append.mpr ⟨iht (Part.all_append.mp hct).2, ihe e rfl he⟩
  | whileLoop c body span ih | doLoop body c span ih => exact ih (Part.all_append.mp h).2
  | forLoop init c u body span ihinit ihbody =>
    cases init with
    | none => exact ihbody (Part.all_append.mp h).2
    | some s =>
      obtain ⟨hheader, hbody⟩ := Part.all_append.mp h
      have hs := (Part.all_append.mp (Part.all_append.mp hheader).1).1
      exact List.forall_mem_append.mpr ⟨ihinit s rfl hs, ihbody hbody⟩

theorem FunctionDecl.entries_allParts {f : FunctionDecl} (h : Part.All P f.parts) :
    Entry.AllParts P f.entries := by
  obtain ⟨hheader, hbody⟩ := Part.all_append.mp h
  obtain ⟨hspec, hparams⟩ := Part.all_append.mp hheader
  refine List.forall_mem_append.mpr ⟨List.forall_mem_append.mpr ⟨?_, by simp [Entry.parts]⟩, ?_⟩
  · refine List.forall_mem_append.mpr ⟨TypeSpec.entries_allParts hspec, ?_⟩
    refine Entry.allParts_flatMap (fun p _ hp => ?_) hparams
    obtain ⟨hspec, harray⟩ := Part.all_append.mp (Part.all_append.mp hp).1
    exact List.forall_mem_append.mpr
      ⟨TypeSpec.entries_allParts hspec, List.forall_mem_singleton.mpr harray⟩
  · refine Entry.allParts_flatMap (fun b _ hb => ?_) hbody
    exact Stmt.allEntries_allParts_of (fun s _ => Stmt.entries_allParts) hb

theorem TranslationUnit.entries_allParts {unit : TranslationUnit}
    (h : Part.All P (TranslationUnit.parts unit)) :
    Entry.AllParts P (TranslationUnit.entries unit) := by
  refine Entry.allParts_flatMap (fun d _ hd => ?_) h
  cases d with
  | declaration d => exact Declaration.entries_allParts hd
  | function f => exact FunctionDecl.entries_allParts hd

end Parts

end Shader
