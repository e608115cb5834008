import Shader.Check
import Shader.Proofs.Entry
import Shader.Proofs.Recheck

/-! Declarations that pass a check. Nothing of type void is declared: neither a variable nor a
parameter nor a member. -/

namespace Shader

def Member.Accepted (m : Member TypeSpec) : Prop :=
  m.spec.ty.any Ty.isVoid = false

/-- What is declared here is not void, nor an array of that. -/
def Entry.Accepted : Entry → Prop
  | .members ms => ∀ m ∈ ms, m.Accepted
  | .block b => ∀ m ∈ b.members, m.Accepted
  | .variable _ _ d => (d.binding.bind Variable.ty).any (fun t => t.base.isVoid) = false
  | .parameter p => p.spec.ty.any (fun t => t.base.isVoid) = false
  | .function _ => True

namespace Check

/-- Where nothing is reported the places are accepted. -/
def Accepts {α : Type} (es : List Entry) (x : Checked α) : Prop :=
  x.problems = [] → ∀ e ∈ es, e.Accepted

section Accepts

variable {α β : Type} {es ds : List Entry} {x : Checked α} {f : α → Checked β}

theorem accepts_nil : Accepts [] x := by simp [Accepts]

theorem accepts_singleton {e : Entry} (h : x.problems = [] → e.Accepted) : Accepts [e] x :=
  fun hok _ hd => List.mem_singleton.mp hd ▸ h hok

theorem Accepts.append (he : Accepts es x) (hd : Accepts ds x) : Accepts (es ++ ds) x :=
  fun hok => List.forall_mem_append.mpr ⟨he hok, hd hok⟩

theorem Accepts.left (h : Accepts es x) : Accepts es (x >>= f) :=
  fun hok => h (List.append_eq_nil_iff.mp hok).1

theorem Accepts.right (h : Accepts es (f x.value)) : Accepts es (x >>= f) :=
  fun hok => h (List.append_eq_nil_iff.mp hok).2

theorem Accepts.bind (hx : Accepts es x) (hf : Accepts ds (f x.value)) :
    Accepts (es ++ ds) (x >>= f) :=
  hx.left.append hf.right

theorem Accepts.mapM {entries : α → List Entry} {as : List α}
    (h : ∀ a ∈ as, Accepts (entries a) (f a)) : Accepts (as.flatMap entries) (as.mapM f) := by
  induction as with
  | nil => exact accepts_nil
  | cons a as ih =>
    rw [List.mapM_cons, List.flatMap_cons]
    exact (h a (by simp)).bind (.left (ih fun b hb => h b (by simp [hb])))

theorem Accepts.mapM_option {entries : α → List Entry} {a : Option α}
    (h : ∀ b, a = some b → Accepts (entries b) (f b)) :
    Accepts (a.toList.flatMap entries) (a.mapM f) := by
  cases a with
  | none => exact accepts_nil
  | some b => exact (h b rfl).left.append accepts_nil

end Accepts

variable {stage : Stage}

theorem of_require {c : Bool} {p : Problem} {span : Span} (h : (require c p span).problems = []) :
    c = true := by
  cases c with
  | true => rfl
  | false => cases h

theorem accepts_memberLines_of {ms : List (Member TypeSpec)}
    (h : ∀ m ∈ ms, Accepts m.spec.entries (typeSpec stage m.spec)) :
    Accepts (memberEntries ms) (memberLines stage ms) ∧
      ((memberLines stage ms).problems = [] → ∀ m ∈ ms, m.Accepted) := by
  induction ms with
  | nil => exact ⟨accepts_nil, by simp⟩
  | cons m ms ih =>
    obtain ⟨hentries, hmembers⟩ := ih fun a ha => h a (by simp [ha])
    unfold memberLines
    refine ⟨(h m (by simp)).bind (.right (.right (.left hentries))), fun hok => ?_⟩
    simp only [Checked.problems_bind, List.append_eq_nil_iff] at hok
    obtain ⟨-, -, hvoid, hrest, -⟩ := hok
    refine List.forall_mem_cons.mpr ⟨?_, hmembers hrest⟩
    have hvoid := of_require hvoid
    rw [value_typeSpec, TypeSpec.ty_mapExprs] at hvoid
    simpa [Member.Accepted] using hvoid

theorem accepts_typeSpec (spec : TypeSpec) : Accepts spec.entries (typeSpec stage spec) := by
  induction spec using TypeSpec.induction with
  | basic b note | named x note => exact accepts_nil
  | struct tag members span note ih =>
    obtain ⟨hentries, hmembers⟩ := accepts_memberLines_of ih
    unfold typeSpec
    exact .right (.left (hentries.append (accepts_singleton hmembers)))

theorem accepts_declarator (q : Qualifiers) (spec : TypeSpec) (d : Declarator) :
    Accepts [.variable q spec d] (declarator stage q.storage d) := by
  refine accepts_singleton fun hok => ?_
  unfold declarator at hok
  cases hty : d.binding.bind Variable.ty with
  | none => simp [Entry.Accepted, hty]
  | some t =>
    cases hvoid : t.base.isVoid with
    | false => simp [Entry.Accepted, hty, hvoid]
    | true =>
      simp only [Checked.problems_bind, List.append_eq_nil_iff, hty, hvoid, if_true] at hok
      cases hok.2.2.1

theorem accepts_blockMembers (ms : List (Member TypeSpec)) :
    Accepts (memberEntries ms) (ms.mapM (blockMember stage)) ∧
      ((ms.mapM (blockMember stage)).problems = [] → ∀ m ∈ ms, m.Accepted) := by
  induction ms with
  | nil => exact ⟨accepts_nil, by simp⟩
  | cons m ms ih =>
    rw [List.mapM_cons]
    refine ⟨.bind (accepts_typeSpec _).left (.left ih.1), fun hok => ?_⟩
    simp only [Checked.problems_bind, List.append_eq_nil_iff] at hok
    refine List.forall_mem_cons.mpr ⟨?_, ih.2 hok.2.1⟩
    have hok := hok.1
    unfold blockMember at hok
    simp only [Checked.problems_bind, List.append_eq_nil_iff] at hok
    have hvoid := of_require hok.2.2.1
    rw [value_typeSpec, TypeSpec.ty_mapExprs] at hvoid
    simpa [Member.Accepted] using hvoid

theorem accepts_interfaceBlock (place : Place) (b : InterfaceBlock) (span : Span) :
    Accepts b.entries (interfaceBlock place b span) := by
  have ⟨hentries, hmembers⟩ := @accepts_blockMembers place.stage b.members
  have hblock := (hentries.append (accepts_singleton (e := .members b.members) hmembers)).append
    (accepts_singleton (e := .block b) hmembers)
  unfold interfaceBlock
  split
  · exact .right (.left hblock)
  · exact .right (.left hblock)

theorem accepts_declaration (place : Place) (d : Declaration) :
    Accepts d.entries (declaration place d) := by
  cases d with
  | vars q spec ds span =>
    unfold declaration
    refine (accepts_typeSpec spec).bind (.right (.right (.left ?_)))
    rw [List.map_eq_flatMap]
    exact .mapM fun d _ => accepts_declarator q spec d
  | block b span => exact (accepts_interfaceBlock place b span).left
  | precision p spec span => exact (accepts_typeSpec spec).left
  | invariant targets span => exact accepts_nil

theorem accepts_statements_of {ctx : Context} {ss : List Stmt}
    (h : ∀ s ∈ ss, Accepts s.entries (stmt ctx s)) :
    Accepts (Stmt.allEntries ss) (statements ctx ss) := by
  induction ss with
  | nil => exact accepts_nil
  | cons s ss ih =>
    unfold statements
    exact (h s (by simp)).bind (.left (ih fun a ha => h a (by simp [ha])))

theorem accepts_stmt (ctx : Context) (s : Stmt) : Accepts s.entries (stmt ctx s) := by
  induction s using Stmt.induction generalizing ctx with
  | expr | caseLabel | giveBack | empty | defaultLabel | continueLoop | breakLoop | discard =>
    exact accepts_nil
  | block stmts inner span ih =>
    unfold stmt
    exact (accepts_statements_of fun s hs => ih s hs ctx).left
  | decl d span =>
    unfold stmt
    exact (accepts_declaration ⟨ctx.stage, true⟩ d).left
  | branch c t e span iht ihe =>
    cases e with
    | none =>
      unfold stmt
      exact .right (.left (iht ctx))
    | some e =>
      unfold stmt
      exact .right ((iht ctx).bind (.left (ihe e rfl ctx)))
  | switch e stmts inner span ih =>
    unfold stmt
    refine .right (.right (.left ?_))
    exact accepts_statements_of fun s hs => ih s hs ⟨ctx.stage, ctx.result, some _⟩
  | whileLoop c body span ih =>
    unfold stmt
    exact .right (.left (ih ctx))
  | doLoop body c span ih =>
    unfold stmt
    exact .left (ih ctx)
  | forLoop init c u body span ihinit ihbody =>
    cases init with
    | none =>
      unfold stmt
      exact .right (.right (.left (ihbody ctx)))
    | some s =>
      unfold stmt
      exact (ihinit s rfl ctx).bind (.right (.right (.left (ihbody ctx))))

theorem accepts_parameter (p : ParamDecl) : Accepts p.entries (parameter stage p) := by
  unfold parameter
  refine (accepts_typeSpec _).bind (.right (.right (accepts_singleton fun hok => ?_)))
  simp only [value_typeSpec, TypeSpec.ty_mapExprs] at hok
  cases hvoid : p.spec.ty.any fun t => t.base.isVoid with
  | false => exact hvoid
  | true =>
    simp only [hvoid, if_true] at hok
    cases hok

theorem accepts_function (f : FunctionDecl) : Accepts f.entries (function stage f) := by
  unfold function
  rw [FunctionDecl.entries, List.append_assoc, List.append_assoc]
  refine (accepts_typeSpec _).bind (.right (.bind (.mapM fun p _ => accepts_parameter p) ?_))
  refine .right (.append (accepts_singleton fun _ => trivial) ?_)
  refine .left (.mapM_option fun b _ => .left ?_)
  exact accepts_statements_of fun s _ => accepts_stmt ⟨stage, _, none⟩ s

theorem accepts_topLevel (d : TopLevel) : Accepts d.entries (topLevel stage d) := by
  cases d with
  | declaration d => exact (accepts_declaration ⟨stage, false⟩ d).left
  | function f => exact (accepts_function f).left

end Check

/-- Nothing void is declared in a unit whose check finds no problem. -/
theorem accepted_of_check {stage : Stage} {unit : TranslationUnit}
    (hok : (check stage unit).problems = []) : ∀ e ∈ TranslationUnit.entries unit, e.Accepted :=
  Check.Accepts.mapM (fun d _ => Check.accepts_topLevel d) hok

end Shader
