import Shader.Proofs.Parse.Spelled

/-! Where declarations and statements stand. Each of their nodes takes up the tokens between its
first and its last one, and what is read one after the other stands one after the other. -/

namespace Shader

open Outline

namespace Parse

/-- The outlines stand on the tokens between the two cursors, which may be none. -/
def Lays (exact : Prop) (c : Cursor) (os : List Outline) (c' : Cursor) : Prop :=
  ∃ ts, c.Takes ts c' ∧ (exact → Ordered ts → Row os ts)

/-- The outlines stand on the tokens between the two cursors, of which there are some. -/
def Advances (exact : Prop) (c : Cursor) (os : List Outline) (c' : Cursor) : Prop :=
  ∃ ts, ts ≠ [] ∧ c.Takes ts c' ∧ (exact → Ordered ts → Row os ts)

section Lays

variable {exact : Prop} {c c' d : Cursor} {os ps : List Outline} {e : Expr}

theorem Lays.nil : Lays exact c [] c :=
  ⟨[], .nil c, fun _ _ => .nil⟩

theorem Advances.token (h : c.kind ≠ .eof) : Advances exact c [] c.next :=
  ⟨[c.token], by simp, .one h, fun _ _ => .gaps _⟩

theorem Advances.leaf (h : c.kind ≠ .eof) : Advances exact c [.node c.token.span []] c.next :=
  ⟨[c.token], by simp, .one h, fun _ _ => Stands.single ⟨by simp, rfl, .gaps _⟩⟩

theorem Advances.lays (h : Advances exact c os c') : Lays exact c os c' := by
  obtain ⟨ts, -, h⟩ := h
  exact ⟨ts, h⟩

theorem Advances.then (h : Advances exact c os d) (h' : Lays exact d ps c') :
    Advances exact c (os ++ ps) c' := by
  obtain ⟨us, hne, hus, hos⟩ := h
  obtain ⟨vs, hvs, hps⟩ := h'
  exact ⟨us ++ vs, by simp [hne], hus.trans hvs, fun hx hord =>
    (hos hx hord.left).append (hps hx hord.right)⟩

theorem Lays.advances (h : Lays exact c os d) (h' : Advances exact d ps c') :
    Advances exact c (os ++ ps) c' := by
  obtain ⟨us, hus, hos⟩ := h
  obtain ⟨vs, hne, hvs, hps⟩ := h'
  exact ⟨us ++ vs, by simp [hne], hus.trans hvs, fun hx hord =>
    (hos hx hord.left).append (hps hx hord.right)⟩

theorem Lays.token (h : Lays exact c os d) (hkind : d.kind ≠ .eof) :
    Advances exact c os d.next := by
  have hadv := h.advances (.token hkind)
  rwa [List.append_nil] at hadv

theorem Advances.more (h : Advances exact c os d) (hkind : d.kind ≠ .eof) :
    Advances exact c os d.next :=
  h.lays.token hkind

theorem Lays.behind (hkind : c.kind ≠ .eof) (h : Lays exact c.next os c') :
    Advances exact c os c' :=
  (Advances.token hkind).then h

theorem Advances.node (hc : exact → c.Ended) (h : Advances exact c os c') :
    Advances exact c [.node (c.token.span.merge c'.before) os] c' := by
  obtain ⟨ts, hne, hts, hos⟩ := h
  refine ⟨ts, hne, hts, fun hx hord => Stands.single ⟨hne, ?_, hos hx hord⟩⟩
  cases hts with
  | nil => exact absurd rfl hne
  | cons hkind h => exact (Cursor.Takes.cons hkind h).merge_before_head (hc hx) hord

theorem Advances.point (h : Advances exact c os c') :
    Advances exact c (.node ⟨c.token.span.start, c.token.span.start⟩ [] :: os) c' := by
  obtain ⟨ts, hne, hts, hos⟩ := h
  refine ⟨ts, hne, hts, fun hx hord => ?_⟩
  cases hts with
  | nil => exact absurd rfl hne
  | cons hkind h => exact .point (hos hx hord)

theorem Lays.ended (h : Lays exact c os c') (hc : exact → c.Ended) : exact → c'.Ended := by
  obtain ⟨ts, hts, -⟩ := h
  exact fun hx => ((hc hx).takes hts).1

theorem Advances.ended (h : Advances exact c os c') (hc : exact → c.Ended) : exact → c'.Ended :=
  h.lays.ended hc

theorem Spells.advances (h : Spells exact c e c') : Advances exact c [e.outline] c' := by
  obtain ⟨ts, hts, he⟩ := h
  exact ⟨ts, he.fits.ne_nil, hts, fun hx hord => (he.stands hx hord).single⟩

theorem lays_arraySuffix {n : Nat} {s : Option (ArraySuffix Expr)} (hc : exact → c.Ended)
    (h : arraySuffix? n c = .ok (s, c')) : Lays exact c (suffixOutlines s) c' := by
  obtain ⟨ts, hts, hs⟩ := (spellings exact n).arraySuffix hc h
  exact ⟨ts, hts, hs.row⟩

theorem advances_expression {n : Nat} (hc : exact → c.Ended) (h : expression n c = .ok (e, c')) :
    Advances exact c [e.outline] c' :=
  ((spellings exact n).expression hc h).advances

theorem advances_assignment {n : Nat} (hc : exact → c.Ended) (h : assignment n c = .ok (e, c')) :
    Advances exact c [e.outline] c' :=
  ((spellings exact n).assignment hc h).advances

end Lays

section Qualifiers

variable {exact : Prop} {n : Nat} {c c' : Cursor}

def layoutOutlines (items : List LayoutItem) : List Outline :=
  items.map fun i => .node i.span []

theorem lays_layoutValue {v : Option String} (h : layoutItems.layoutValue c = .ok (v, c')) :
    Lays exact c [] c' := by
  unfold layoutItems.layoutValue at h
  rw [run_acceptMark] at h
  split at h
  · rename_i hkind
    simp only [if_true, run_kind] at h
    cases hvalue : c.next.kind with
    | intLiteral text =>
      simp only [hvalue, run_advance] at h
      obtain ⟨rfl, rfl⟩ := run_pure h
      exact ((Advances.token (by simp [hkind])).more (by simp [hvalue])).lays
    | _ =>
      simp only [hvalue] at h
      cases h
  · simp only [Bool.false_eq_true, if_false] at h
    obtain ⟨rfl, rfl⟩ := run_pure h
    exact .nil

theorem advances_layoutItems {items : List LayoutItem} (hc : exact → c.Ended)
    (h : layoutItems n c = .ok (items, c')) : Advances exact c (layoutOutlines items) c' := by
  induction n generalizing c items with
  | zero => cases h
  | succ n ih =>
    unfold layoutItems at h
    rw [run_here, run_kind] at h
    cases hkind : c.kind with
    | identifier x =>
      simp only [hkind, run_advance] at h
      obtain ⟨value, c₁, hvalue, h⟩ := run_bind h
      rw [run_spanFrom, run_acceptMark] at h
      have hrest : Lays exact c.next [] c₁ := lays_layoutValue hvalue
      have hitem := (hrest.behind (by simp [hkind])).node hc
      split at h
      · rename_i hcomma
        simp only [if_true] at h
        obtain ⟨others, c₂, hothers, h⟩ := run_bind h
        obtain ⟨rfl, rfl⟩ := run_pure h
        have hmore := hitem.more (d := c₁) (by simp [hcomma])
        exact hmore.then (ih (hmore.ended hc) hothers).lays
      · simp only [Bool.false_eq_true, if_false] at h
        obtain ⟨hclose, h⟩ := run_expectMark _ _ _ h
        obtain ⟨rfl, rfl⟩ := run_pure h
        exact hitem.more (by simp [hclose])
    | _ =>
      simp only [hkind] at h
      cases h

theorem qualifier_cases {k : TokenKind} (h : k.startsQualifier = true) :
    (storage? k).isSome ∨ (interpolation? k).isSome ∨ (precision? k).isSome ∨
      k = .keyword .centroidWord ∨ k = .keyword .invariantWord ∨ k = .keyword .layoutWord := by
  cases k with
  | keyword k =>
    cases k <;> simp [TokenKind.startsQualifier, Keyword.startsQualifier, storage?, interpolation?,
      precision?] at h ⊢
  | _ => cases h

/-- Qualifiers are read until none follows; the layout entries among them come behind those that
were read before. -/
theorem lays_qualifierRun {run run' : QualifierRun} (hc : exact → c.Ended)
    (h : qualifierRun n run c = .ok (run', c')) :
    ∃ items, run'.qualifiers.layout = run.qualifiers.layout ++ items ∧
      (c.kind.startsQualifier = true → Advances exact c (layoutOutlines items) c') ∧
      Lays exact c (layoutOutlines items) c' := by
  induction n generalizing c run with
  | zero => cases h
  | succ n ih =>
    have hc' : exact → c.next.Ended := fun hx => (hc hx).next
    -- One word more, which changes nothing about the layout.
    have step {next : QualifierRun} (hkind : c.kind ≠ .eof)
        (h : qualifierRun n next c.next = .ok (run', c'))
        (hlayout : next.qualifiers.layout = run.qualifiers.layout) :
        ∃ items, run'.qualifiers.layout = run.qualifiers.layout ++ items ∧
          (c.kind.startsQualifier = true → Advances exact c (layoutOutlines items) c') ∧
          Lays exact c (layoutOutlines items) c' := by
      obtain ⟨items, hitems, -, hlays⟩ := ih hc' h
      have hadv := hlays.behind hkind
      exact ⟨items, by rw [hitems, hlayout], fun _ => hadv, hadv.lays⟩
    unfold qualifierRun at h
    rw [run_kind] at h
    cases hstorage : storage? c.kind with
    | some s =>
      have hkind : c.kind ≠ .eof := fun heof => by simp [heof, storage?] at hstorage
      simp only [hstorage] at h
      split at h
      · cases h
      · rw [run_advance] at h
        exact step hkind h rfl
    | none =>
    cases hinterpolation : interpolation? c.kind with
    | some i =>
      have hkind : c.kind ≠ .eof := fun heof => by simp [heof, interpolation?] at hinterpolation
      simp only [hstorage, hinterpolation, run_advance] at h
      exact step hkind h rfl
    | none =>
    cases hprecision : precision? c.kind with
    | some p =>
      have hkind : c.kind ≠ .eof := fun heof => by simp [heof, precision?] at hprecision
      simp only [hstorage, hinterpolation, hprecision, run_advance] at h
      exact step hkind h rfl
    | none =>
    simp only [hstorage, hinterpolation, hprecision] at h
    split at h
    · rename_i hkind
      rw [run_advance] at h
      exact step (by simp [hkind]) h rfl
    split at h
    · rename_i hkind
      rw [run_advance] at h
      exact step (by simp [hkind]) h rfl
    split at h
    · rename_i hkind
      rw [run_advance] at h
      obtain ⟨hopen, h⟩ := run_expectMark _ _ _ h
      obtain ⟨items, c₁, hitems, h⟩ := run_bind h
      have hlist := advances_layoutItems (fun hx => (hc' hx).next) hitems
      have hfront : Advances exact c (layoutOutlines items) c₁ :=
        (hlist.lays.behind (by simp [hopen])).lays.behind (by simp [hkind])
      obtain ⟨others, hothers, -, hlays⟩ := ih (hfront.ended hc) h
      refine ⟨items ++ others, ?_, fun _ => ?_, ?_⟩
      · rw [hothers, List.append_assoc]
      · rw [layoutOutlines, List.map_append]
        exact hfront.then hlays
      · rw [layoutOutlines, List.map_append]
        exact (hfront.then hlays).lays
    · rename_i hcentroid hinvariant hlayout
      obtain ⟨rfl, rfl⟩ := run_pure h
      refine ⟨[], by simp, fun hstarts => ?_, .nil⟩
      rcases qualifier_cases hstarts with h | h | h | h | h | h
      · simp [hstorage] at h
      · simp [hinterpolation] at h
      · simp [hprecision] at h
      · exact absurd h hcentroid
      · exact absurd h hinvariant
      · exact absurd h hlayout

/-- Qualifiers are read in front of something else, and where there are none, their place is that of
what follows. -/
theorem lays_qualifiers {q : Qualifiers} (hc : exact → c.Ended)
    (h : qualifiers n c = .ok (q, c')) :
    (∃ os, Lays exact c os c') ∧
      ∀ os d, Advances exact c' os d → Advances exact c (q.outline :: os) d := by
  unfold qualifiers at h
  rw [run_here, run_get] at h
  dsimp only at h
  split at h
  · rename_i hstarts
    obtain ⟨run, c₁, hrun, h⟩ := run_bind h
    rw [run_spanFrom] at h
    obtain ⟨items, hitems, hadv, -⟩ := lays_qualifierRun hc hrun
    have hnode := (hadv hstarts).node hc
    have hq : c₁ = c' ∧
        q.outline = .node (c.token.span.merge c₁.before) (layoutOutlines items) := by
      have hlayout : run.qualifiers.layout = items := hitems
      split at h
      · cases hstorage : run.qualifiers.storage with
        | none =>
          simp only [hstorage] at h
          cases h
        | some storage =>
          simp only [hstorage] at h
          cases storage with
          | input | output =>
            obtain ⟨rfl, rfl⟩ := run_pure h
            exact ⟨rfl, by rw [← hlayout]; rfl⟩
          | _ => cases h
      · obtain ⟨rfl, rfl⟩ := run_pure h
        exact ⟨rfl, by rw [← hlayout]; rfl⟩
    obtain ⟨rfl, hq⟩ := hq
    exact ⟨⟨_, hnode.lays⟩, fun os d hos => hq ▸ hnode.then hos.lays⟩
  · obtain ⟨rfl, rfl⟩ := run_pure h
    exact ⟨⟨_, .nil⟩, fun os d hos => hos.point⟩

end Qualifiers

section Types

variable {exact : Prop} {n : Nat} {c c' : Cursor}

theorem advances_named {x : String} {array : Option (ArraySuffix Expr)} (hc : exact → c.Ended)
    (hkind : c.kind = .identifier x) (harray : arraySuffix? n c.next = .ok (array, c')) :
    Advances exact c [.node (c.token.span.merge c'.before) (suffixOutlines array)] c' :=
  ((lays_arraySuffix (fun hx => (hc hx).next) harray).behind (by simp [hkind])).node hc

theorem advances_memberNames {names : List MemberName} (hc : exact → c.Ended)
    (h : memberNames n c = .ok (names, c')) :
    Advances exact c (names.map MemberName.outline) c' := by
  induction n generalizing c names with
  | zero => cases h
  | succ n ih =>
    unfold memberNames at h
    obtain ⟨x, hkind, h⟩ := run_name _ _ h
    obtain ⟨array, c₁, harray, h⟩ := run_bind h
    rw [run_spanFrom, run_acceptMark] at h
    have hname := advances_named hc hkind harray
    split at h
    · rename_i hcomma
      simp only [if_true] at h
      obtain ⟨others, c₂, hothers, h⟩ := run_bind h
      obtain ⟨rfl, rfl⟩ := run_pure h
      have hmore := hname.more (by simp [hcomma])
      exact hmore.then (ih (hmore.ended hc) hothers).lays
    · simp only [Bool.false_eq_true, if_false] at h
      obtain ⟨hsemi, h⟩ := run_expectMark _ _ _ h
      obtain ⟨rfl, rfl⟩ := run_pure h
      exact hname.more (by simp [hsemi])

/-- What the parsers of types with fuel `n` read stands on the tokens that they take. -/
structure TypeLayouts (exact : Prop) (n : Nat) : Prop where
  typeSpec {c c' : Cursor} {spec : TypeSpec} : (exact → c.Ended) → typeSpec n c = .ok (spec, c') →
    Advances exact c [spec.outline] c'
  memberLines {c c' : Cursor} {members : List (Member TypeSpec)} : (exact → c.Ended) →
    memberLines n c = .ok (members, c') → Advances exact c (memberOutlines members) c'

theorem run_specNote {note : SpecNote} {start : Span} (hc : exact → c.Ended)
    (h : specNote n start c = .ok (note, c')) :
    Lays exact c (suffixOutlines note.array) c' ∧ note.span = start.merge c'.before := by
  unfold specNote at h
  obtain ⟨array, c₁, harray, h⟩ := run_bind h
  obtain ⟨rfl, rfl⟩ := run_pure_spanFrom h
  exact ⟨lays_arraySuffix hc harray, rfl⟩

/-- What stands behind the tag of a structure that starts at `start`. -/
def structRest (n : Nat) (tag : Option String) (start : Span) : Parser TypeSpec := do
  expectMark .lBrace
  let members ← memberLines n
  let structSpan ← spanFrom start
  return .struct tag members structSpan (← specNote n start)

theorem TypeLayouts.structRest (ih : TypeLayouts exact n) {c₁ : Cursor} {tag : Option String}
    {spec : TypeSpec} (hc : exact → c.Ended) (hfront : Advances exact c [] c₁)
    (h : Parse.structRest n tag c.token.span c₁ = .ok (spec, c')) :
    Advances exact c [spec.outline] c' := by
  unfold Parse.structRest at h
  obtain ⟨hopen, h⟩ := run_expectMark _ _ _ h
  obtain ⟨members, c₂, hmembers, h⟩ := run_bind h
  rw [run_spanFrom] at h
  obtain ⟨note, c₃, hnote, h⟩ := run_bind h
  obtain ⟨rfl, rfl⟩ := run_pure h
  have hbrace := hfront.more (by simp [hopen])
  have hstruct := (hbrace.then (ih.memberLines (hbrace.ended hc) hmembers).lays).node hc
  obtain ⟨harray, hspan⟩ := run_specNote (hstruct.ended hc) hnote
  have hspec := (hstruct.then harray).node hc
  rw [← hspan] at hspec
  exact hspec

theorem TypeLayouts.typeSpec_step (ih : TypeLayouts exact n) {spec : TypeSpec}
    (hc : exact → c.Ended) (h : Parse.typeSpec (n + 1) c = .ok (spec, c')) :
    Advances exact c [spec.outline] c' := by
  have hc' : exact → c.next.Ended := fun hx => (hc hx).next
  unfold Parse.typeSpec at h
  rw [run_here, run_kind] at h
  cases hkind : c.kind with
  | keyword k =>
    cases k with
    | structWord =>
      simp only [hkind, run_advance, run_atIdentifier] at h
      have hword : Advances exact c [] c.next := .token (by simp [hkind])
      split at h
      · rw [bind_map_left] at h
        obtain ⟨x, hx, h⟩ := run_name _ _ h
        exact ih.structRest hc (hword.more (by simp [hx])) h
      · exact ih.structRest hc hword h
    | _ =>
      simp only [hkind] at h
      cases h
  | identifier x =>
    simp only [hkind, run_advance] at h
    obtain ⟨note, c₁, hnote, h⟩ := run_bind h
    obtain ⟨harray, hspan⟩ := run_specNote hc' hnote
    have hspec := (harray.behind (by simp [hkind])).node hc
    rw [← hspan] at hspec
    cases hbasic : BasicTy.ofName? x with
    | some b =>
      simp only [hbasic] at h
      obtain ⟨rfl, rfl⟩ := run_pure h
      exact hspec
    | none =>
      simp only [hbasic] at h
      obtain ⟨rfl, rfl⟩ := run_pure h
      exact hspec
  | _ =>
    simp only [hkind] at h
    cases h

theorem TypeLayouts.memberLines_step (ih : TypeLayouts exact n) {members : List (Member TypeSpec)}
    (hc : exact → c.Ended) (h : Parse.memberLines (n + 1) c = .ok (members, c')) :
    Advances exact c (memberOutlines members) c' := by
  unfold Parse.memberLines at h
  rw [run_kind] at h
  split at h
  · obtain ⟨hclose, h⟩ := run_expectMark _ _ _ h
    obtain ⟨rfl, rfl⟩ := run_pure h
    exact .token (by simp [hclose])
  · rw [run_here] at h
    obtain ⟨q, c₁, hq, h⟩ := run_bind h
    obtain ⟨spec, c₂, hspec, h⟩ := run_bind h
    obtain ⟨names, c₃, hnames, h⟩ := run_bind h
    rw [run_spanFrom] at h
    obtain ⟨others, c₄, hothers, h⟩ := run_bind h
    obtain ⟨rfl, rfl⟩ := run_pure h
    obtain ⟨⟨os, hlays⟩, hfront⟩ := lays_qualifiers hc hq
    have hc₁ := hlays.ended hc
    have htype := ih.typeSpec hc₁ hspec
    have hline := hfront _ _ (htype.then (advances_memberNames (htype.ended hc₁) hnames).lays)
    exact (hline.node hc).then (ih.memberLines (hline.ended hc) hothers).lays

theorem typeLayouts (exact : Prop) (n : Nat) : TypeLayouts exact n := by
  induction n with
  | zero =>
    constructor
    · intro c c' spec _ h
      cases h
    · intro c c' members _ h
      cases h
  | succ n ih => exact ⟨ih.typeSpec_step, ih.memberLines_step⟩

end Types

section Declarations

variable {exact : Prop} {n : Nat} {c c' : Cursor}

theorem advances_declarator {x : String} {d : Declarator} (hc : exact → c.Ended)
    (hkind : c.kind = .identifier x) (h : declarator n x c.token.span c.next = .ok (d, c')) :
    Advances exact c [d.outline] c' := by
  unfold declarator at h
  obtain ⟨array, c₁, harray, h⟩ := run_bind h
  rw [run_acceptMark] at h
  have hfront : Advances exact c (suffixOutlines array) c₁ :=
    (lays_arraySuffix (fun hx => (hc hx).next) harray).behind (by simp [hkind])
  split at h
  · rename_i heq
    simp only [if_true, bind_map_left] at h
    obtain ⟨init, c₂, hinit, h⟩ := run_bind h
    obtain ⟨rfl, rfl⟩ := run_pure_spanFrom h
    have hmore := hfront.more (by simp [heq])
    exact (hmore.then (advances_assignment (hmore.ended hc) hinit).lays).node hc
  · simp only [Bool.false_eq_true, if_false, pure_bind, run_spanFrom] at h
    obtain ⟨rfl, rfl⟩ := run_pure h
    have hnode := hfront.node hc
    unfold Declarator.outline
    simpa using hnode

theorem advances_moreDeclarators {ds : List Declarator} (hc : exact → c.Ended)
    (h : moreDeclarators n c = .ok (ds, c')) : Advances exact c (ds.map Declarator.outline) c' := by
  induction n generalizing c ds with
  | zero => cases h
  | succ n ih =>
    unfold moreDeclarators at h
    rw [run_acceptMark] at h
    split at h
    · rename_i hcomma
      have hc' : exact → c.next.Ended := fun hx => (hc hx).next
      simp only [if_true] at h
      obtain ⟨x, hkind, h⟩ := run_name _ _ h
      obtain ⟨d, c₁, hd, h⟩ := run_bind h
      obtain ⟨others, c₂, hothers, h⟩ := run_bind h
      obtain ⟨rfl, rfl⟩ := run_pure h
      have hfirst := advances_declarator hc' hkind hd
      exact (hfirst.then (ih (hfirst.ended hc') hothers).lays).lays.behind (by simp [hcomma])
    · simp only [Bool.false_eq_true, if_false] at h
      obtain ⟨hsemi, h⟩ := run_expectMark _ _ _ h
      obtain ⟨rfl, rfl⟩ := run_pure h
      exact .token (by simp [hsemi])

theorem advances_invariantTargets {targets : List InvariantTarget} (hc : exact → c.Ended)
    (h : invariantTargets n c = .ok (targets, c')) :
    Advances exact c (targets.map InvariantTarget.outline) c' := by
  induction n generalizing c targets with
  | zero => cases h
  | succ n ih =>
    unfold invariantTargets at h
    obtain ⟨x, hkind, h⟩ := run_name _ _ h
    dsimp only at h
    rw [run_acceptMark] at h
    have hname : Advances exact c [.node c.token.span []] c.next := .leaf (by simp [hkind])
    split at h
    · rename_i hcomma
      simp only [if_true] at h
      obtain ⟨others, c₂, hothers, h⟩ := run_bind h
      obtain ⟨rfl, rfl⟩ := run_pure h
      have hmore := hname.more (by simp [hcomma])
      exact hmore.then (ih (hmore.ended hc) hothers).lays
    · simp only [Bool.false_eq_true, if_false] at h
      obtain ⟨hsemi, h⟩ := run_expectMark _ _ _ h
      obtain ⟨rfl, rfl⟩ := run_pure h
      exact hname.more (by simp [hsemi])

theorem advances_interfaceBlock {quals : Qualifiers} {b : InterfaceBlock} (hc : exact → c.Ended)
    (h : interfaceBlock n quals c = .ok (b, c')) :
    b.qualifiers = quals ∧
      Advances exact c
        (memberOutlines b.members ++ b.instance?.toList.map Declarator.outline) c' := by
  unfold interfaceBlock at h
  obtain ⟨x, hkind, h⟩ := run_name _ _ h
  obtain ⟨hopen, h⟩ := run_expectMark _ _ _ h
  obtain ⟨members, c₁, hmembers, h⟩ := run_bind h
  have hfront : Advances exact c [] c.next.next :=
    (Advances.token (by simp [hkind])).more (by simp [hopen])
  have hlist := hfront.then ((typeLayouts exact n).memberLines (hfront.ended hc) hmembers).lays
  rw [run_atIdentifier] at h
  split at h
  · obtain ⟨y, hy, h⟩ := run_name _ _ h
    obtain ⟨array, c₂, harray, h⟩ := run_bind h
    rw [run_spanFrom] at h
    obtain ⟨hsemi, h⟩ := run_expectMark _ _ _ h
    obtain ⟨rfl, rfl⟩ := run_pure h
    have hname := advances_named (hlist.ended hc) hy harray
    have hall := (hlist.then hname.lays).more (by simp [hsemi])
    refine ⟨rfl, ?_⟩
    unfold Declarator.outline
    simpa using hall
  · obtain ⟨hsemi, h⟩ := run_expectMark _ _ _ h
    obtain ⟨rfl, rfl⟩ := run_pure h
    have hall := hlist.more (by simp [hsemi])
    exact ⟨rfl, by simpa using hall⟩

/-- What stands below a declaration, or in front of a parameter list. -/
def Head.outlines : Head → List Outline
  | .declaration d => d.outline.children
  | .function quals spec _ _ => [quals.outline, spec.outline]

/-- A declaration goes from its first token to its last one, and the name of a function is the token
read last. -/
def Head.Placed (exact : Prop) (c c' : Cursor) : Head → Prop
  | .declaration d => d.span = c.token.span.merge c'.before
  | .function _ _ _ nameSpan => exact → nameSpan = c'.before

theorem advances_head {r : Head} (hc : exact → c.Ended) (h : head n c = .ok (r, c')) :
    Advances exact c r.outlines c' ∧ r.Placed exact c c' := by
  have hc' : exact → c.next.Ended := fun hx => (hc hx).next
  unfold head at h
  rw [run_here, run_accept] at h
  split at h
  · rename_i hkind
    simp only [if_true, run_kind] at h
    cases hprecision : precision? c.next.kind with
    | none =>
      simp only [hprecision] at h
      cases h
    | some p =>
      have hword : c.next.kind ≠ .eof := fun heof => by simp [heof, precision?] at hprecision
      simp only [hprecision, run_advance] at h
      obtain ⟨spec, c₁, hspec, h⟩ := run_bind h
      obtain ⟨hsemi, h⟩ := run_expectMark _ _ _ h
      obtain ⟨rfl, rfl⟩ := run_pure_spanFrom h
      have htype := (typeLayouts exact n).typeSpec (fun hx => (hc' hx).next) hspec
      have hwords : Advances exact c [spec.outline] c₁ :=
        (htype.lays.behind hword).lays.behind (by simp [hkind])
      exact ⟨hwords.more (by simp [hsemi]), rfl⟩
  · simp only [Bool.false_eq_true, if_false] at h
    rw [run_atInvariantList] at h
    split at h
    · rename_i hlist
      have hkind : c.kind = .keyword .invariantWord := by
        simp only [Bool.and_eq_true, decide_eq_true_eq] at hlist
        exact hlist.1.1
      rw [run_advance] at h
      obtain ⟨targets, c₁, htargets, h⟩ := run_bind h
      obtain ⟨rfl, rfl⟩ := run_pure_spanFrom h
      exact ⟨(advances_invariantTargets hc' htargets).lays.behind (by simp [hkind]), rfl⟩
    · obtain ⟨quals, c₁, hquals, h⟩ := run_bind h
      obtain ⟨⟨os, hlays⟩, hfront⟩ := lays_qualifiers hc hquals
      have hc₁ := hlays.ended hc
      rw [run_get] at h
      split at h
      · obtain ⟨b, c₂, hb, h⟩ := run_bind h
        obtain ⟨rfl, rfl⟩ := run_pure_spanFrom h
        obtain ⟨rfl, hblock⟩ := advances_interfaceBlock hc₁ hb
        exact ⟨hfront _ _ hblock, rfl⟩
      · obtain ⟨spec, c₂, hspec, h⟩ := run_bind h
        have htype := (typeLayouts exact n).typeSpec hc₁ hspec
        rw [run_acceptMark] at h
        split at h
        · rename_i hsemi
          simp only [if_true, run_spanFrom] at h
          obtain ⟨rfl, rfl⟩ := run_pure h
          exact ⟨hfront _ _ (htype.more (by simp [hsemi])), rfl⟩
        · simp only [Bool.false_eq_true, if_false] at h
          obtain ⟨x, hx, h⟩ := run_name _ _ h
          dsimp only at h
          rw [run_atMark] at h
          split at h
          · obtain ⟨rfl, rfl⟩ := run_pure h
            exact ⟨hfront _ _ (htype.more (by simp [hx])),
              fun hexact => ((htype.ended hc₁ hexact).before_next (by simp [hx])).symm⟩
          · obtain ⟨first, c₃, hfirst, h⟩ := run_bind h
            obtain ⟨others, c₄, hothers, h⟩ := run_bind h
            obtain ⟨rfl, rfl⟩ := run_pure_spanFrom h
            have hc₂ := htype.ended hc₁
            have hname := advances_declarator hc₂ hx hfirst
            have hmore := advances_moreDeclarators (hname.ended hc₂) hothers
            exact ⟨hfront _ _ (htype.then (hname.then hmore.lays).lays), rfl⟩

theorem advances_declaration {d : Declaration} (hc : exact → c.Ended)
    (h : head n c = .ok (.declaration d, c')) :
    Advances exact c [d.outline] c' ∧ d.span = c.token.span.merge c'.before := by
  obtain ⟨hinner, hspan⟩ := advances_head hc h
  have hnode := hinner.node hc
  rw [← show d.span = _ from hspan] at hnode
  exact ⟨d.outline_eq ▸ hnode, hspan⟩

theorem head_of_localDeclaration {d : Declaration} (h : localDeclaration n c = .ok (d, c')) :
    head n c = .ok (.declaration d, c') := by
  unfold localDeclaration at h
  obtain ⟨r, c₁, hr, h⟩ := run_bind h
  cases r with
  | declaration d' =>
    obtain ⟨rfl, rfl⟩ := run_pure h
    exact hr
  | function quals spec x nameSpan => cases h

end Declarations

section Statements

variable {exact : Prop} {n : Nat} {c c' : Cursor}

theorem advances_simpleStatement {s : Stmt} (hc : exact → c.Ended)
    (h : simpleStatement n c = .ok (s, c')) : Advances exact c [s.outline] c' := by
  unfold simpleStatement at h
  rw [run_get] at h
  split at h
  · obtain ⟨d, c₁, hd, h⟩ := run_bind h
    obtain ⟨rfl, rfl⟩ := run_pure h
    obtain ⟨hdecl, hspan⟩ := advances_declaration hc (head_of_localDeclaration hd)
    have hnode := hdecl.node hc
    rw [← hspan] at hnode
    exact hnode
  · unfold expressionStatement at h
    rw [run_here] at h
    obtain ⟨e, c₁, he, h⟩ := run_bind h
    obtain ⟨hsemi, h⟩ := run_expectMark _ _ _ h
    obtain ⟨rfl, rfl⟩ := run_pure_spanFrom h
    exact ((advances_expression hc he).more (by simp [hsemi])).node hc

theorem advances_enclosed {e : Expr} (hc : exact → c.Ended) (h : enclosed n c = .ok (e, c')) :
    Advances exact c [e.outline] c' := by
  unfold enclosed at h
  obtain ⟨hopen, h⟩ := run_expectMark _ _ _ h
  obtain ⟨e', c₁, he, h⟩ := run_bind h
  obtain ⟨hclose, h⟩ := run_expectMark _ _ _ h
  obtain ⟨rfl, rfl⟩ := run_pure h
  have hexpr := advances_expression (fun hx => (hc hx).next) he
  exact (hexpr.lays.behind (by simp [hopen])).more (by simp [hclose])

theorem lays_expressionBefore {stop : Mark} {e : Option Expr} (hc : exact → c.Ended)
    (h : expressionBefore? n stop c = .ok (e, c')) :
    Lays exact c (e.toList.map Expr.outline) c' := by
  unfold expressionBefore? at h
  rw [run_atMark] at h
  split at h
  · obtain ⟨rfl, rfl⟩ := run_pure h
    exact .nil
  · rw [map_eq_pure_bind] at h
    obtain ⟨e', c₁, he, h⟩ := run_bind h
    obtain ⟨rfl, rfl⟩ := run_pure h
    exact (advances_expression hc he).lays

/-- What the parsers of statements with fuel `n` read stands on the tokens that they take. -/
structure StatementLayouts (exact : Prop) (n : Nat) : Prop where
  statement {c c' : Cursor} {s : Stmt} : (exact → c.Ended) → statement n c = .ok (s, c') →
    Advances exact c [s.outline] c'
  block {c c' : Cursor} {b : Block Stmt} : (exact → c.Ended) → block n c = .ok (b, c') →
    Advances exact c [b.outline] c'
  statements {c c' : Cursor} {ss : List Stmt} : (exact → c.Ended) → statements n c = .ok (ss, c') →
    Advances exact c (Stmt.outlines ss) c'

theorem StatementLayouts.block_step (ih : StatementLayouts exact n) {b : Block Stmt}
    (hc : exact → c.Ended) (h : Parse.block (n + 1) c = .ok (b, c')) :
    Advances exact c [b.outline] c' := by
  unfold Parse.block at h
  rw [run_here] at h
  obtain ⟨hopen, h⟩ := run_expectMark _ _ _ h
  obtain ⟨stmts, c₁, hstmts, h⟩ := run_bind h
  obtain ⟨rfl, rfl⟩ := run_pure_spanFrom h
  have hinner := ih.statements (fun hx => (hc hx).next) hstmts
  exact (hinner.lays.behind (by simp [hopen])).node hc

theorem StatementLayouts.statements_step (ih : StatementLayouts exact n) {ss : List Stmt}
    (hc : exact → c.Ended) (h : Parse.statements (n + 1) c = .ok (ss, c')) :
    Advances exact c (Stmt.outlines ss) c' := by
  unfold Parse.statements at h
  rw [run_kind] at h
  split at h
  · obtain ⟨hclose, h⟩ := run_expectMark _ _ _ h
    obtain ⟨rfl, rfl⟩ := run_pure h
    exact .token (by simp [hclose])
  · obtain ⟨s, c₁, hs, h⟩ := run_bind h
    obtain ⟨others, c₂, hothers, h⟩ := run_bind h
    obtain ⟨rfl, rfl⟩ := run_pure h
    have hfirst := ih.statement hc hs
    exact hfirst.then (ih.statements (hfirst.ended hc) hothers).lays

/-- What stands behind the first part of a `for` loop that starts at `start`. -/
def forRest (n : Nat) (init? : Option Stmt) (start : Span) : Parser Stmt := do
  let condition ← expressionBefore? n .semi
  expectMark .semi
  let update ← expressionBefore? n .rParen
  expectMark .rParen
  let body ← statement n
  return .forLoop init? condition update body (← spanFrom start)

theorem StatementLayouts.forRest (ih : StatementLayouts exact n) (init? : Option Stmt)
    {c₁ : Cursor} {s : Stmt} (hc : exact → c.Ended)
    (hinit : Advances exact c (init?.toList.map Stmt.outline) c₁)
    (h : Parse.forRest n init? c.token.span c₁ = .ok (s, c')) :
    Advances exact c [s.outline] c' := by
  unfold Parse.forRest at h
  obtain ⟨e, c₂, he, h⟩ := run_bind h
  obtain ⟨hsemi, h⟩ := run_expectMark _ _ _ h
  obtain ⟨u, c₃, hu, h⟩ := run_bind h
  obtain ⟨hclose, h⟩ := run_expectMark _ _ _ h
  obtain ⟨t, c₄, ht, h⟩ := run_bind h
  obtain ⟨rfl, rfl⟩ := run_pure_spanFrom h
  have hcond := (hinit.then (lays_expressionBefore (hinit.ended hc) he)).more (by simp [hsemi])
  have hupdate := (hcond.then (lays_expressionBefore (hcond.ended hc) hu)).more (by simp [hclose])
  have hall := (hupdate.then (ih.statement (hupdate.ended hc) ht).lays).node hc
  cases init? <;> simpa [Stmt.outline] using hall

theorem StatementLayouts.statement_step (ih : StatementLayouts exact n) {s : Stmt}
    (hc : exact → c.Ended) (h : Parse.statement (n + 1) c = .ok (s, c')) :
    Advances exact c [s.outline] c' := by
  have hc' : exact → c.next.Ended := fun hx => (hc hx).next
  unfold Parse.statement at h
  rw [run_here, run_kind] at h
  -- The first token tells the statement; what is read later is laid behind what was read before.
  cases hkind : c.kind with
  | mark m =>
    cases m with
    | lBrace =>
      simp only [hkind] at h
      obtain ⟨b, c₁, hb, h⟩ := run_bind h
      obtain ⟨rfl, rfl⟩ := run_pure_spanFrom h
      exact (ih.block hc hb).node hc
    | semi =>
      simp only [hkind, run_advance] at h
      obtain ⟨rfl, rfl⟩ := run_pure h
      exact .leaf (by simp [hkind])
    | _ =>
      simp only [hkind] at h
      exact advances_simpleStatement hc h
  | keyword k =>
    have hword : Advances exact c [] c.next := .token (by simp [hkind])
    cases k with
    | ifWord =>
      simp only [hkind, run_advance] at h
      obtain ⟨e, c₁, he, h⟩ := run_bind h
      obtain ⟨t, c₂, ht, h⟩ := run_bind h
      have hcond := hword.then (advances_enclosed hc' he).lays
      have htrue := hcond.then (ih.statement (hcond.ended hc) ht).lays
      rw [run_accept] at h
      split at h
      · rename_i helse
        simp only [if_true] at h
        obtain ⟨f, c₃, hf, h⟩ := run_bind h
        obtain ⟨rfl, rfl⟩ := run_pure_spanFrom h
        have hmore := htrue.more (by simp [helse])
        exact (hmore.then (ih.statement (hmore.ended hc) hf).lays).node hc
      · simp only [Bool.false_eq_true, if_false, run_spanFrom] at h
        obtain ⟨rfl, rfl⟩ := run_pure h
        exact htrue.node hc
    | switchWord =>
      simp only [hkind, run_advance] at h
      obtain ⟨e, c₁, he, h⟩ := run_bind h
      obtain ⟨b, c₂, hb, h⟩ := run_bind h
      obtain ⟨rfl, rfl⟩ := run_pure_spanFrom h
      have hcond := hword.then (advances_enclosed hc' he).lays
      exact (hcond.then (ih.block (hcond.ended hc) hb).lays).node hc
    | caseWord =>
      simp only [hkind, run_advance] at h
      obtain ⟨e, c₁, he, h⟩ := run_bind h
      obtain ⟨hcolon, h⟩ := run_expectMark _ _ _ h
      obtain ⟨rfl, rfl⟩ := run_pure_spanFrom h
      exact ((hword.then (advances_expression hc' he).lays).more (by simp [hcolon])).node hc
    | defaultWord =>
      simp only [hkind, run_advance] at h
      obtain ⟨hcolon, h⟩ := run_expectMark _ _ _ h
      obtain ⟨rfl, rfl⟩ := run_pure_spanFrom h
      exact (hword.more (by simp [hcolon])).node hc
    | whileWord =>
      simp only [hkind, run_advance] at h
      obtain ⟨e, c₁, he, h⟩ := run_bind h
      obtain ⟨t, c₂, ht, h⟩ := run_bind h
      obtain ⟨rfl, rfl⟩ := run_pure_spanFrom h
      have hcond := hword.then (advances_enclosed hc' he).lays
      exact (hcond.then (ih.statement (hcond.ended hc) ht).lays).node hc
    | doWord =>
      simp only [hkind, run_advance] at h
      obtain ⟨t, c₁, ht, h⟩ := run_bind h
      obtain ⟨hwhile, h⟩ := run_expect _ _ _ h
      obtain ⟨e, c₂, he, h⟩ := run_bind h
      obtain ⟨hsemi, h⟩ := run_expectMark _ _ _ h
      obtain ⟨rfl, rfl⟩ := run_pure_spanFrom h
      have hbody := (hword.then (ih.statement hc' ht).lays).more (by simp [hwhile])
      exact ((hbody.then (advances_enclosed (hbody.ended hc) he).lays).more
        (by simp [hsemi])).node hc
    | forWord =>
      simp only [hkind, run_advance] at h
      obtain ⟨hopen, h⟩ := run_expectMark _ _ _ h
      have hparen := hword.more (by simp [hopen])
      rw [run_acceptMark] at h
      split at h
      · rename_i hsemi
        exact ih.forRest none hc (hparen.more (by simp [hsemi])) h
      · simp only [Bool.false_eq_true, if_false, bind_map_left] at h
        obtain ⟨init, c₁, hinit, h⟩ := run_bind h
        have hfirst := hparen.then (advances_simpleStatement (hparen.ended hc) hinit).lays
        exact ih.forRest (some init) hc hfirst h
    | continueWord | breakWord | discardWord =>
      simp only [hkind, run_advance] at h
      obtain ⟨hsemi, h⟩ := run_expectMark _ _ _ h
      obtain ⟨rfl, rfl⟩ := run_pure_spanFrom h
      exact (hword.more (by simp [hsemi])).node hc
    | returnWord =>
      simp only [hkind, run_advance] at h
      obtain ⟨e, c₁, he, h⟩ := run_bind h
      obtain ⟨hsemi, h⟩ := run_expectMark _ _ _ h
      obtain ⟨rfl, rfl⟩ := run_pure_spanFrom h
      have hall := ((hword.then (lays_expressionBefore hc' he)).more (by simp [hsemi])).node hc
      cases e <;> exact hall
    | _ =>
      simp only [hkind] at h
      exact advances_simpleStatement hc h
  | _ =>
    simp only [hkind] at h
    exact advances_simpleStatement hc h

theorem statementLayouts (exact : Prop) (n : Nat) : StatementLayouts exact n := by
  induction n with
  | zero =>
    constructor
    · intro c c' s _ h
      cases h
    · intro c c' b _ h
      cases h
    · intro c c' ss _ h
      cases h
  | succ n ih => exact ⟨ih.statement_step, ih.block_step, ih.statements_step⟩

end Statements

section Functions

variable {exact : Prop} {n : Nat} {c c' : Cursor}

theorem advances_parameter {p : ParamDecl} (hc : exact → c.Ended)
    (h : parameter n c = .ok (p, c')) : Advances exact c [p.outline] c' := by
  unfold parameter at h
  rw [run_here] at h
  obtain ⟨quals, c₁, hquals, h⟩ := run_bind h
  obtain ⟨spec, c₂, hspec, h⟩ := run_bind h
  obtain ⟨⟨os, hlays⟩, hfront⟩ := lays_qualifiers hc hquals
  have hc₁ := hlays.ended hc
  have htype := (typeLayouts exact n).typeSpec hc₁ hspec
  rw [run_atIdentifier] at h
  split at h
  · obtain ⟨x, hx, h⟩ := run_name _ _ h
    obtain ⟨array, c₃, harray, h⟩ := run_bind h
    obtain ⟨rfl, rfl⟩ := run_pure_spanFrom h
    have hname := htype.more (by simp [hx])
    exact (hfront _ _ (hname.then (lays_arraySuffix (hname.ended hc₁) harray))).node hc
  · rw [run_spanFrom] at h
    obtain ⟨rfl, rfl⟩ := run_pure h
    exact (hfront _ _ htype).node hc

theorem advances_parameters {ps : List ParamDecl} (hc : exact → c.Ended)
    (h : parameters n c = .ok (ps, c')) : Advances exact c (ps.map ParamDecl.outline) c' := by
  induction n generalizing c ps with
  | zero => cases h
  | succ n ih =>
    unfold parameters at h
    obtain ⟨p, c₁, hp, h⟩ := run_bind h
    have hfirst := advances_parameter hc hp
    rw [run_acceptMark] at h
    split at h
    · rename_i hcomma
      simp only [if_true] at h
      obtain ⟨others, c₂, hothers, h⟩ := run_bind h
      obtain ⟨rfl, rfl⟩ := run_pure h
      have hmore := hfirst.more (by simp [hcomma])
      exact hmore.then (ih (hmore.ended hc) hothers).lays
    · simp only [Bool.false_eq_true, if_false] at h
      obtain ⟨rfl, rfl⟩ := run_pure h
      exact hfirst

/-- What follows the parameters of a function that starts at `start`. -/
def functionBody (n : Nat) (quals : Qualifiers) (spec : TypeSpec) (x : String)
    (params : List ParamDecl) (start : Span) : Parser FunctionDecl := do
  expectMark .rParen
  let body ← if ← acceptMark .semi then pure none else some <$> block n
  return ⟨quals, spec, x, params, body, ← spanFrom start⟩

section Function

variable {quals : Qualifiers} {spec : TypeSpec} {x : String} {start : Span} {f : FunctionDecl}

theorem advances_functionBody (params : List ParamDecl) {c₁ : Cursor} (hc : exact → c.Ended)
    (hparams : Advances exact c (params.map ParamDecl.outline) c₁)
    (h : functionBody n quals spec x params start c₁ = .ok (f, c')) :
    f.qualifiers = quals ∧ f.spec = spec ∧ f.span = start.merge c'.before ∧
      Advances exact c (f.params.map ParamDecl.outline ++ f.body.toList.map Block.outline) c' := by
  unfold functionBody at h
  obtain ⟨hclose, h⟩ := run_expectMark _ _ _ h
  have hlist := hparams.more (by simp [hclose])
  rw [run_acceptMark] at h
  split at h
  · rename_i hsemi
    simp only [if_true, pure_bind] at h
    obtain ⟨rfl, rfl⟩ := run_pure_spanFrom h
    refine ⟨rfl, rfl, rfl, ?_⟩
    have hall := hlist.more (by simp [hsemi])
    simpa using hall
  · simp only [Bool.false_eq_true, if_false, bind_map_left] at h
    obtain ⟨body, c₂, hbody, h⟩ := run_bind h
    obtain ⟨rfl, rfl⟩ := run_pure_spanFrom h
    have hblock := (statementLayouts exact n).block (hlist.ended hc) hbody
    exact ⟨rfl, rfl, rfl, hlist.then hblock.lays⟩

theorem advances_functionRest (hc : exact → c.Ended)
    (h : functionRest n quals spec x start c = .ok (f, c')) :
    f.qualifiers = quals ∧ f.spec = spec ∧ f.span = start.merge c'.before ∧
      Advances exact c (f.params.map ParamDecl.outline ++ f.body.toList.map Block.outline) c' := by
  unfold functionRest at h
  obtain ⟨hopen, h⟩ := run_expectMark _ _ _ h
  have hparen : Advances exact c [] c.next := .token (by simp [hopen])
  rw [run_atVoidList] at h
  split at h
  · rename_i hvoid
    have hword : c.next.kind = .identifier "void" := by
      simp only [Bool.and_eq_true, decide_eq_true_eq] at hvoid
      exact hvoid.1
    exact advances_functionBody [] hc (hparen.more (by simp [hword])) h
  · simp only [run_atMark] at h
    split at h
    · exact advances_functionBody [] hc hparen h
    · obtain ⟨params, c₁, hparams, h⟩ := run_bind h
      have hlist := advances_parameters (hparen.ended hc) hparams
      exact advances_functionBody params hc (hparen.then hlist.lays) h

end Function

theorem advances_topLevel {d : TopLevel} (hc : exact → c.Ended)
    (h : topLevel n c = .ok (d, c')) : Advances exact c [d.outline] c' := by
  unfold topLevel at h
  rw [run_here] at h
  obtain ⟨r, c₁, hr, h⟩ := run_bind h
  cases r with
  | declaration d' =>
    obtain ⟨rfl, rfl⟩ := run_pure h
    exact (advances_declaration hc hr).1
  | function quals spec x nameSpan =>
    obtain ⟨f, c₂, hf, h⟩ := run_bind h
    obtain ⟨rfl, rfl⟩ := run_pure h
    obtain ⟨hfront, -⟩ := advances_head hc hr
    obtain ⟨rfl, rfl, hspan, hrest⟩ := advances_functionRest (hfront.ended hc) hf
    have hnode := (hfront.then hrest.lays).node hc
    rw [← hspan] at hnode
    exact hnode

/-- The top levels of a unit stand one after the other, and the end of the source comes next. -/
theorem lays_topLevels {unit : TranslationUnit} (hc : exact → c.Ended)
    (h : topLevels n c = .ok (unit, c')) :
    Lays exact c (unit.map TopLevel.outline) c' ∧ c'.kind = .eof := by
  induction n generalizing c unit with
  | zero => cases h
  | succ n ih =>
    unfold topLevels at h
    rw [run_isAt] at h
    split at h
    · rename_i heof
      obtain ⟨rfl, rfl⟩ := run_pure h
      exact ⟨.nil, by simpa using heof⟩
    · obtain ⟨d, c₁, hd, h⟩ := run_bind h
      obtain ⟨others, c₂, hothers, h⟩ := run_bind h
      obtain ⟨rfl, rfl⟩ := run_pure h
      have hfirst := advances_topLevel hc hd
      obtain ⟨hmore, heof⟩ := ih (hfirst.ended hc) hothers
      exact ⟨(hfirst.then hmore).lays, heof⟩

end Functions

end Parse

end Shader
