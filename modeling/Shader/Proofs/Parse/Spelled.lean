import Shader.Proofs.Outline
import Shader.Proofs.Parse.Run

/-! The tokens of an expression. In the tokens that an expression is read from, brackets are closed,
no semicolon stands, no name follows a name or a bracket, and each node of the expression takes up
the tokens between its first and its last one. -/

namespace Shader

open Outline

/-- The token does not matter to a search for a closing bracket. -/
def TokenKind.IsPlain (k : TokenKind) : Prop :=
  k ≠ .mark .lBracket ∧ k ≠ .mark .rBracket ∧ k ≠ .mark .semi ∧ k ≠ .eof

/-- The mark opens or closes no bracket and ends no statement. -/
def Mark.isPlain : Mark → Bool
  | lBracket | rBracket | semi => false
  | _ => true

/-- No name can follow the token in an expression. -/
def TokenKind.endsName (k : TokenKind) : Bool :=
  k.isIdentifier || k = .mark .rBracket

/-- No name stands behind a token that ends one. -/
def Apart : (afterName : Bool) → List Token → Prop
  | _, [] => True
  | afterName, t :: ts =>
    (t.kind.isIdentifier = true → afterName = false) ∧ Apart t.kind.endsName ts

/-- A search for a closing bracket goes past the tokens. -/
def Clear (ts : List Token) : Prop :=
  ∀ depth rest, Cursor.afterClosing depth (ts ++ rest) = Cursor.afterClosing depth rest

/-- Tokens that can make up an expression. -/
structure Fits (ts : List Token) : Prop where
  starts : ∃ t us, ts = t :: us ∧ ∀ k, t.kind = .keyword k → k = .trueWord ∨ k = .falseWord
  apart : Apart false ts
  clear : Clear ts

/-- Tokens that can follow those of an expression, in the same expression. -/
structure Trails (ts : List Token) : Prop where
  apart : ∀ afterName, Apart afterName ts
  clear : Clear ts

section Tokens

variable {ts us vs : List Token} {t l r : Token} {m : Mark} {b : Bool}

theorem afterClosing_plain (ht : t.kind.IsPlain) (depth : Nat) :
    Cursor.afterClosing depth (t :: ts) = Cursor.afterClosing depth ts := by
  obtain ⟨hl, hr, hsemi, heof⟩ := ht
  cases depth <;> simp [Cursor.afterClosing, hl, hr, hsemi, heof]

theorem afterClosing_open (ht : t.kind = .mark .lBracket) (depth : Nat) :
    Cursor.afterClosing depth (t :: ts) = Cursor.afterClosing (depth + 1) ts := by
  cases depth <;> simp [Cursor.afterClosing, ht]

theorem afterClosing_close (ht : t.kind = .mark .rBracket) (depth : Nat) :
    Cursor.afterClosing (depth + 1) (t :: ts) = Cursor.afterClosing depth ts := by
  simp [Cursor.afterClosing, ht]

theorem clear_nil : Clear [] :=
  fun _ _ => rfl

theorem Clear.append (hus : Clear us) (hvs : Clear vs) : Clear (us ++ vs) := by
  intro depth rest
  rw [List.append_assoc, hus, hvs]

theorem Clear.cons (ht : t.kind.IsPlain) (hts : Clear ts) : Clear (t :: ts) := by
  intro depth rest
  rw [List.cons_append, afterClosing_plain ht, hts]

theorem Clear.brackets (hts : Clear ts) (hl : l.kind = .mark .lBracket)
    (hr : r.kind = .mark .rBracket) : Clear (l :: (ts ++ [r])) := by
  intro depth rest
  rw [List.cons_append, afterClosing_open hl, List.append_assoc, hts, List.cons_append,
    afterClosing_close hr, List.nil_append]

theorem Apart.append (hus : Apart b us) (hvs : ∀ b, Apart b vs) : Apart b (us ++ vs) := by
  induction us generalizing b with
  | nil => exact hvs b
  | cons t us ih => exact ⟨hus.1, ih hus.2⟩

theorem apart_append_cons (ht : t.kind.isIdentifier = false) :
    Apart b (us ++ t :: vs) ↔ Apart b us ∧ Apart t.kind.endsName vs := by
  induction us generalizing b with
  | nil => simp [Apart, ht]
  | cons u us ih => simp [Apart, ih, and_assoc]

theorem isPlain_mark (h : m.isPlain = true) : (TokenKind.mark m).IsPlain := by
  refine ⟨?_, ?_, ?_, by simp⟩ <;> (rintro ⟨⟩; cases h)

theorem Fits.ne_nil (h : Fits ts) : ts ≠ [] := by
  obtain ⟨t, us, rfl, -⟩ := h.starts
  exact List.cons_ne_nil t us

theorem Trails.nil : Trails [] :=
  ⟨fun _ => trivial, clear_nil⟩

theorem Trails.append (hus : Trails us) (hvs : Trails vs) : Trails (us ++ vs) :=
  ⟨fun b => (hus.apart b).append hvs.apart, hus.clear.append hvs.clear⟩

theorem Fits.append (hus : Fits us) (hvs : Trails vs) : Fits (us ++ vs) := by
  obtain ⟨t, ts, rfl, ht⟩ := hus.starts
  exact ⟨⟨t, ts ++ vs, rfl, ht⟩, hus.apart.append hvs.apart, hus.clear.append hvs.clear⟩

theorem Trails.cons (ht : t.kind = .mark m) (hm : m.isPlain = true)
    (hts : Apart false ts) (hclear : Clear ts) : Trails (t :: ts) := by
  have hplain : t.kind.IsPlain := ht ▸ isPlain_mark hm
  have hident : t.kind.isIdentifier = false := by simp [ht, TokenKind.isIdentifier]
  have hends : t.kind.endsName = false := by simp [TokenKind.endsName, hident, hplain.2.1]
  exact ⟨fun b => ⟨by simp [hident], by rwa [hends]⟩, hclear.cons hplain⟩

theorem Trails.mark (ht : t.kind = .mark m) (hm : m.isPlain = true) :
    Trails [t] :=
  .cons ht hm trivial clear_nil

theorem Fits.behind (hts : Fits ts) (ht : t.kind = .mark m)
    (hm : m.isPlain = true) : Trails (t :: ts) :=
  .cons ht hm hts.apart hts.clear

theorem Fits.cons (hts : Fits ts) (ht : t.kind = .mark m)
    (hm : m.isPlain = true) : Fits (t :: ts) := by
  have htrails := hts.behind ht hm
  exact ⟨⟨t, ts, rfl, by simp [ht]⟩, htrails.apart false, htrails.clear⟩

theorem Trails.brackets (hl : l.kind = .mark .lBracket) (hr : r.kind = .mark .rBracket)
    (hts : Apart false ts) (hclear : Clear ts) : Trails (l :: (ts ++ [r])) := by
  have hends : l.kind.endsName = false := by simp [TokenKind.endsName, TokenKind.isIdentifier, hl]
  refine ⟨fun b => ⟨by simp [hl, TokenKind.isIdentifier], ?_⟩, hclear.brackets hl hr⟩
  rw [hends]
  exact (apart_append_cons (by simp [hr, TokenKind.isIdentifier])).mpr ⟨hts, trivial⟩

theorem Fits.leaf (ht : t.kind.IsPlain)
    (hk : ∀ k, t.kind = .keyword k → k = .trueWord ∨ k = .falseWord) : Fits [t] :=
  ⟨⟨t, [], rfl, hk⟩, ⟨fun _ => rfl, trivial⟩, clear_nil.cons ht⟩

end Tokens

section Operators

variable {k : TokenKind}

theorem BinaryOp.kind_of_ofToken? {level : Nat} {op : BinaryOp} (h : ofToken? level k = some op) :
    k = .mark op.mark := by
  have := List.find?_some h
  simp only [Bool.and_eq_true, decide_eq_true_eq] at this
  exact this.2

theorem BinaryOp.isPlain_mark (op : BinaryOp) : op.mark.isPlain = true := by
  cases op <;> rfl

theorem AssignOp.kind_of_ofToken? {op : AssignOp} (h : ofToken? k = some op) :
    k = .mark op.mark := by
  simpa using List.find?_some h

theorem AssignOp.isPlain_mark (op : AssignOp) : op.mark.isPlain = true := by
  cases op with
  | plain => rfl
  | combine op => cases op <;> rfl

theorem UnaryOp.kind_of_ofToken? {op : UnaryOp} (h : ofToken? k = some op) : k = .mark op.mark := by
  simpa using List.find?_some h

theorem UnaryOp.isPlain_mark (op : UnaryOp) : op.mark.isPlain = true := by
  cases op <;> rfl

theorem UpdateOp.kind_of_ofToken? {op : UpdateOp} (h : ofToken? k = some op) :
    k = .mark op.mark := by
  simpa using List.find?_some h

theorem UpdateOp.isPlain_mark (op : UpdateOp) : op.mark.isPlain = true := by
  cases op <;> rfl

end Operators

theorem Cursor.Takes.merge_before {c c' : Cursor} {ts us : List Token} (h : c.Takes ts c')
    (hc : c.Ended) (hord : Ordered ts) (hus : us <+: ts) (hu : us ≠ []) :
    (extent us).merge c'.before = extent ts := by
  have hne : ts ≠ [] := fun hnil => hu (List.prefix_nil.mp (hnil ▸ hus))
  have hlast : [ts.getLast hne] <:+ ts := ⟨ts.dropLast, List.dropLast_concat_getLast hne⟩
  rw [hc.before h hne]
  exact hord.merge_extent hus hlast hu (by simp)

theorem Cursor.Takes.merge_before_head {c c' : Cursor} {t : Token} {ts : List Token}
    (h : c.Takes (t :: ts) c') (hc : c.Ended) (hord : Ordered (t :: ts)) :
    t.span.merge c'.before = extent (t :: ts) :=
  h.merge_before hc hord (List.prefix_append [t] ts) (List.cons_ne_nil t [])

/-- The expression is what the tokens say. Where it stands is only told of lists that mark their
end. -/
structure Expr.Spelled (exact : Prop) (e : Expr) (ts : List Token) : Prop where
  fits : Fits ts
  stands : exact → Ordered ts → e.outline.Stands ts

namespace Parse

/-- The expression is read from the tokens between the two cursors. -/
def Spells (exact : Prop) (c : Cursor) (e : Expr) (c' : Cursor) : Prop :=
  ∃ ts, c.Takes ts c' ∧ e.Spelled exact ts

variable {exact : Prop} {c c' c₁ c₂ c₃ : Cursor} {d e l r x y z : Expr} {m : Mark} {ws : List Token}

theorem Spells.leaf (hkind : c.kind.IsPlain)
    (hword : ∀ k, c.kind = .keyword k → k = .trueWord ∨ k = .falseWord)
    (he : e.outline = .node c.token.span []) : Spells exact c e c.next := by
  refine ⟨[c.token], .one hkind.2.2.2, .leaf hkind hword, fun _ _ => ?_⟩
  rw [he]
  exact ⟨by simp, rfl, .gaps _⟩

theorem Spells.pair (hl : Spells exact c l c₁) (hkind : c₁.kind = .mark m)
    (hm : m.isPlain = true) (hr : Spells exact c₁.next r c')
    (he : e.outline = .node (l.span.merge r.span) [l.outline, r.outline]) :
    Spells exact c e c' := by
  obtain ⟨us, hus, hl⟩ := hl
  obtain ⟨vs, hvs, hr⟩ := hr
  refine ⟨us ++ c₁.token :: vs, hus.trans (.cons (by simp [hkind]) hvs),
    hl.fits.append (hr.fits.behind hkind hm), fun hx hord => ?_⟩
  have hleft := hl.stands hx hord.left
  have hright := hr.stands hx hord.right.tail
  rw [he, ← l.span_outline, ← r.span_outline, hleft.span, hright.span]
  refine ⟨by simp, ?_, hleft.single.append (.gap _ hright.single)⟩
  exact hord.merge_extent (List.prefix_append _ _)
    ((List.suffix_cons _ _).trans (List.suffix_append _ _)) hleft.ne_nil hright.ne_nil

theorem Spells.inFront (hkind : c.kind = .mark m)
    (hm : m.isPlain = true) (hd : Spells exact c.next d c')
    (he : e.outline = .node (c.token.span.merge d.span) [d.outline]) : Spells exact c e c' := by
  obtain ⟨vs, hvs, hd⟩ := hd
  refine ⟨c.token :: vs, .cons (by simp [hkind]) hvs, hd.fits.cons hkind hm, fun hx hord => ?_⟩
  have hoperand := hd.stands hx hord.tail
  rw [he, ← d.span_outline, hoperand.span]
  refine ⟨by simp, ?_, .gap _ hoperand.single⟩
  exact hord.merge_extent (List.prefix_append [c.token] vs) (List.suffix_cons _ _)
    (List.cons_ne_nil _ _) hoperand.ne_nil

theorem Spells.behind {os : List Outline} (hc : exact → c.Ended) (hd : Spells exact c d c₁)
    (hws : c₁.Takes ws c') (htrails : Trails ws) (hrow : exact → Ordered ws → Row os ws)
    (he : e.outline = .node (d.span.merge c'.before) (d.outline :: os)) : Spells exact c e c' := by
  obtain ⟨us, hus, hd⟩ := hd
  refine ⟨us ++ ws, hus.trans hws, hd.fits.append htrails, fun hx hord => ?_⟩
  have hoperand := hd.stands hx hord.left
  rw [he, ← d.span_outline, hoperand.span]
  refine ⟨by simp [hoperand.ne_nil], ?_, hoperand.single.append (hrow hx hord.right)⟩
  exact (hus.trans hws).merge_before (hc hx) hord (List.prefix_append _ _) hoperand.ne_nil

theorem Spells.ended_next (h : Spells exact c e c') (hc : exact → c.Ended) :
    exact → c'.next.Ended := by
  obtain ⟨ts, hts, -⟩ := h
  exact fun hx => ((hc hx).takes hts).1.next

theorem Spells.index (hc : exact → c.Ended) (hl : Spells exact c l c₁)
    (hopen : c₁.kind = .mark .lBracket) (hr : Spells exact c₁.next r c₂)
    (hclose : c₂.kind = .mark .rBracket)
    (he : e.outline = .node (l.span.merge c₂.next.before) [l.outline, r.outline]) :
    Spells exact c e c₂.next := by
  obtain ⟨vs, hvs, hr⟩ := hr
  refine hl.behind hc (.cons (by simp [hopen]) (hvs.snoc (by simp [hclose])))
    (.brackets hopen hclose hr.fits.apart hr.fits.clear) (fun hx hord => ?_) he
  have hrow := (hr.stands hx hord.tail.left).single.append (Row.gaps [c₂.token])
  exact .gap _ hrow

theorem Spells.field {name : String} (hc : exact → c.Ended) (hd : Spells exact c d c₁)
    (hdot : c₁.kind = .mark .dot) (hname : c₁.next.kind = .identifier name)
    (he : e.outline = .node (d.span.merge c₁.next.next.before) [d.outline]) :
    Spells exact c e c₁.next.next := by
  have hplain : c₁.next.kind.IsPlain := by simp [TokenKind.IsPlain, hname]
  exact hd.behind hc (.cons (by simp [hdot]) (.one hplain.2.2.2))
    (.cons hdot rfl ⟨fun _ => rfl, trivial⟩ (clear_nil.cons hplain)) (fun _ _ => .gaps _) he

theorem Spells.length {name : String} (hc : exact → c.Ended) (hd : Spells exact c d c₁)
    (hdot : c₁.kind = .mark .dot) (hname : c₁.next.kind = .identifier name)
    (hopen : c₁.next.next.kind = .mark .lParen) (hclose : c₁.next.next.nextKind = .mark .rParen)
    (he : e.outline = .node (d.span.merge c₁.next.next.next.next.before) [d.outline]) :
    Spells exact c e c₁.next.next.next.next := by
  have hplain : c₁.next.kind.IsPlain := by simp [TokenKind.IsPlain, hname]
  have hclose' : c₁.next.next.next.kind = .mark .rParen := hclose
  have hfield : Trails [c₁.token, c₁.next.token] :=
    .cons hdot rfl ⟨fun _ => rfl, trivial⟩ (clear_nil.cons hplain)
  have hparens : Trails ([c₁.next.next.token] ++ [c₁.next.next.next.token]) :=
    (Trails.mark hopen rfl).append (.mark hclose' rfl)
  exact hd.behind hc (.cons (by simp [hdot]) (.cons hplain.2.2.2
    (.cons (by simp [hopen]) (.one (by simp [hclose']))))) (hfield.append hparens)
    (fun _ _ => .gaps _) he

theorem Spells.ternary (hx : Spells exact c x c₁) (hquestion : c₁.kind = .mark .question)
    (hy : Spells exact c₁.next y c₂) (hcolon : c₂.kind = .mark .colon)
    (hz : Spells exact c₂.next z c')
    (he : e.outline = .node (x.span.merge z.span) [x.outline, y.outline, z.outline]) :
    Spells exact c e c' := by
  obtain ⟨us, hus, hx⟩ := hx
  obtain ⟨vs, hvs, hy⟩ := hy
  obtain ⟨ws, hws, hz⟩ := hz
  refine ⟨us ++ (c₁.token :: vs ++ c₂.token :: ws),
    hus.trans (.cons (by simp [hquestion]) (hvs.trans (.cons (by simp [hcolon]) hws))),
    hx.fits.append ((hy.fits.behind hquestion (by decide)).append
      (hz.fits.behind hcolon (by decide))), fun hex hord => ?_⟩
  have hleft := hx.stands hex hord.left
  have hmiddle := hy.stands hex hord.right.left.tail
  have hright := hz.stands hex hord.right.right.tail
  rw [he, ← x.span_outline, ← z.span_outline, hleft.span, hright.span]
  refine ⟨by simp, ?_,
    hleft.single.append ((Row.gap _ hmiddle.single).append (.gap _ hright.single))⟩
  refine hord.merge_extent (List.prefix_append _ _) ?_ hleft.ne_nil hright.ne_nil
  exact ((List.suffix_cons _ _).trans (List.suffix_append _ _)).trans (List.suffix_append _ _)

theorem Spells.parenthesized (hc : exact → c.Ended) (hopen : c.kind = .mark .lParen)
    (he : Spells exact c.next e c₁) (hclose : c₁.kind = .mark .rParen) :
    Spells exact c (e.withSpan (c.token.span.merge c₁.next.before)) c₁.next := by
  obtain ⟨us, hus, he⟩ := he
  have htakes : c.Takes (c.token :: (us ++ [c₁.token])) c₁.next :=
    .cons (by simp [hopen]) (hus.snoc (by simp [hclose]))
  refine ⟨_, htakes, ?_, fun hx hord => ?_⟩
  · exact (he.fits.append (.mark hclose (by decide))).cons hopen (by decide)
  · have hinner := he.stands hx hord.tail.left
    rw [Expr.outline_withSpan]
    refine ⟨by simp, ?_, .gap _ ?_⟩
    · exact htakes.merge_before_head (hc hx) hord
    · have hrow := hinner.row.append (Row.gaps [c₁.token])
      rwa [List.append_nil] at hrow

/-- The brackets are what the tokens say, which are none where there are no brackets. -/
structure Brackets (exact : Prop) (suffix : Option (ArraySuffix Expr)) (ts : List Token) :
    Prop where
  trails : Trails ts
  row : exact → Ordered ts → Row (suffixOutlines suffix) ts
  enclosed : ts = [] ∨ ∃ l vs r, ts = l :: (vs ++ [r]) ∧ l.kind = .mark .lBracket ∧
    r.kind = .mark .rBracket ∧ Clear vs

theorem Brackets.none : Brackets exact Option.none [] :=
  ⟨.nil, fun _ _ => .nil, .inl rfl⟩

theorem Brackets.of_takes {size : Option Expr} {vs : List Token} {c₀ : Cursor}
    (hc : exact → c.Ended) (hopen : c.kind = .mark .lBracket) (hvs : c.next.Takes vs c₀)
    (hclose : c₀.kind = .mark .rBracket) (hapart : Apart false vs) (hclear : Clear vs)
    (hrow : exact → Ordered vs → Row (size.toList.map Expr.outline) vs) :
    Brackets exact (some ⟨size, c.token.span.merge c₀.next.before⟩)
      (c.token :: (vs ++ [c₀.token])) := by
  have htakes : c.Takes (c.token :: (vs ++ [c₀.token])) c₀.next :=
    .cons (by simp [hopen]) (hvs.snoc (by simp [hclose]))
  refine ⟨.brackets hopen hclose hapart hclear, fun hx hord => ?_,
    .inr ⟨_, vs, _, rfl, hopen, hclose, hclear⟩⟩
  have hout : suffixOutlines (some ⟨size, c.token.span.merge c₀.next.before⟩) =
      [.node (c.token.span.merge c₀.next.before) (size.toList.map Expr.outline)] := by
    cases size <;> rfl
  rw [hout]
  refine Stands.single ⟨by simp, ?_, ?_⟩
  · exact htakes.merge_before_head (hc hx) hord
  · have hinner := (hrow hx hord.tail.left).append (Row.gaps [c₀.token])
    rw [List.append_nil] at hinner
    exact .gap _ hinner

theorem Spells.call {name : String} {callee : Callee} {suffix : Option (ArraySuffix Expr)}
    {args : List Expr} {ss as : List Token} (hc : exact → c.Ended)
    (hname : c.kind = .identifier name) (hss : c.next.Takes ss c₁)
    (hsuffix : Brackets exact suffix ss) (hopen : c₁.kind = .mark .lParen)
    (has : c₁.next.Takes as c₂) (hclose : c₂.kind = .mark .rParen) (hapart : Apart false as)
    (hclear : Clear as) (hrow : exact → Ordered as → Row (Expr.outlines args) as)
    (hcallee : callee.span = c.token.span.merge c₁.before)
    (he : e.outline = .node (c.token.span.merge c₂.next.before)
      (.node callee.span (suffixOutlines suffix) :: Expr.outlines args)) :
    Spells exact c e c₂.next := by
  have hplain : c.kind.IsPlain := by simp [TokenKind.IsPlain, hname]
  have hhead : c.Takes (c.token :: ss) c₁ := .cons hplain.2.2.2 hss
  have hparens : Trails (c₁.token :: (as ++ [c₂.token])) := by
    refine .cons hopen (by decide) ?_ (hclear.append (Trails.mark hclose (by decide)).clear)
    exact hapart.append (Trails.mark hclose (by decide)).apart
  have htakes : c.Takes (c.token :: ss ++ c₁.token :: (as ++ [c₂.token])) c₂.next :=
    hhead.trans (.cons (by simp [hopen]) (has.snoc (by simp [hclose])))
  refine ⟨_, htakes, ?_, fun hx hord => ?_⟩
  · have hfirst : Fits [c.token] :=
      .leaf hplain (fun k hk => by simp [show c.token.kind = _ from hname] at hk)
    exact (hfirst.append hsuffix.trails).append hparens
  · have hfront := hord.left
    have hback := hord.right.tail.left
    have hcalleeRow : Row [.node callee.span (suffixOutlines suffix)] (c.token :: ss) := by
      refine Stands.single ⟨by simp, ?_, .gap _ (hsuffix.row hx hfront.tail)⟩
      show callee.span = _
      rw [hcallee]
      exact hhead.merge_before_head (hc hx) hfront
    have hargs := (hrow hx hback).append (Row.gaps [c₂.token])
    rw [List.append_nil] at hargs
    rw [he]
    refine ⟨by simp, ?_, hcalleeRow.append (.gap _ hargs)⟩
    exact htakes.merge_before_head (hc hx) hord

/-- What the parsers with fuel `n` read is spelled by the tokens that they take. -/
structure Spellings (exact : Prop) (n : Nat) : Prop where
  expression {c c' : Cursor} {e : Expr} :
    (exact → c.Ended) → expression n c = .ok (e, c') → Spells exact c e c'
  commaTail {c₀ c c' : Cursor} {l e : Expr} :
    (exact → c₀.Ended) → Spells exact c₀ l c → commaTail n l c = .ok (e, c') → Spells exact c₀ e c'
  assignment {c c' : Cursor} {e : Expr} :
    (exact → c.Ended) → assignment n c = .ok (e, c') → Spells exact c e c'
  conditional {c c' : Cursor} {e : Expr} :
    (exact → c.Ended) → conditional n c = .ok (e, c') → Spells exact c e c'
  binary {level : Nat} {c c' : Cursor} {e : Expr} :
    (exact → c.Ended) → binary n level c = .ok (e, c') → Spells exact c e c'
  binaryTail {level : Nat} {c₀ c c' : Cursor} {l e : Expr} :
    (exact → c₀.Ended) → Spells exact c₀ l c → binaryTail n level l c = .ok (e, c') →
      Spells exact c₀ e c'
  unary {c c' : Cursor} {e : Expr} :
    (exact → c.Ended) → unary n c = .ok (e, c') → Spells exact c e c'
  accesses {c₀ c c' : Cursor} {d e : Expr} :
    (exact → c₀.Ended) → Spells exact c₀ d c → accesses n d c = .ok (e, c') → Spells exact c₀ e c'
  primary {c c' : Cursor} {e : Expr} :
    (exact → c.Ended) → primary n c = .ok (e, c') → Spells exact c e c'
  call {x : String} {c c' : Cursor} {e : Expr} :
    (exact → c.Ended) → c.kind = .identifier x → call n x c.token.span c = .ok (e, c') →
      Spells exact c e c'
  arguments {c c' : Cursor} {es : List Expr} :
    (exact → c.Ended) → arguments n c = .ok (es, c') →
      ∃ ts, c.Takes ts c' ∧ Fits ts ∧ (exact → Ordered ts → Row (Expr.outlines es) ts)
  arraySuffix {c c' : Cursor} {s : Option (ArraySuffix Expr)} :
    (exact → c.Ended) → arraySuffix? n c = .ok (s, c') → ∃ ts, c.Takes ts c' ∧ Brackets exact s ts

namespace Spellings

variable {exact : Prop} {n : Nat} (ih : Spellings exact n) {level : Nat} {c₀ c c' : Cursor}
  {d e l : Expr}

include ih

theorem expression_step (hc : exact → c.Ended) (h : Parse.expression (n + 1) c = .ok (e, c')) :
    Spells exact c e c' := by
  unfold Parse.expression at h
  obtain ⟨l, c₁, hl, h⟩ := run_bind h
  exact ih.commaTail hc (ih.assignment hc hl) h

theorem commaTail_step (hc : exact → c₀.Ended) (hl : Spells exact c₀ l c)
    (h : Parse.commaTail (n + 1) l c = .ok (e, c')) : Spells exact c₀ e c' := by
  unfold Parse.commaTail at h
  rw [run_acceptMark] at h
  split at h
  · rename_i hkind
    simp only [if_true] at h
    obtain ⟨r, c₁, hr, h⟩ := run_bind h
    have hright := ih.assignment (hl.ended_next hc) hr
    exact ih.commaTail hc (hl.pair hkind rfl hright rfl) h
  · obtain ⟨rfl, rfl⟩ := run_pure h
    exact hl

theorem assignment_step (hc : exact → c.Ended) (h : Parse.assignment (n + 1) c = .ok (e, c')) :
    Spells exact c e c' := by
  unfold Parse.assignment at h
  obtain ⟨t, c₁, ht, h⟩ := run_bind h
  have htarget := ih.conditional hc ht
  rw [run_kind] at h
  cases hop : AssignOp.ofToken? c₁.kind with
  | some op =>
    have hkind := AssignOp.kind_of_ofToken? hop
    simp only [hop, run_advance] at h
    obtain ⟨v, c₂, hv, h⟩ := run_bind h
    obtain ⟨rfl, rfl⟩ := run_pure h
    have hvalue := ih.assignment (htarget.ended_next hc) hv
    exact htarget.pair hkind op.isPlain_mark hvalue rfl
  | none =>
    simp only [hop] at h
    obtain ⟨rfl, rfl⟩ := run_pure h
    exact htarget

theorem conditional_step (hc : exact → c.Ended) (h : Parse.conditional (n + 1) c = .ok (e, c')) :
    Spells exact c e c' := by
  unfold Parse.conditional at h
  obtain ⟨x, c₁, hx, h⟩ := run_bind h
  have hcondition := ih.binary hc hx
  rw [run_acceptMark] at h
  split at h
  · rename_i hquestion
    simp only [if_true] at h
    obtain ⟨y, c₂, hy, h⟩ := run_bind h
    obtain ⟨hcolon, h⟩ := run_expectMark _ _ _ h
    obtain ⟨z, c₃, hz, h⟩ := run_bind h
    obtain ⟨rfl, rfl⟩ := run_pure h
    have hc₁ := hcondition.ended_next hc
    have htrue := ih.expression hc₁ hy
    have hfalse := ih.assignment (htrue.ended_next hc₁) hz
    exact hcondition.ternary hquestion htrue hcolon hfalse rfl
  · obtain ⟨rfl, rfl⟩ := run_pure h
    exact hcondition

theorem binary_step (hc : exact → c.Ended) (h : Parse.binary (n + 1) level c = .ok (e, c')) :
    Spells exact c e c' := by
  unfold Parse.binary at h
  split at h
  · exact ih.unary hc h
  · obtain ⟨l, c₁, hl, h⟩ := run_bind h
    exact ih.binaryTail hc (ih.binary hc hl) h

theorem binaryTail_step (hc : exact → c₀.Ended) (hl : Spells exact c₀ l c)
    (h : Parse.binaryTail (n + 1) level l c = .ok (e, c')) : Spells exact c₀ e c' := by
  unfold Parse.binaryTail at h
  rw [run_kind] at h
  cases hop : BinaryOp.ofToken? level c.kind with
  | some op =>
    have hkind := BinaryOp.kind_of_ofToken? hop
    simp only [hop, run_advance] at h
    obtain ⟨r, c₁, hr, h⟩ := run_bind h
    have hright := ih.binary (hl.ended_next hc) hr
    exact ih.binaryTail hc (hl.pair hkind op.isPlain_mark hright rfl) h
  | none =>
    simp only [hop] at h
    obtain ⟨rfl, rfl⟩ := run_pure h
    exact hl

theorem unary_step (hc : exact → c.Ended) (h : Parse.unary (n + 1) c = .ok (e, c')) :
    Spells exact c e c' := by
  unfold Parse.unary at h
  rw [run_here, run_kind] at h
  cases hop : UnaryOp.ofToken? c.kind with
  | some op =>
    have hkind := UnaryOp.kind_of_ofToken? hop
    simp only [hop, run_advance] at h
    obtain ⟨d, c₁, hd, h⟩ := run_bind h
    obtain ⟨rfl, rfl⟩ := run_pure h
    exact .inFront hkind op.isPlain_mark (ih.unary (fun hx => (hc hx).next) hd) rfl
  | none =>
    cases hupdate : UpdateOp.ofToken? c.kind with
    | some op =>
      have hkind := UpdateOp.kind_of_ofToken? hupdate
      simp only [hop, hupdate, run_advance] at h
      obtain ⟨d, c₁, hd, h⟩ := run_bind h
      obtain ⟨rfl, rfl⟩ := run_pure h
      exact .inFront hkind op.isPlain_mark (ih.unary (fun hx => (hc hx).next) hd) rfl
    | none =>
      simp only [hop, hupdate] at h
      obtain ⟨d, c₁, hd, h⟩ := run_bind h
      exact ih.accesses hc (ih.primary hc hd) h

theorem accesses_step (hc : exact → c₀.Ended) (hd : Spells exact c₀ d c)
    (h : Parse.accesses (n + 1) d c = .ok (e, c')) : Spells exact c₀ e c' := by
  unfold Parse.accesses at h
  rw [run_kind] at h
  split at h
  · rename_i hopen
    rw [run_advance] at h
    obtain ⟨i, c₁, hi, h⟩ := run_bind h
    obtain ⟨hclose, h⟩ := run_expectMark _ _ _ h
    rw [run_spanFrom] at h
    have hindex := ih.expression (hd.ended_next hc) hi
    exact ih.accesses hc (hd.index hc hopen hindex hclose rfl) h
  split at h
  · rename_i hdot
    rw [run_advance, run_kind] at h
    cases hx : c.next.kind with
    | identifier x =>
      simp only [hx, run_advance, run_get] at h
      split at h
      · rename_i hlength
        simp only [Bool.and_eq_true, decide_eq_true_eq] at hlength
        obtain ⟨⟨-, hopen⟩, hclose⟩ := hlength
        rw [run_advance, run_advance, run_spanFrom] at h
        exact ih.accesses hc (hd.length hc hdot hx hopen hclose rfl) h
      · rw [run_spanFrom] at h
        exact ih.accesses hc (hd.field hc hdot hx rfl) h
    | _ =>
      simp only [hx] at h
      cases h
  cases hop : UpdateOp.ofToken? c.kind with
  | some op =>
    have hkind := UpdateOp.kind_of_ofToken? hop
    simp only [hop, run_advance, run_spanFrom] at h
    refine ih.accesses hc (hd.behind hc (.one (by simp [hkind])) (.mark hkind op.isPlain_mark)
      (fun _ _ => .gaps _) rfl) h
  | none =>
    simp only [hop] at h
    obtain ⟨rfl, rfl⟩ := run_pure h
    exact hd

theorem primary_step (hc : exact → c.Ended) (h : Parse.primary (n + 1) c = .ok (e, c')) :
    Spells exact c e c' := by
  unfold Parse.primary at h
  rw [run_here, run_kind] at h
  cases hkind : c.kind with
  | intLiteral text | floatLiteral text =>
    simp only [hkind, run_advance] at h
    obtain ⟨rfl, rfl⟩ := run_pure h
    exact .leaf (by simp [TokenKind.IsPlain, hkind]) (by simp [hkind]) rfl
  | keyword k =>
    cases k with
    | trueWord | falseWord =>
      simp only [hkind, run_advance] at h
      obtain ⟨rfl, rfl⟩ := run_pure h
      exact .leaf (by simp [TokenKind.IsPlain, hkind]) (by simp [hkind]) rfl
    | _ =>
      simp only [hkind] at h
      cases h
  | mark m =>
    cases m with
    | lParen =>
      simp only [hkind, run_advance] at h
      obtain ⟨d, c₁, hd, h⟩ := run_bind h
      obtain ⟨hclose, h⟩ := run_expectMark _ _ _ h
      obtain ⟨rfl, rfl⟩ := run_pure_spanFrom h
      exact .parenthesized hc hkind (ih.expression (fun hx => (hc hx).next) hd) hclose
    | _ =>
      simp only [hkind] at h
      cases h
  | identifier x =>
    simp only [hkind, run_get] at h
    split at h
    · exact ih.call hc hkind h
    · rw [run_advance] at h
      obtain ⟨rfl, rfl⟩ := run_pure h
      exact .leaf (by simp [TokenKind.IsPlain, hkind]) (by simp [hkind]) rfl
  | eof =>
    simp only [hkind] at h
    cases h

theorem arguments_step {es : List Expr} (hc : exact → c.Ended)
    (h : Parse.arguments (n + 1) c = .ok (es, c')) :
    ∃ ts, c.Takes ts c' ∧ Fits ts ∧ (exact → Ordered ts → Row (Expr.outlines es) ts) := by
  unfold Parse.arguments at h
  obtain ⟨a, c₁, ha, h⟩ := run_bind h
  have harg := ih.assignment hc ha
  rw [run_acceptMark] at h
  split at h
  · rename_i hcomma
    simp only [if_true] at h
    obtain ⟨as, c₂, has, h⟩ := run_bind h
    obtain ⟨rfl, rfl⟩ := run_pure h
    obtain ⟨vs, hvs, hfits, hrow⟩ := ih.arguments (harg.ended_next hc) has
    obtain ⟨us, hus, harg⟩ := harg
    refine ⟨us ++ c₁.token :: vs, hus.trans (.cons (by simp [hcomma]) hvs),
      harg.fits.append (hfits.behind hcomma rfl), fun hx hord => ?_⟩
    exact (harg.stands hx hord.left).single.append (.gap _ (hrow hx hord.right.tail))
  · simp only [Bool.false_eq_true, if_false] at h
    obtain ⟨rfl, rfl⟩ := run_pure h
    obtain ⟨us, hus, harg⟩ := harg
    exact ⟨us, hus, harg.fits, fun hx hord => (harg.stands hx hord).single⟩

theorem arraySuffix_step {s : Option (ArraySuffix Expr)} (hc : exact → c.Ended)
    (h : Parse.arraySuffix? (n + 1) c = .ok (s, c')) :
    ∃ ts, c.Takes ts c' ∧ Brackets exact s ts := by
  unfold Parse.arraySuffix? at h
  rw [run_here, run_acceptMark] at h
  split at h
  · rename_i hopen
    simp only [if_true, run_atMark, decide_eq_true_eq] at h
    split at h
    · obtain ⟨size, c₁, hsize, h⟩ := run_bind h
      obtain ⟨rfl, rfl⟩ := run_pure hsize
      obtain ⟨hclose, h⟩ := run_expectMark _ _ _ h
      obtain ⟨rfl, rfl⟩ := run_pure_spanFrom h
      refine ⟨_, .cons (by simp [hopen]) (.snoc (.nil _) (by simp [hclose])), ?_⟩
      exact .of_takes hc hopen (.nil _) hclose trivial clear_nil fun _ _ => .nil
    · obtain ⟨size, c₁, hsize, h⟩ := run_bind h
      rw [map_eq_pure_bind] at hsize
      obtain ⟨d, c₂, hd, hsize⟩ := run_bind hsize
      obtain ⟨rfl, rfl⟩ := run_pure hsize
      obtain ⟨hclose, h⟩ := run_expectMark _ _ _ h
      obtain ⟨rfl, rfl⟩ := run_pure_spanFrom h
      obtain ⟨vs, hvs, hd⟩ := ih.conditional (fun hx => (hc hx).next) hd
      refine ⟨_, .cons (by simp [hopen]) (hvs.snoc (by simp [hclose])), ?_⟩
      exact .of_takes hc hopen hvs hclose hd.fits.apart hd.fits.clear fun hx hord =>
        (hd.stands hx hord).single
  · simp only [Bool.false_eq_true, if_false] at h
    obtain ⟨rfl, rfl⟩ := run_pure h
    exact ⟨[], .nil _, .none⟩

theorem call_step {x : String} (hc : exact → c.Ended) (hname : c.kind = .identifier x)
    (h : Parse.call (n + 1) x c.token.span c = .ok (e, c')) : Spells exact c e c' := by
  unfold Parse.call at h
  rw [run_advance] at h
  obtain ⟨suffix, c₁, hs, h⟩ := run_bind h
  rw [run_spanFrom] at h
  obtain ⟨hopen, h⟩ := run_expectMark _ _ _ h
  rw [run_atVoidList] at h
  have hc₀ : exact → c.next.Ended := fun hx => (hc hx).next
  obtain ⟨ss, hss, hsuffix⟩ := ih.arraySuffix hc₀ hs
  split at h
  · rename_i hvoid
    simp only [Bool.and_eq_true, decide_eq_true_eq] at hvoid
    rw [run_advance] at h
    obtain ⟨hclose, h⟩ := run_expectMark _ _ _ h
    obtain ⟨rfl, rfl⟩ := run_pure_spanFrom h
    have hplain : c₁.next.kind.IsPlain := by simp [TokenKind.IsPlain, hvoid.1]
    have hrow : exact → Ordered [c₁.next.token] → Row (Expr.outlines []) [c₁.next.token] :=
      fun _ _ => .gaps _
    exact .call hc hname hss hsuffix hopen (.one hplain.2.2.2) hclose ⟨fun _ => rfl, trivial⟩
      (clear_nil.cons hplain) hrow rfl rfl
  · rw [run_atMark] at h
    split at h
    · obtain ⟨args, c₂, hargs, h⟩ := run_bind h
      obtain ⟨rfl, rfl⟩ := run_pure hargs
      obtain ⟨hclose, h⟩ := run_expectMark _ _ _ h
      obtain ⟨rfl, rfl⟩ := run_pure_spanFrom h
      have hrow : exact → Ordered [] → Row (Expr.outlines []) [] := fun _ _ => .nil
      exact .call hc hname hss hsuffix hopen (.nil _) hclose trivial clear_nil hrow rfl rfl
    · obtain ⟨args, c₂, hargs, h⟩ := run_bind h
      obtain ⟨hclose, h⟩ := run_expectMark _ _ _ h
      obtain ⟨rfl, rfl⟩ := run_pure_spanFrom h
      have hc₁ : exact → c₁.next.Ended := fun hx => ((hc₀ hx).takes hss).1.next
      obtain ⟨as, has, hfits, hrow⟩ := ih.arguments hc₁ hargs
      exact .call hc hname hss hsuffix hopen has hclose hfits.apart hfits.clear hrow rfl rfl

end Spellings

theorem spellings (exact : Prop) (n : Nat) : Spellings exact n := by
  induction n with
  | zero =>
    constructor
    all_goals intros; rename_i h; cases h
  | succ n ih =>
    exact {
      expression := ih.expression_step
      commaTail := ih.commaTail_step
      assignment := ih.assignment_step
      conditional := ih.conditional_step
      binary := ih.binary_step
      binaryTail := ih.binaryTail_step
      unary := ih.unary_step
      accesses := ih.accesses_step
      primary := ih.primary_step
      call := ih.call_step
      arguments := ih.arguments_step
      arraySuffix := ih.arraySuffix_step }

end Parse

end Shader
