import Shader.Proofs.Bind.Placed
import Shader.Proofs.Check.Placed
import Shader.Proofs.Parse.Position
import Shader.Proofs.Token.Munch

/-! Spans of a source. Every node of a tree goes from the edge of a token to the edge of a token,
and everything that is reported starts between two characters, so that its line and its column can
be told. -/

namespace Shader

open Scan

/-- The offset lies between two characters of the source or at one of its ends. -/
def IsBoundary (source : String) (offset : Nat) : Prop :=
  ∃ before after, source.toList = before ++ after ∧ offset = byteLength before

theorem IsBoundary.le {source : String} {offset : Nat} (h : IsBoundary source offset) :
    offset ≤ source.utf8ByteSize := by
  obtain ⟨before, after, htext, rfl⟩ := h
  rw [← byteLength_toList, htext, byteLength_append]
  exact Nat.le_add_right _ _

/-- The span starts behind full lines and a part of a line, and that is what its line and its column
say. -/
def Span.Located (source : String) (s : Span) : Prop :=
  s.start ≤ source.utf8ByteSize ∧
    ∃ lines part after, source.toList = lines ++ part ++ after ∧
      s.start = byteLength (lines ++ part) ∧ (lines = [] ∨ lines.getLast? = some '\n') ∧
      '\n' ∉ part ∧ s.lineColumn source = (lines.count '\n' + 1, byteLength part + 1)

theorem locateFrom_append (before after : List Char) (line column : Nat) :
    ∃ lines part, before = lines ++ part ∧ (lines = [] ∨ lines.getLast? = some '\n') ∧
      '\n' ∉ part ∧
      locateFrom Char.utf8Size (before ++ after) (byteLength before) line column =
        (line + lines.count '\n', (if lines = [] then column else 1) + byteLength part) := by
  -- The line and the column vary, as a newline sets them anew for the rest.
  induction before generalizing line column with
  | nil =>
    refine ⟨[], [], rfl, .inl rfl, by simp, ?_⟩
    cases after <;> simp [locateFrom, byteLength]
  | cons c before ih =>
    have hpos := c.utf8Size_pos
    rw [List.cons_append, locateFrom, byteLength_cons, if_neg (by omega)]
    by_cases hc : c = '\n'
    · subst hc
      obtain ⟨lines, part, rfl, hlines, hpart, hlocate⟩ := ih (line + 1) 1
      have hsize : '\n'.utf8Size = 1 := rfl
      rw [if_pos rfl, hsize, Nat.add_sub_cancel_left, hlocate]
      refine ⟨'\n' :: lines, part, rfl, .inr ?_, hpart, ?_⟩
      · rcases hlines with rfl | hlast
        · rfl
        · rw [List.getLast?_cons, hlast]
          rfl
      · simp only [List.count_cons_self, ite_self, reduceCtorEq, if_false]
        rw [Nat.add_assoc, Nat.add_comm 1]
    · obtain ⟨lines, part, rfl, hlines, hpart, hlocate⟩ := ih line (column + c.utf8Size)
      rw [if_neg hc, Nat.add_sub_cancel_left, hlocate]
      rcases hlines with rfl | hlast
      · refine ⟨[], c :: part, rfl, .inl rfl, ?_, ?_⟩
        · simp [hpart, Ne.symm hc]
        · simp [byteLength_cons, Nat.add_assoc]
      · have hne : lines ≠ [] := by
          rintro rfl
          cases hlast
        refine ⟨c :: lines, part, rfl, .inr ?_, hpart, ?_⟩
        · rw [List.getLast?_cons, hlast]
          rfl
        · rw [List.count_cons_of_ne hc, if_neg hne, if_neg (by simp)]

theorem IsBoundary.located {source : String} {s : Span} (h : IsBoundary source s.start) :
    s.Located source := by
  refine ⟨h.le, ?_⟩
  obtain ⟨before, after, htext, hstart⟩ := h
  obtain ⟨lines, part, rfl, hlines, hpart, hlocate⟩ := locateFrom_append before after 1 1
  refine ⟨lines, part, after, htext, hstart, hlines, hpart, ?_⟩
  rw [Span.lineColumn, htext, hstart, hlocate, ite_self, Nat.add_comm 1, Nat.add_comm 1]

/-- What stands behind the last newline. -/
def restOfLine (before : List Char) : List Char :=
  (before.reverse.takeWhile (· != '\n')).reverse

/-- At a boundary two scans of the text in front give the line and the column: one counts the
newlines, the other one goes back to the last of them. -/
theorem lineColumn_eq_scans {source : String} {s : Span} {before after : List Char}
    (htext : source.toList = before ++ after) (hstart : s.start = byteLength before) :
    s.lineColumn source = (before.count '\n' + 1, byteLength (restOfLine before) + 1) := by
  obtain ⟨lines, part, rfl, hlines, hpart, hlocate⟩ := locateFrom_append before after 1 1
  have hcount : (lines ++ part).count '\n' = lines.count '\n' := by
    rw [List.count_append, List.count_eq_zero.mpr hpart, Nat.add_zero]
  have hrest : restOfLine (lines ++ part) = part := by
    have hline : ∀ c ∈ part.reverse, (c != '\n') = true := fun c hc =>
      bne_iff_ne.mpr fun heq => hpart (heq ▸ List.mem_reverse.mp hc)
    have hbefore : lines.reverse.takeWhile (· != '\n') = [] := by
      rcases hlines with rfl | hlast
      · rfl
      · obtain ⟨front, rfl⟩ := List.getLast?_eq_some_iff.mp hlast
        rw [List.reverse_concat]
        rfl
    rw [restOfLine, List.reverse_append, List.takeWhile_append_of_pos hline, hbefore,
      List.append_nil, List.reverse_reverse]
  rw [Span.lineColumn, htext, hstart, hlocate, ite_self, hcount, hrest, Nat.add_comm 1,
    Nat.add_comm 1]

theorem Munched.boundary {source : String} {tokens : List Token} (h : Munched source tokens)
    {offset : Nat} (hedge : IsEdge tokens offset) : IsBoundary source offset := by
  obtain ⟨front, rfl, hfront⟩ := h.taken
  obtain ⟨t, ht, hoffset⟩ := hedge
  rcases List.mem_append.mp ht with ht | ht
  · obtain ⟨-, r, text, ⟨before, after, htext, -, hspan⟩, -⟩ := hfront t ht
    rw [hspan] at hoffset
    rcases hoffset with rfl | rfl
    · exact ⟨before, text ++ after, htext, rfl⟩
    · exact ⟨before ++ text, after, by rw [htext, List.append_assoc],
        (byteLength_append before text).symm⟩
  · obtain rfl := List.mem_singleton.mp ht
    refine ⟨source.toList, [], (List.append_nil _).symm, ?_⟩
    rw [byteLength_toList]
    exact hoffset.elim id id

theorem Munched.endsInEof {source : String} {tokens : List Token} (h : Munched source tokens) :
    EndsInEof tokens := by
  obtain ⟨front, rfl, hfront⟩ := h.taken
  exact ⟨front, _, rfl, rfl, fun t ht => (hfront t ht).1⟩

theorem Outline.Sound.starts {tokens : List Token} {P : Nat → Prop} {o : Outline}
    (h : o.Sound tokens) (hP : ∀ offset, IsEdge tokens offset → P offset) : o.Starts P := by
  induction h with
  | node _ hstart _ _ _ _ ih => exact .node (hP _ hstart) ih

theorem parseTokens_row {tokens : List Token} {unit : TranslationUnit} (hend : EndsInEof tokens)
    (hordered : tokens.Pairwise Token.Before) (h : parseTokens tokens = .ok unit) :
    ∃ ts, ts ⊆ tokens ∧ Ordered ts ∧ Outline.Row (unit.map TopLevel.outline) ts := by
  rcases parseTokens_eq_ok h with ⟨rfl, rfl⟩ | ⟨t, ts, stop, rfl, hrun⟩
  · exact ⟨[], by simp, ⟨.nil, by simp⟩, .nil⟩
  · have hc := ((Cursor.at_ofTokens t ts).within hend).ended
    obtain ⟨⟨us, htakes, hrow⟩, -⟩ := Parse.lays_topLevels (fun _ : True => hc) hrun
    have heq : t :: ts = us ++ stop.tokens := (hc.takes htakes).2
    rw [heq] at hordered ⊢
    -- A token that another one follows is not empty.
    have hus : Ordered us := by
      obtain ⟨hpair, -, hbefore⟩ := List.pairwise_append.mp hordered
      exact ⟨hpair, fun u hu => (hbefore u hu stop.token (by simp [Cursor.tokens])).1⟩
    exact ⟨us, List.subset_append_left _ _, hus, hrow trivial hus⟩

/-- Where a source parses, every node of its tree goes from token edge to token edge, which are
boundaries of characters; its children lie inside it, one after the other. Whatever scanning,
parsing, binding and checking complain about starts at a boundary, and its line and its column are
those of the text in front of it. -/
theorem spans_sound (source : String) :
    (∀ unit, parse source = .ok unit → ∃ tokens, tokenize source = .ok tokens ∧
      (∀ offset, IsEdge tokens offset →
        IsBoundary source offset ∧ offset ≤ source.utf8ByteSize) ∧
      (∀ d ∈ unit, d.outline.Sound tokens) ∧
      (unit.map fun d => d.outline.span).Pairwise (fun s t => s.stop ≤ t.start) ∧
      (∀ d ∈ (bind unit).problems, d.span.Located source) ∧
      ∀ stage, ∀ d ∈ (check stage (bind unit).unit).problems, d.span.Located source) ∧
    ∀ e, parse source = .error e → e.span.Located source := by
  refine ⟨fun unit h => ?_, fun e h => ?_⟩
  · obtain ⟨tokens, htokens, hparse⟩ := parse_eq_ok h
    have hmunched := munched_of_tokenize htokens
    obtain ⟨ts, hts, hordered, hrow⟩ :=
      parseTokens_row hmunched.endsInEof hmunched.ordered hparse
    obtain ⟨hsound, hdisjoint⟩ := hrow.sound hts hordered
    rw [List.forall_mem_map] at hsound
    rw [List.map_map] at hdisjoint
    have hboundary (offset : Nat) (hedge : IsEdge tokens offset) : IsBoundary source offset :=
      hmunched.boundary hedge
    have hstarts (d : TopLevel) (hd : d ∈ unit) : d.outline.Starts (IsBoundary source) :=
      (hsound d hd).1.starts hboundary
    obtain ⟨hkept, hbind⟩ := bind_locates hstarts
    have hbound (d : TopLevel) (hd : d ∈ (bind unit).unit) :
        d.outline.Starts (IsBoundary source) := by
      have hmem : d.outline ∈ unit.map TopLevel.outline := hkept ▸ List.mem_map.mpr ⟨d, hd, rfl⟩
      obtain ⟨d', hd', heq⟩ := List.mem_map.mp hmem
      exact heq ▸ hstarts d' hd'
    refine ⟨tokens, htokens, fun offset hedge => ?_, ?_⟩
    · exact ⟨hboundary offset hedge, (hboundary offset hedge).le⟩
    · exact ⟨fun d hd => (hsound d hd).1, hdisjoint, fun d hd => (hbind d hd).located,
        fun stage d hd => ((check_locates stage hbound).2 d hd).located⟩
  · rcases parse_eq_error h with ⟨e', rfl, htokens⟩ | ⟨tokens, e', htokens, rfl, hparse⟩
    · obtain ⟨pieces, rest, hmunch, -, -, hstart⟩ := stuck_of_tokenize htokens
      exact IsBoundary.located ⟨pieceText pieces, rest, hmunch.eq_append, hstart⟩
    · have hmunched := munched_of_tokenize htokens
      rcases Parse.parseTokens_settles hmunched.endsInEof with
        ⟨unit, hunit⟩ | ⟨e, he, -, t, ht, hspan⟩
      · rw [hparse] at hunit
        cases hunit
      · obtain rfl := Except.error.inj (hparse.symm.trans he)
        exact (hmunched.boundary ⟨t, ht, .inl (congrArg Span.start hspan)⟩).located

/-- `a[b] c;` behind a comment of six bytes. -/
def commentedTokens : List Token :=
  [⟨.identifier "a", ⟨6, 7⟩⟩, ⟨.mark .lBracket, ⟨7, 8⟩⟩, ⟨.identifier "b", ⟨8, 9⟩⟩,
    ⟨.mark .rBracket, ⟨9, 10⟩⟩, ⟨.identifier "c", ⟨11, 12⟩⟩, ⟨.mark .semi, ⟨12, 13⟩⟩,
    ⟨.eof, ⟨13, 13⟩⟩]

def commentedUnit : TranslationUnit :=
  [.declaration (.vars ⟨none, none, false, none, [], ⟨6, 6⟩⟩
    (.named "a" ⟨some ⟨some (.var "b" none ⟨⟨8, 9⟩, none⟩), ⟨7, 10⟩⟩, ⟨6, 10⟩, none⟩)
    [⟨"c", none, none, ⟨11, 12⟩, none⟩] ⟨6, 13⟩)]

/-- A comment with a character of two bytes stands in front of a declaration, and in front of a
character that starts no token. -/
theorem spans_sound_comment :
    (∀ d ∈ commentedUnit, d.outline.Sound commentedTokens) ∧
      Span.Located "/*é*/\né" ⟨7, 9⟩ := by
  have htokens : tokenize "/*é*/a[b] c;" = .ok commentedTokens := by rfl
  have hparse : parse "/*é*/a[b] c;" = .ok commentedUnit := by
    rw [parse, htokens]
    rfl
  have herror : tokenize "/*é*/\né" = .error ⟨"é", ⟨7, 9⟩⟩ := by rfl
  obtain ⟨tokens, htokens', -, hsound, -⟩ := (spans_sound _).1 _ hparse
  obtain rfl := Except.ok.inj (htokens.symm.trans htokens')
  exact ⟨hsound, (spans_sound _).2 (.lexical ⟨"é", ⟨7, 9⟩⟩) (by rw [parse, herror])⟩

end Shader
