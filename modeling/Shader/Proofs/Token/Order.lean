import Shader.Proofs.Token

/-! Where the tokens of a source stand. Each rule of the scanner takes a piece off the front of the
text, so a token is not empty and ends before the next one starts. -/

namespace Shader

namespace Scan

theorem isPrefix_append {a b l : List Char} (ha : a <+: l) (hb : b <+: l.drop a.length) :
    a ++ b <+: l := by
  obtain ⟨rest, rfl⟩ := ha
  rw [List.drop_left] at hb
  exact (List.prefix_append_right_inj a).mpr hb

theorem isPrefix_oneOf (p : Char → Bool) (l : List Char) : oneOf p l <+: l := by
  cases l with
  | nil => exact List.nil_prefix
  | cons c cs =>
    rw [oneOf]
    split
    · exact ⟨cs, rfl⟩
    · exact List.nil_prefix

theorem isPrefix_exponent (l : List Char) : exponent l <+: l := by
  cases l with
  | nil => exact List.nil_prefix
  | cons e cs =>
    have htail := isPrefix_append (isPrefix_oneOf (fun c => c = '+' || c = '-') cs)
      (List.takeWhile_prefix isDigit)
    rw [exponent]
    split
    · dsimp only
      split
      · exact List.nil_prefix
      · exact (List.prefix_cons_inj e).mpr htail
    · exact List.nil_prefix

theorem isPrefix_floatTail (l : List Char) : floatTail l <+: l :=
  isPrefix_append (isPrefix_exponent l) (isPrefix_oneOf _ _)

theorem isPrefix_hexLiteral (l : List Char) : hexLiteral l <+: l := by
  unfold hexLiteral
  split
  · rename_i x cs
    have htail := isPrefix_append (l := cs) (List.takeWhile_prefix isHexDigit)
      (isPrefix_oneOf isUnsignedMark _)
    dsimp only
    split
    · exact (List.prefix_cons_inj '0').mpr ((List.prefix_cons_inj x).mpr htail)
    · exact List.nil_prefix
  · exact List.nil_prefix

theorem isPrefix_fraction (l : List Char) :
    '.' :: l.takeWhile isDigit ++ floatTail (l.drop (l.takeWhile isDigit).length) <+: '.' :: l := by
  have htail := isPrefix_append (l := l) (List.takeWhile_prefix isDigit) (isPrefix_floatTail _)
  exact (List.prefix_cons_inj '.').mpr htail

theorem isPrefix_number (l : List Char) : (number l).2 <+: l := by
  have hdigits : l.takeWhile isDigit <+: l := List.takeWhile_prefix isDigit
  unfold number
  dsimp only
  split
  · rename_i after hrest
    rw [List.append_assoc]
    refine isPrefix_append hdigits ?_
    rw [hrest]
    exact isPrefix_fraction after
  · split
    · exact isPrefix_append hdigits (isPrefix_floatTail _)
    · dsimp only
      split
      · exact isPrefix_append hdigits (isPrefix_oneOf _ _)
      · exact isPrefix_hexLiteral l

theorem number_ne_nil {c : Char} (cs : List Char) (hc : isDigit c = true) :
    (number (c :: cs)).2 ≠ [] := by
  have hdigits : (c :: cs).takeWhile isDigit = c :: cs.takeWhile isDigit := by
    rw [List.takeWhile_cons, if_pos hc]
  unfold number
  dsimp only
  rw [hdigits]
  split
  · simp
  · split
    · simp
    · dsimp only
      split
      · simp
      · rename_i hhex
        simpa using hhex

theorem mark_token {l : List Char} {m : Mark}
    (h : Mark.all.find? (fun m => m.chars.isPrefixOf l) = some m) :
    m.chars ≠ [] ∧ m.chars <+: l := by
  have hm : m.chars.isPrefixOf l = true := by simpa using List.find?_some h
  refine ⟨?_, List.isPrefixOf_iff_prefix.mp hm⟩
  cases m <;> decide

theorem piece_token {c : Char} {cs text : List Char} {kind : TokenKind}
    (h : piece c cs = .token kind text) : text ≠ [] ∧ text <+: c :: cs := by
  unfold piece at h
  split at h
  · cases h
  split at h
  · cases h
  split at h
  · obtain ⟨-, rfl⟩ := Piece.token.inj h
    refine ⟨by simp, (List.prefix_cons_inj c).mpr ?_⟩
    exact List.takeWhile_prefix isWordPart
  split at h
  · rename_i hdigit
    obtain ⟨-, rfl⟩ := Piece.token.inj h
    exact ⟨number_ne_nil cs hdigit, isPrefix_number _⟩
  split at h
  · cases h
  · split at h <;> cases h
  · dsimp only at h
    split at h
    · rename_i hpoint
      subst hpoint
      split at h
      · obtain ⟨-, rfl⟩ := Piece.token.inj h
        exact ⟨by simp, isPrefix_fraction cs⟩
      · split at h
        · rename_i m hm
          obtain ⟨-, rfl⟩ := Piece.token.inj h
          exact mark_token hm
        · cases h
    · rw [if_neg (by simp)] at h
      split at h
      · rename_i m hm
        obtain ⟨-, rfl⟩ := Piece.token.inj h
        exact mark_token hm
      · cases h

end Scan

/-- The token is not empty and ends before the other one starts. -/
def Token.Before (t u : Token) : Prop :=
  t.span.start < t.span.stop ∧ t.span.stop ≤ u.span.start

theorem Scan.byteLength_cons (c : Char) (cs : List Char) :
    byteLength (c :: cs) = c.utf8Size + byteLength cs :=
  rfl

theorem Scan.byteLength_pos {text : List Char} (h : text ≠ []) : 0 < byteLength text := by
  cases text with
  | nil => exact (h rfl).elim
  | cons c cs =>
    have hc := c.utf8Size_pos
    rw [byteLength_cons]
    omega

theorem scanFrom_ordered (cs : List Char) (within offset : Nat) :
    (∀ t ∈ (scanFrom cs within offset).tokens,
      offset + Scan.byteLength (cs.take within) ≤ t.span.start) ∧
    (scanFrom cs within offset).tokens.Pairwise Token.Before := by
  induction cs generalizing within offset with
  | nil => simp [scanFrom, Scan.byteLength]
  | cons c cs ih =>
    cases within with
    | succ within =>
      obtain ⟨hstart, hpair⟩ := ih within (offset + c.utf8Size)
      refine ⟨fun t ht => ?_, hpair⟩
      have := hstart t ht
      rw [List.take_succ_cons, Scan.byteLength_cons]
      omega
    | zero =>
      rw [List.take_zero, scanFrom]
      split
      · rename_i n hpiece
        obtain ⟨hstart, hpair⟩ := ih (n - 1) (offset + c.utf8Size)
        refine ⟨fun t ht => ?_, hpair⟩
        have := hstart t ht
        simp only [Scan.byteLength, List.foldr_nil]
        omega
      · rename_i kind text hpiece
        obtain ⟨hne, hprefix⟩ := Scan.piece_token hpiece
        obtain ⟨hstart, hpair⟩ := ih (text.length - 1) (offset + c.utf8Size)
        have hpos := Scan.byteLength_pos hne
        -- The token is the piece of the text that it takes.
        have htext : Scan.byteLength text =
            c.utf8Size + Scan.byteLength (cs.take (text.length - 1)) := by
          obtain ⟨d, ds, rfl⟩ := List.exists_cons_of_ne_nil hne
          obtain ⟨rfl, htail⟩ := List.cons_prefix_cons.mp hprefix
          rw [List.length_cons, Nat.add_sub_cancel, ← List.prefix_iff_eq_take.mp htail]
          rfl
        refine ⟨fun t ht => ?_, List.pairwise_cons.mpr ⟨fun t ht => ⟨?_, ?_⟩, hpair⟩⟩
        · rcases List.mem_cons.mp ht with rfl | ht
          · simp [Scan.byteLength]
          · have := hstart t ht
            simp only [Scan.byteLength, List.foldr_nil]
            omega
        · show offset < offset + _
          omega
        · have := hstart t ht
          show offset + _ ≤ _
          omega
      · simp

theorem scanFrom_ends (cs : List Char) (within offset : Nat)
    (h : (scanFrom cs within offset).error = none) :
    ∃ t, (scanFrom cs within offset).tokens.getLast? = some t ∧ t.kind = .eof := by
  induction cs generalizing within offset with
  | nil => exact ⟨_, rfl, rfl⟩
  | cons c cs ih =>
    cases within with
    | succ within => exact ih within _ h
    | zero =>
      rw [scanFrom] at h ⊢
      split at h
      · exact ih _ _ h
      · obtain ⟨t, ht, hkind⟩ := ih _ _ h
        refine ⟨t, ?_, hkind⟩
        rw [List.getLast?_cons, ht]
        rfl
      · cases h

/-- The tokens follow each other up to the end of a source. -/
structure InOrder (tokens : List Token) : Prop where
  ordered : tokens.Pairwise Token.Before
  ends : ∃ t, tokens.getLast? = some t ∧ t.kind = .eof

theorem inOrder_of_tokenize {source : String} {tokens : List Token}
    (h : tokenize source = .ok tokens) : InOrder tokens := by
  unfold tokenize at h
  dsimp only at h
  split at h
  · cases h
  · rename_i herror
    obtain rfl := Except.ok.inj h
    exact ⟨(scanFrom_ordered _ _ _).2, scanFrom_ends _ _ _ herror⟩

theorem InOrder.of_suffix {ts tokens : List Token} (h : InOrder tokens) (hsuffix : ts <:+ tokens)
    (hts : ts ≠ []) : InOrder ts := by
  refine ⟨h.ordered.sublist hsuffix.sublist, ?_⟩
  obtain ⟨t, ht, hkind⟩ := h.ends
  obtain ⟨taken, rfl⟩ := hsuffix
  refine ⟨t, ?_, hkind⟩
  have hlast := List.getLast?_eq_some_getLast hts
  rw [List.getLast?_append, hlast] at ht
  exact hlast.trans ht

end Shader
