import Shader.Proofs.Token.Piece

/-! A source as a row of pieces. Scanning cuts the source into longest pieces, one behind the other,
until nothing is left or nothing can be taken. -/

namespace Shader

open Scan

/-- The text starts with the pieces, each the longest at its place, and `rest` is left. -/
inductive Munches : List Char → List (Rule × List Char) → List Char → Prop where
  | done (rest : List Char) : Munches rest [] rest
  | piece {r : Rule} {text later rest : List Char} {pieces : List (Rule × List Char)} :
    r.Selects text (text ++ later) → ¬ Unclosed (text ++ later) → Munches later pieces rest →
      Munches (text ++ later) ((r, text) :: pieces) rest

/-- The text that the pieces make up. -/
def pieceText (pieces : List (Rule × List Char)) : List Char :=
  pieces.flatMap Prod.snd

def pieceTokens : (offset : Nat) → List (Rule × List Char) → List Token
  | _, [] => []
  | offset, (r, text) :: pieces =>
    (r.kind? text).toList.map (⟨·, ⟨offset, offset + byteLength text⟩⟩) ++
      pieceTokens (offset + byteLength text) pieces

variable {l rest whole before : List Char} {pieces : List (Rule × List Char)} {t : Token} {i : Nat}

theorem Munches.eq_append (h : Munches l pieces rest) : l = pieceText pieces ++ rest := by
  induction h with
  | done => rfl
  | piece _ _ _ ih => simp [pieceText] at ih ⊢; exact ih

theorem Scan.byteLength_append (a b : List Char) :
    byteLength (a ++ b) = byteLength a + byteLength b := by
  induction a with
  | nil => simp [byteLength]
  | cons c a ih => rw [List.cons_append, byteLength_cons, byteLength_cons, ih, Nat.add_assoc]

theorem Scan.byteLength_ofList (text : List Char) :
    (String.ofList text).utf8ByteSize = byteLength text := by
  induction text with
  | nil => rfl
  | cons c text ih => simp [String.ofList_cons, byteLength_cons, ih]

theorem Scan.byteLength_toList (s : String) : byteLength s.toList = s.utf8ByteSize := by
  rw [← byteLength_ofList, String.ofList_toList]

theorem scanFrom_skip (text later : List Char) (offset : Nat) :
    scanFrom (text ++ later) text.length offset = scanFrom later 0 (offset + byteLength text) := by
  induction text generalizing offset with
  | nil => rfl
  | cons c text ih =>
    rw [List.cons_append, List.length_cons, scanFrom, ih, byteLength_cons, Nat.add_assoc]

theorem Rule.Selects.scanFrom_later {r : Rule} {c : Char} {cs text : List Char}
    (h : r.Selects text (c :: cs)) (offset : Nat) :
    ∃ later, c :: cs = text ++ later ∧ later.length < (c :: cs).length ∧
      scanFrom cs (text.length - 1) (offset + c.utf8Size) =
        scanFrom later 0 (offset + byteLength text) := by
  obtain ⟨later, hlater⟩ := h.front
  obtain ⟨d, ds, rfl, -⟩ := starts h.applies
  rw [List.cons_append] at hlater
  obtain ⟨rfl, rfl⟩ := List.cons.inj hlater
  refine ⟨later, rfl, by rw [List.length_cons, List.length_append]; omega, ?_⟩
  rw [List.length_cons, Nat.add_sub_cancel, scanFrom_skip, byteLength_cons, Nat.add_assoc]

/-- Scanning from one place on, up to the end or to where it is stuck. -/
theorem scanFrom_munches (l : List Char) (offset : Nat) :
    ∃ pieces rest, Munches l pieces rest ∧
      (rest = [] ∧ scanFrom l 0 offset =
        ⟨pieceTokens offset pieces ++
          [⟨.eof, ⟨offset + byteLength l, offset + byteLength l⟩⟩], none⟩ ∨
      rest ≠ [] ∧ Stuck rest ∧
        ∃ e : LexError, e.span.start = offset + byteLength (pieceText pieces) ∧
        scanFrom l 0 offset = ⟨pieceTokens offset pieces, some e⟩) := by
  -- On the length of the text, as a piece can take several characters off it.
  induction hn : l.length using Nat.strongRecOn generalizing l offset with
  | ind n ih =>
  cases l with
  | nil => exact ⟨[], [], .done _, .inl ⟨rfl, rfl⟩⟩
  | cons c cs =>
    have hright := piece_right c cs
    rw [scanFrom]
    generalize piece c cs = found at hright ⊢
    cases hright with
    | @skip r text hsel hkind hclosed =>
      obtain ⟨later, heq, hlt, hscan⟩ := hsel.scanFrom_later offset
      obtain ⟨pieces, rest, hmunch, hrest⟩ :=
        ih _ (hn ▸ hlt) later (offset + byteLength text) rfl
      rw [heq] at hsel hclosed ⊢
      refine ⟨_ :: pieces, rest, .piece hsel hclosed hmunch, ?_⟩
      dsimp only
      rw [hscan]
      simpa [pieceTokens, pieceText, hkind, byteLength_append, Nat.add_assoc] using hrest
    | @token r text kind hsel hkind hclosed =>
      obtain ⟨later, heq, hlt, hscan⟩ := hsel.scanFrom_later offset
      obtain ⟨pieces, rest, hmunch, hrest⟩ :=
        ih _ (hn ▸ hlt) later (offset + byteLength text) rfl
      rw [heq] at hsel hclosed ⊢
      refine ⟨_ :: pieces, rest, .piece hsel hclosed hmunch, ?_⟩
      dsimp only
      rw [hscan]
      rcases hrest with ⟨hnil, hscan⟩ | ⟨hne, hstuck, e, he, hscan⟩
      · refine .inl ⟨hnil, ?_⟩
        simp [hscan, pieceTokens, hkind, byteLength_append, Nat.add_assoc]
      · refine .inr ⟨hne, hstuck, e, ?_, ?_⟩
        · simpa [pieceText, byteLength_append, Nat.add_assoc] using he
        · simp [hscan, pieceTokens, hkind]
    | bad hstuck => exact ⟨[], c :: cs, .done _, .inr ⟨by simp, hstuck, _, rfl, rfl⟩⟩

/-- The rule takes `text` at the place in `whole` that the span tells. -/
def Rule.Takes (whole : List Char) (r : Rule) (text : List Char) (span : Span) : Prop :=
  ∃ before after, whole = before ++ (text ++ after) ∧ r.Selects text (text ++ after) ∧
    span = ⟨byteLength before, byteLength before + byteLength text⟩

theorem Munches.takes_of_mem (h : Munches l pieces rest) (hwhole : whole = before ++ l)
    (ht : t ∈ pieceTokens (byteLength before) pieces) :
    ∃ r text, Rule.Takes whole r text t.span ∧ r.kind? text = some t.kind := by
  induction h generalizing before with
  | done => cases ht
  | @piece r text later rest pieces hsel _ _ ih =>
    rcases List.mem_append.mp ht with ht | ht
    · obtain ⟨kind, hkind, rfl⟩ := List.mem_map.mp ht
      exact ⟨r, text, ⟨before, later, hwhole, hsel, rfl⟩, by simpa using hkind⟩
    · rw [← byteLength_append] at ht
      exact ih (by rw [hwhole, List.append_assoc]) ht

theorem Munches.byte_cases (h : Munches l pieces rest) (hwhole : whole = before ++ l)
    (hfrom : byteLength before ≤ i) (hto : i < byteLength before + byteLength (pieceText pieces)) :
    (∃ t ∈ pieceTokens (byteLength before) pieces, t.span.start ≤ i ∧ i < t.span.stop) ∨
    ∃ r text span, Rule.Takes whole r text span ∧ r.kind? text = none ∧
      span.start ≤ i ∧ i < span.stop := by
  induction h generalizing before with
  | done => exact absurd hto (Nat.not_lt.mpr hfrom)
  | @piece r text later rest pieces hsel _ _ ih =>
    rcases Nat.lt_or_ge i (byteLength before + byteLength text) with hlt | hge
    · cases hkind : r.kind? text with
      | some kind =>
        refine .inl ⟨_, List.mem_append_left _ (List.mem_map.mpr ⟨kind, ?_, rfl⟩), hfrom, hlt⟩
        simp [hkind]
      | none => exact .inr ⟨r, text, _, ⟨before, later, hwhole, hsel, rfl⟩, hkind, hfrom, hlt⟩
    · rw [← byteLength_append] at hge
      have hto' : i < byteLength (before ++ text) + byteLength (pieceText pieces) := by
        simpa [pieceText, byteLength_append, Nat.add_assoc] using hto
      rcases ih (by rw [hwhole, List.append_assoc]) hge hto' with ⟨t, ht, hi⟩ | hskip
      · refine .inl ⟨t, List.mem_append_right _ ?_, hi⟩
        rwa [byteLength_append] at ht
      · exact .inr hskip

theorem Rule.kind?_ne_eof (r : Rule) (text : List Char) : r.kind? text ≠ some .eof := by
  cases r <;> simp [Rule.kind?]

/-- The tokens are what the longest pieces of the source stand for, and only blanks, comments and
directives stand between them. -/
structure Munched (source : String) (tokens : List Token) : Prop where
  /-- The source is cut into pieces from its start to its end. -/
  pieces : ∃ pieces, Munches source.toList pieces [] ∧
    tokens = pieceTokens 0 pieces ++ [⟨.eof, ⟨source.utf8ByteSize, source.utf8ByteSize⟩⟩]
  ordered : tokens.Pairwise Token.Before
  /-- The end of the source is the last token and the only one of its kind. -/
  taken : ∃ front, tokens = front ++ [⟨.eof, ⟨source.utf8ByteSize, source.utf8ByteSize⟩⟩] ∧
    ∀ t ∈ front, t.kind ≠ .eof ∧
      ∃ r text, Rule.Takes source.toList r text t.span ∧ r.kind? text = some t.kind
  lossless : ∀ i < source.utf8ByteSize,
    (∃ t ∈ tokens, t.span.start ≤ i ∧ i < t.span.stop) ∨
    ∃ r text span, Rule.Takes source.toList r text span ∧ r.kind? text = none ∧
      span.start ≤ i ∧ i < span.stop

/-- Scanning a source, up to its end or to where it is stuck. -/
theorem tokenize_cases (source : String) :
    ∃ pieces rest, Munches source.toList pieces rest ∧
      (rest = [] ∧ tokenize source =
        .ok (pieceTokens 0 pieces ++ [⟨.eof, ⟨source.utf8ByteSize, source.utf8ByteSize⟩⟩]) ∨
      rest ≠ [] ∧ Stuck rest ∧ ∃ e : LexError, e.span.start = byteLength (pieceText pieces) ∧
        tokenize source = .error e) := by
  obtain ⟨pieces, rest, hmunch, ⟨hnil, hscan⟩ | ⟨hne, hstuck, e, he, hscan⟩⟩ :=
    scanFrom_munches source.toList 0
  · rw [Nat.zero_add, byteLength_toList] at hscan
    exact ⟨pieces, rest, hmunch, .inl ⟨hnil, by simp [tokenize, scan, hscan]⟩⟩
  · rw [Nat.zero_add] at he
    exact ⟨pieces, rest, hmunch, .inr ⟨hne, hstuck, e, he, by simp [tokenize, scan, hscan]⟩⟩

theorem munched_of_tokenize {source : String} {tokens : List Token}
    (h : tokenize source = .ok tokens) : Munched source tokens := by
  obtain ⟨pieces, rest, hmunch, ⟨rfl, hok⟩ | ⟨-, -, e, -, herror⟩⟩ := tokenize_cases source
  · have hordered := (inOrder_of_tokenize h).ordered
    obtain rfl := Except.ok.inj (hok.symm.trans h)
    refine ⟨⟨pieces, hmunch, rfl⟩, hordered, ⟨_, rfl, fun t ht => ?_⟩, fun i hi => ?_⟩
    · obtain ⟨r, text, htakes, hkind⟩ := hmunch.takes_of_mem (List.nil_append _).symm ht
      exact ⟨fun heof => r.kind?_ne_eof text (heof ▸ hkind), r, text, htakes, hkind⟩
    · have htext := hmunch.eq_append
      rw [List.append_nil] at htext
      rw [← byteLength_toList, htext] at hi
      have hbyte := hmunch.byte_cases (List.nil_append _).symm (Nat.zero_le i)
        (by simpa [byteLength] using hi)
      rcases hbyte with ⟨t, ht, hspan⟩ | hskip
      · exact .inl ⟨t, List.mem_append_left _ ht, hspan⟩
      · exact .inr hskip
  · rw [herror] at h
    cases h

theorem stuck_of_tokenize {source : String} {e : LexError} (h : tokenize source = .error e) :
    ∃ pieces rest, Munches source.toList pieces rest ∧ rest ≠ [] ∧ Stuck rest ∧
      e.span.start = byteLength (pieceText pieces) := by
  obtain ⟨pieces, rest, hmunch, ⟨-, hok⟩ | ⟨hne, hstuck, e', he, herror⟩⟩ := tokenize_cases source
  · rw [hok] at h
    cases h
  · obtain rfl := Except.error.inj (herror.symm.trans h)
    exact ⟨pieces, rest, hmunch, hne, hstuck, he⟩

/-- Scanning is maximal munch. Where scanning succeeds, each token is the longest piece at its place
that a rule matches, and the rest of the source is passed over. Where it fails, pieces were taken in
the same way up to a place at which no rule applies, or at which a comment starts that has no end.
-/
theorem tokenize_munches (source : String) :
    (∀ tokens, tokenize source = .ok tokens → Munched source tokens) ∧
    (∀ e, tokenize source = .error e → ∃ pieces rest, Munches source.toList pieces rest ∧
      rest ≠ [] ∧ Stuck rest ∧ e.span.start = byteLength (pieceText pieces)) :=
  ⟨fun _ => munched_of_tokenize, fun _ => stuck_of_tokenize⟩

/-- A word that starts like a keyword, a comment and a fraction; and a comment without an end. -/
theorem tokenize_munches_fraction :
    Munched "in1/**/.5e2f"
      [⟨.identifier "in1", ⟨0, 3⟩⟩, ⟨.floatLiteral ".5e2f", ⟨7, 12⟩⟩, ⟨.eof, ⟨12, 12⟩⟩] ∧
    ∃ pieces rest, Munches "in /*".toList pieces rest ∧ rest ≠ [] ∧ Stuck rest ∧
      3 = byteLength (pieceText pieces) :=
  ⟨(tokenize_munches _).1 _ (by rfl), (tokenize_munches _).2 ⟨"/*", ⟨3, 5⟩⟩ (by rfl)⟩

end Shader
