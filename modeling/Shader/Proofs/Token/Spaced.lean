import Mathlib.Data.String.Basic
import Shader.Proofs.Token.Munch

/-! Tokens apart from their source. The text of a token holds no space and opens no comment. So
where a space follows it, or nothing, no rule takes more than the token there, and the texts of all
tokens with spaces between them are cut into the same tokens again. -/

namespace Shader

open Scan

/-- No text that the pattern matches has the character in it. -/
def Pattern.avoids (d : Char) : Pattern → Bool
  | .one p => !p d
  | .literal text => !text.contains d
  | .seq a b => a.avoids d && b.avoids d
  | .opt a | .many a => a.avoids d

theorem Pattern.Matches.not_mem {a : Pattern} {w : List Char} {d : Char} (h : a.Matches w)
    (ha : a.avoids d = true) : d ∉ w := by
  induction h with
  | one hc =>
    rintro hd
    obtain rfl := List.mem_singleton.mp hd
    simp [avoids, hc] at ha
  | literal text => simpa [avoids] using ha
  | seq _ _ hs ht =>
    obtain ⟨ha, hb⟩ := Bool.and_eq_true_iff.mp ha
    exact fun hd => (List.mem_append.mp hd).elim (hs ha) (ht hb)
  | absent => simp
  | present _ hs => exact hs ha
  | nil => simp
  | cons _ _ hs ht => exact fun hd => (List.mem_append.mp hd).elim (hs ha) (ht ha)

namespace Rule

variable {r r' : Rule} {w l rest : List Char} {c d : Char} {kind : TokenKind}

theorem space_not_mem (hw : r.Matches w) (hkind : r.kind? w = some kind) : ' ' ∉ w := by
  refine hw.not_mem ?_
  cases r with
  | blanks | lineComment | blockComment | directive => cases hkind
  | keyword k => cases k <;> rfl
  | mark m => cases m <;> rfl
  | _ => rfl

theorem isBlank_of_token (hw : r.Matches (c :: w)) (hkind : r.kind? (c :: w) = some kind) :
    isBlank c = false := by
  have hfamily := ruleFamily_of_front hw (List.prefix_refl _)
  by_cases hc : isBlank c = true
  · rw [family, if_pos hc] at hfamily
    cases r with
    | blanks => cases hkind
    | _ => cases hfamily
  · simpa using hc

theorem not_prefix_of_token (hw : r.Matches w) (hkind : r.kind? w = some kind)
    (hrest : ∀ c ∈ rest.head?, c = ' ') (hd : d = '/' ∨ d = '*') : ¬ ['/', d] <+: w ++ rest := by
  intro hopen
  obtain ⟨c, cs, rfl, hfamily⟩ := starts hw
  obtain ⟨rfl, hnext⟩ := List.cons_prefix_cons.mp hopen
  cases cs with
  | nil =>
    obtain ⟨v, rfl⟩ := hnext
    have hspace := hrest d (by simp)
    rcases hd with rfl | rfl <;> cases hspace
  | cons e cs =>
    obtain ⟨rfl, -⟩ := List.cons_prefix_cons.mp hnext
    cases r with
    | blanks | lineComment | blockComment | directive => cases hkind
    | fractionFloat =>
      obtain ⟨t, ht, -⟩ := Pattern.matches_literal_seq.mp hw
      cases ht
    | mark m =>
      have hm := Pattern.matches_literal.mp hw
      rcases hd with rfl | rfl <;> cases m <;> cases hm
    | _ => cases hfamily

theorem not_matches_spaced (hw : r.Matches w) (hkind : r.kind? w = some kind) :
    ¬ r'.Matches (w ++ ' ' :: l) := by
  intro hw'
  have hopen : ∀ d, d = '/' ∨ d = '*' → ¬ ['/', d] <+: w ++ ' ' :: l :=
    fun d => not_prefix_of_token hw hkind (by simp)
  cases hkind' : r'.kind? (w ++ ' ' :: l) with
  | some kind' => exact space_not_mem hw' hkind' (by simp)
  | none =>
    obtain ⟨c, cs, rfl, hfamily⟩ := starts hw
    have hfamily' := ruleFamily_of_front hw' (List.prefix_refl _)
    rw [hfamily] at hfamily'
    cases r' with
    | lineComment =>
      obtain ⟨t, ht, -⟩ := Pattern.matches_literal_seq.mp hw'
      exact hopen '/' (.inl rfl) ⟨t, ht.symm⟩
    | blockComment =>
      obtain ⟨t, ht, -⟩ := Pattern.matches_literal_seq.mp hw'
      exact hopen '*' (.inr rfl) ⟨t, ht.symm⟩
    | blanks | directive =>
      cases r with
      | blanks | directive => cases hkind
      | _ => cases hfamily'
    | _ => cases hkind'

namespace Selects

/-- A token is taken wherever a space or nothing follows it. -/
theorem spaced (h : r.Selects w l) (hkind : r.kind? w = some kind)
    (hrest : ∀ c ∈ rest.head?, c = ' ') : r.Selects w (w ++ rest) where
  applies := h.applies
  front := List.prefix_append w rest
  longest r' w' hw' hfront := by
    refine Nat.le_of_not_lt fun hlt => ?_
    obtain ⟨u, rfl⟩ := List.prefix_of_prefix_length_le (List.prefix_append w rest) hfront
      (Nat.le_of_lt hlt)
    cases u with
    | nil => simp at hlt
    | cons c u =>
      obtain ⟨v, rfl⟩ := (List.prefix_append_right_inj w).mp hfront
      obtain rfl := hrest c (by simp)
      exact not_matches_spaced h.applies hkind hw'
  preferred := h.preferred

/-- Where a token is taken, the scanner finds it. -/
theorem piece_eq (h : r.Selects (c :: w) (c :: l)) (hkind : r.kind? (c :: w) = some kind)
    (hclosed : ¬ Unclosed (c :: l)) : piece c l = .token kind (c :: w) := by
  have hsame : ∀ {r' : Rule} {w' : List Char}, r'.Selects w' (c :: l) → w' = c :: w := by
    intro r' w' h'
    have hlength := Nat.le_antisymm (h.longest r' w' h'.applies h'.front)
      (h'.longest r _ h.applies h.front)
    exact (List.prefix_of_prefix_length_le h'.front h.front hlength.le).eq_of_length hlength
  have hright := piece_right c l
  generalize piece c l = found at hright ⊢
  cases hright with
  | @skip r' w' h' hnone hclosed' =>
    obtain rfl := hsame h'
    rcases h.preferred r' h'.applies with heq | ⟨rfl, -⟩
    · rw [hnone, hkind] at heq
      cases heq
    · cases hnone
  | @token r' w' kind' h' hkind' hclosed' =>
    obtain rfl := hsame h'
    have hsome : some kind' = some kind := by
      rw [← hkind', ← hkind]
      rcases h.preferred r' h'.applies with heq | ⟨rfl, k, rfl⟩
      · exact heq
      · rcases h'.preferred _ h.applies with heq | ⟨hident, -⟩
        · exact heq.symm
        · cases hident
    rw [Option.some.inj hsome]
  | bad hstuck =>
    rcases hstuck with hnone | hopen
    · exact absurd h.front (hnone r _ h.applies)
    · exact absurd hopen hclosed

theorem scans (h : r.Selects w l) (hkind : r.kind? w = some kind)
    (hrest : ∀ c ∈ rest.head?, c = ' ') : Scans w [kind] rest := by
  obtain ⟨c, cs, rfl, -⟩ := starts h.applies
  refine .token ((h.spaced hkind hrest).piece_eq hkind fun hopen => ?_)
  exact not_prefix_of_token h.applies hkind hrest (.inr rfl) hopen.1

end Selects

end Rule

/-- The text that a token has in the source. -/
def Token.slice (source : String) (t : Token) : String :=
  String.Pos.Raw.extract source ⟨t.span.start⟩ ⟨t.span.stop⟩

def spacedText (source : String) (tokens : List Token) : String :=
  " ".intercalate (tokens.map (Token.slice source))

theorem Rule.Takes.slice_eq {source : String} {r : Rule} {text : List Char} {t : Token}
    (h : Rule.Takes source.toList r text t.span) : t.slice source = String.ofList text := by
  obtain ⟨before, after, hsource, -, hspan⟩ := h
  have hlength : ∀ l, byteLength l = String.utf8Len l := by
    intro l
    rw [← byteLength_ofList, String.utf8ByteSize_ofList]
  rw [Token.slice, hspan, hlength, hlength, ← String.ofList_toList (s := source), hsource,
    ← List.append_assoc]
  exact String.extract_of_valid before text after

/-- The text of the token is taken somewhere, and stands for it. -/
def Token.IsTaken (source : String) (t : Token) : Prop :=
  ∃ (r : Rule) (l : List Char), r.Selects (t.slice source).toList l ∧
    r.kind? (t.slice source).toList = some t.kind

section SpacedText

variable {source : String} {t u : Token} {tokens : List Token} {rest : List Char}

theorem toList_spacedText_singleton :
    (spacedText source [t]).toList = (t.slice source).toList := by
  rw [spacedText, List.map_singleton, String.intercalate_singleton]

theorem toList_spacedText_cons : (spacedText source (t :: u :: tokens)).toList =
    (t.slice source).toList ++ (' ' :: (spacedText source (u :: tokens)).toList) := by
  rw [spacedText, List.map_cons, List.map_cons, String.intercalate_cons_cons, String.toList_append,
    String.toList_append, List.append_assoc]
  rfl

theorem scans_blank (h : t.IsTaken source) :
    Scans [' '] [] ((spacedText source (t :: tokens)).toList ++ rest) := by
  obtain ⟨r, l, hsel, hkind⟩ := h
  obtain ⟨c, cs, hslice, -⟩ := starts hsel.applies
  have hfirst : ∃ ds, (spacedText source (t :: tokens)).toList = c :: ds := by
    cases tokens with
    | nil => exact ⟨cs, by rw [toList_spacedText_singleton, hslice]⟩
    | cons u tokens => exact ⟨_, by rw [toList_spacedText_cons, hslice, List.cons_append]⟩
  obtain ⟨ds, hds⟩ := hfirst
  have happlies := hsel.applies
  rw [hslice] at happlies hkind
  rw [hds, List.cons_append]
  exact Scans.blank (Rule.isBlank_of_token happlies hkind)

theorem scans_spacedText (h : ∀ t ∈ tokens, t.IsTaken source)
    (hrest : ∀ c ∈ rest.head?, c = ' ') :
    Scans (spacedText source tokens).toList (tokens.map Token.kind) rest := by
  induction tokens with
  | nil => exact fun offset => ⟨[], offset, rfl, rfl, rfl⟩
  | cons t tokens ih =>
    obtain ⟨⟨r, l, hsel, hkind⟩, hlater⟩ := List.forall_mem_cons.mp h
    cases tokens with
    | nil =>
      rw [toList_spacedText_singleton]
      exact hsel.scans hkind hrest
    | cons u tokens =>
      rw [toList_spacedText_cons]
      have hblank : Scans [' '] [] ((spacedText source (u :: tokens)).toList ++ rest) :=
        scans_blank (hlater u List.mem_cons_self)
      exact (hsel.scans hkind (by simp)).append (hblank.append (ih hlater))

theorem scans_spacedText_end (h : ∀ t ∈ tokens, t.IsTaken source) {n : Nat} :
    Scans (spacedText source (tokens ++ [⟨.eof, ⟨n, n⟩⟩])).toList (tokens.map Token.kind) [] := by
  have hend : Token.slice source ⟨.eof, ⟨n, n⟩⟩ = "" := by
    simp [Token.slice, String.Pos.Raw.extract]
  by_cases hnil : tokens = []
  · rw [hnil, List.nil_append, toList_spacedText_singleton, hend]
    exact fun offset => ⟨[], offset, rfl, rfl, rfl⟩
  · have htext : (spacedText source (tokens ++ [⟨.eof, ⟨n, n⟩⟩])).toList =
        (spacedText source tokens).toList ++ [' '] := by
      rw [spacedText, List.map_append, List.map_singleton, hend,
        String.intercalate_append_of_ne_nil (by simpa using hnil) (by simp),
        String.intercalate_singleton, String.append_empty, String.toList_append]
      rfl
    have hspace : Scans [' '] [] [] := .skip rfl
    have hfront : Scans (spacedText source tokens).toList (tokens.map Token.kind) ([' '] ++ []) :=
      scans_spacedText h (by simp)
    rw [htext, ← List.append_nil (tokens.map Token.kind)]
    exact hfront.append hspace

end SpacedText

theorem isTaken_of_tokenize {source : String} {tokens : List Token}
    (h : tokenize source = .ok tokens) :
    ∃ front, tokens = front ++ [⟨.eof, ⟨source.utf8ByteSize, source.utf8ByteSize⟩⟩] ∧
      ∀ t ∈ front, t.IsTaken source := by
  obtain ⟨front, htokens, htaken⟩ := (munched_of_tokenize h).taken
  refine ⟨front, htokens, fun t ht => ?_⟩
  obtain ⟨-, r, text, htakes, hkind⟩ := htaken t ht
  have hslice := htakes.slice_eq
  obtain ⟨before, after, -, hsel, -⟩ := htakes
  refine ⟨r, text ++ after, ?_, ?_⟩
  · rw [hslice, String.toList_ofList]
    exact hsel
  · rw [hslice, String.toList_ofList]
    exact hkind

/-- The texts of the tokens of a source, each a space apart from the next, are a source of tokens of
the same kinds, with the same names and literals. The end of the source may be counted in, as a last
empty text, or not. -/
theorem tokenize_spacedText {source : String} {tokens : List Token}
    (h : tokenize source = .ok tokens) :
    (∃ again, tokenize (spacedText source tokens) = .ok again ∧
      again.map Token.kind = tokens.map Token.kind) ∧
    ∃ again, tokenize (spacedText source tokens.dropLast) = .ok again ∧
      again.map Token.kind = tokens.map Token.kind := by
  obtain ⟨front, rfl, htaken⟩ := isTaken_of_tokenize h
  have hscans : Scans (spacedText source front).toList (front.map Token.kind) [] :=
    scans_spacedText htaken (by simp)
  rw [List.dropLast_concat, List.map_append, ← String.ofList_toList (s := spacedText _ (_ ++ _)),
    ← String.ofList_toList (s := spacedText _ front)]
  exact ⟨(scans_spacedText_end htaken).tokenize, hscans.tokenize⟩

/-- Comments where there would be other tokens without them: a number in front of what looks like
its exponent, and the parts of an operator. -/
def partedSource : String :=
  "1./**/e5+/**/=//c"

def partedTokens : List Token :=
  [⟨.floatLiteral "1.", ⟨0, 2⟩⟩, ⟨.identifier "e5", ⟨6, 8⟩⟩, ⟨.mark .plus, ⟨8, 9⟩⟩,
    ⟨.mark .eq, ⟨13, 14⟩⟩, ⟨.eof, ⟨17, 17⟩⟩]

theorem tokenize_spacedText_parted :
    tokenize partedSource = .ok partedTokens ∧
    spacedText partedSource partedTokens = "1. e5 + = " ∧
    ∃ again, tokenize "1. e5 + = " = .ok again ∧
      again.map Token.kind = partedTokens.map Token.kind := by
  have htokens : tokenize partedSource = .ok partedTokens := by rfl
  have htext : spacedText partedSource partedTokens = "1. e5 + = " := by rfl
  obtain ⟨hagain, -⟩ := tokenize_spacedText htokens
  rw [htext] at hagain
  exact ⟨htokens, htext, hagain⟩

end Shader
