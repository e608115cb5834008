import Shader.Proofs.Numeral

/-! Scanning a text piece by piece: what the pieces scan to, the text scans to. -/

namespace Shader

/-- In front of `rest`, the text scans to tokens of the given kinds, and scanning goes on behind
it. -/
def Scans (text : List Char) (kinds : List TokenKind) (rest : List Char) : Prop :=
  ∀ offset, ∃ tokens next, tokens.map Token.kind = kinds ∧
    (scanFrom (text ++ rest) 0 offset).tokens = tokens ++ (scanFrom rest 0 next).tokens ∧
    (scanFrom (text ++ rest) 0 offset).error = (scanFrom rest 0 next).error

theorem scanFrom_within (text rest : List Char) (offset : Nat) :
    ∃ next, scanFrom (text ++ rest) text.length offset = scanFrom rest 0 next := by
  induction text generalizing offset with
  | nil => exact ⟨offset, rfl⟩
  | cons c cs ih => exact ih _

namespace Scans

variable {a b cs rest : List Char} {c : Char} {as bs : List TokenKind} {kind : TokenKind}

theorem append (ha : Scans a as (b ++ rest)) (hb : Scans b bs rest) :
    Scans (a ++ b) (as ++ bs) rest := by
  intro offset
  obtain ⟨ts, next, hts, htokens, herror⟩ := ha offset
  obtain ⟨us, last, hus, htokens', herror'⟩ := hb next
  refine ⟨ts ++ us, last, by simp [hts, hus], ?_, ?_⟩
  · rw [List.append_assoc, htokens, htokens', List.append_assoc]
  · rw [List.append_assoc, herror, herror']

theorem token (h : Scan.piece c (cs ++ rest) = .token kind (c :: cs)) :
    Scans (c :: cs) [kind] rest := by
  intro offset
  obtain ⟨next, hnext⟩ := scanFrom_within cs rest (offset + c.utf8Size)
  refine ⟨[⟨kind, ⟨offset, offset + Scan.byteLength (c :: cs)⟩⟩], next, rfl, ?_, ?_⟩
  · simp only [List.cons_append, scanFrom, h, List.length_cons, Nat.add_sub_cancel, hnext]
    rfl
  · simp only [List.cons_append, scanFrom, h, List.length_cons, Nat.add_sub_cancel, hnext]

theorem skip (h : Scan.piece c (cs ++ rest) = .skip (cs.length + 1)) : Scans (c :: cs) [] rest := by
  intro offset
  obtain ⟨next, hnext⟩ := scanFrom_within cs rest (offset + c.utf8Size)
  refine ⟨[], next, rfl, ?_, ?_⟩ <;>
    simp only [List.cons_append, scanFrom, h, Nat.add_sub_cancel, hnext, List.nil_append]

theorem isBlank_of_isWordPart {c : Char} (h : Scan.isWordPart c = true) :
    Scan.isBlank c = false ∧ c ≠ '#' := by
  constructor
  · by_cases hb : Scan.isBlank c = true
    · simp only [Scan.isBlank, Bool.or_eq_true, decide_eq_true_eq] at hb
      rcases hb with (((rfl | rfl) | rfl) | rfl) | rfl <;> exact absurd h (by decide)
    · simpa using hb
  · rintro rfl
    exact absurd h (by decide)

theorem isWordStart_of_isDigit {c : Char} (h : Scan.isDigit c = true) :
    Scan.isWordStart c = false := by
  simp only [Scan.isDigit, Bool.and_eq_true, decide_eq_true_eq] at h
  have hnine : c.toNat ≤ 57 := UInt32.le_iff_toNat_le.mp h.2
  by_cases hstart : Scan.isWordStart c = true
  · simp only [Scan.isWordStart, Bool.or_eq_true, Bool.and_eq_true, decide_eq_true_eq] at hstart
    rcases hstart with (⟨hlow, -⟩ | ⟨hlow, -⟩) | rfl
    · have : 97 ≤ c.toNat := UInt32.le_iff_toNat_le.mp hlow
      omega
    · have : 65 ≤ c.toNat := UInt32.le_iff_toNat_le.mp hlow
      omega
    · exact absurd hnine (by decide)
  · simpa using hstart

theorem word (hc : Scan.isWordStart c = true) (hcs : cs.all Scan.isWordPart = true)
    (hrest : Scan.Delimited rest) : Scans (c :: cs) [Scan.word (c :: cs)] rest := by
  refine token ?_
  obtain ⟨hblank, hsign⟩ := isBlank_of_isWordPart (c := c) (by simp [Scan.isWordPart, hc])
  have htake : (cs ++ rest).takeWhile Scan.isWordPart = cs := by
    rw [List.takeWhile_append_of_pos (List.all_eq_true.mp hcs)]
    cases rest with
    | nil => simp
    | cons d ds => simp [hrest.head_not (p := Scan.isWordPart) (by decide) d rfl]
  simp [Scan.piece, hblank, hsign, hc, htake]

theorem number (hc : Scan.isDigit c = true)
    (h : Scan.number (c :: (cs ++ rest)) = (kind, c :: cs)) : Scans (c :: cs) [kind] rest := by
  refine token ?_
  obtain ⟨hblank, hsign⟩ := isBlank_of_isWordPart (c := c) (by simp [Scan.isWordPart, hc])
  simp [Scan.piece, hblank, hsign, isWordStart_of_isDigit hc, hc, h]

theorem identifier {x : String} (hx : IsWord x) (hrest : Scan.Delimited rest) :
    Scans x.toList [.identifier x] rest := by
  obtain ⟨c, cs, hspelled, hc, hcs⟩ := hx.spelled
  have hname : String.ofList (c :: cs) = x := by rw [← hspelled, String.ofList_toList]
  have hword : Scan.word (c :: cs) = .identifier x := by
    simp only [Scan.word, hname, hx.free]
  rw [hspelled, ← hword]
  exact word hc hcs hrest

theorem lParen : Scans ['('] [.mark .lParen] rest :=
  token rfl

theorem rParen : Scans [')'] [.mark .rParen] rest :=
  token rfl

theorem lBracket : Scans ['['] [.mark .lBracket] rest :=
  token rfl

theorem rBracket : Scans [']'] [.mark .rBracket] rest :=
  token rfl

theorem comma : Scans [','] [.mark .comma] rest :=
  token rfl

theorem minus (hc : Scan.isDigit c = true) : Scans ['-'] [.mark .minus] (c :: rest) := by
  refine token ?_
  have hnot : c ≠ '-' ∧ c ≠ '=' := by
    constructor <;> rintro rfl <;> exact absurd hc (by decide)
  have hfind : Mark.all.find? (fun m => m.chars.isPrefixOf ('-' :: c :: rest)) = some .minus := by
    simp [Mark.all, Mark.chars, List.isPrefixOf, hnot.1.symm, hnot.2.symm]
  simp only [Scan.piece, List.nil_append, hfind]
  rfl

theorem slash : Scans ['/'] [.mark .slash] (' ' :: rest) :=
  token rfl

theorem blank (hc : Scan.isBlank c = false) : Scans [' '] [] (c :: rest) := by
  refine skip ?_
  have hblank : Scan.isBlank ' ' = true := by decide
  simp [Scan.piece, hblank, hc]

theorem tokenize (h : Scans a as []) :
    ∃ tokens, tokenize (String.ofList a) = .ok tokens ∧ tokens.map Token.kind = as ++ [.eof] := by
  obtain ⟨ts, next, hts, htokens, herror⟩ := h 0
  rw [List.append_nil] at htokens herror
  refine ⟨ts ++ [⟨.eof, ⟨next, next⟩⟩], ?_, by simp [hts]⟩
  simp only [Shader.tokenize, scan, String.toList_ofList, htokens, herror, scanFrom]

end Scans

end Shader
