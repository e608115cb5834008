import Shader.Token.Scan
import Shader.Ty.Basic

/-! What every token of a source is like. -/

namespace Shader

/-- Whatever holds of the tokens that the rules match holds of all tokens of a source. -/
theorem tokenize_forall {P : TokenKind → Prop} (hend : P .eof)
    (hpiece : ∀ c cs kind text, Scan.piece c cs = .token kind text → P kind) {source : String}
    {tokens : List Token} (h : tokenize source = .ok tokens) : ∀ t ∈ tokens, P t.kind := by
  have hscan : ∀ (cs : List Char) (within offset : Nat),
      ∀ t ∈ (scanFrom cs within offset).tokens, P t.kind := by
    intro cs
    induction cs with
    | nil => simpa [scanFrom] using hend
    | cons c cs ih =>
      intro within offset
      cases within with
      | succ within => exact ih within _
      | zero =>
        simp only [scanFrom]
        split
        · exact ih _ _
        · rename_i kind text hmatch
          simp only [List.mem_cons, forall_eq_or_imp]
          exact ⟨hpiece c cs kind text hmatch, ih _ _⟩
        · simp
  unfold tokenize at h
  dsimp only at h
  split at h
  · cases h
  · obtain rfl := Except.ok.inj h
    exact hscan source.toList 0 0

/-- A word that is no keyword. -/
structure IsWord (x : String) : Prop where
  spelled : ∃ c cs, x.toList = c :: cs ∧ Scan.isWordStart c = true ∧ cs.all Scan.isWordPart = true
  free : Keyword.ofText? x = none

/-- A word that a struct can be named by: one that names no basic type. -/
structure IsTag (x : String) : Prop where
  word : IsWord x
  fresh : BasicTy.ofName? x = none

/-- Identifiers are words. -/
def TokenKind.IsScanned : TokenKind → Prop
  | .identifier x => IsWord x
  | _ => True

theorem Scan.word_isScanned {c : Char} {cs : List Char} (hc : isWordStart c = true)
    (hcs : cs.all isWordPart = true) : (word (c :: cs)).IsScanned := by
  unfold word
  dsimp only
  split
  · trivial
  · rename_i hfree
    exact ⟨⟨c, cs, by simp, hc, hcs⟩, hfree⟩

theorem Scan.number_isScanned (cs : List Char) : (number cs).1.IsScanned := by
  unfold number
  dsimp only
  split
  · trivial
  · split <;> trivial

theorem Scan.piece_isScanned {c : Char} {cs : List Char} {kind : TokenKind} {text : List Char}
    (h : piece c cs = .token kind text) : kind.IsScanned := by
  unfold piece at h
  split at h
  · cases h
  split at h
  · cases h
  split at h
  · rename_i hstart
    obtain ⟨rfl, rfl⟩ : word _ = kind ∧ _ = text := by simpa using h
    exact word_isScanned hstart List.all_takeWhile
  split at h
  · obtain ⟨rfl, -⟩ : (number (c :: cs)).1 = kind ∧ _ := by simpa using h
    exact number_isScanned _
  split at h
  · cases h
  · split at h <;> cases h
  · dsimp only at h
    generalize (if c = '.' then cs.takeWhile isDigit else []) = fraction at h
    split at h
    · cases h
      trivial
    · split at h <;> cases h
      trivial

theorem tokenize_isScanned {source : String} {tokens : List Token}
    (h : tokenize source = .ok tokens) : ∀ t ∈ tokens, t.kind.IsScanned :=
  tokenize_forall trivial (fun _ _ _ _ => Scan.piece_isScanned) h

end Shader
