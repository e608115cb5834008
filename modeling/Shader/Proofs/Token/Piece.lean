import Shader.Proofs.Token.Literal

/-! Longest pieces. At every place the scanner takes the longest piece that a rule matches there,
and where a word is both a keyword and an identifier, the keyword. -/

namespace Shader

namespace Scan

open Pattern

variable {c d : Char} {k l v w body : List Char} {n : Nat}

/-- The text ends with its first closing of a comment. -/
def Closes (text : List Char) : Prop :=
  pastClosing text = some text.length

theorem pastClosing_cons (h : ¬ (c = '*' ∧ l.head? = some '/')) :
    pastClosing (c :: l) = (pastClosing l).map (· + 1) := by
  rw [pastClosing.eq_def]
  split
  · simp_all
  · rename_i heq
    obtain ⟨rfl, rfl⟩ := List.cons.inj heq
    rfl
  · contradiction

theorem closes_cons (h : ¬ (c = '*' ∧ l.head? = some '/')) : Closes (c :: l) ↔ Closes l := by
  unfold Closes
  rw [pastClosing_cons h]
  simp

theorem closes_append_of_ne_star (hw : ∀ c ∈ w, c ≠ '*') (h : Closes l) : Closes (w ++ l) := by
  induction w with
  | nil => exact h
  | cons c w ih =>
    obtain ⟨hc, hw⟩ := List.forall_mem_cons.mp hw
    exact (closes_cons fun hstar => hc hstar.1).mpr (ih hw)

theorem closes_stars (n : Nat) (hd : d ≠ '/') (h : Closes (d :: l)) :
    Closes (List.replicate n '*' ++ d :: l) := by
  induction n with
  | zero => exact h
  | succ n ih =>
    refine (closes_cons ?_).mpr ih
    cases n with
    | zero => simpa using hd
    | succ n => simp [List.replicate_succ]

/-- What follows the first run of stars in a comment. -/
def afterStars : Pattern :=
  .seq (.many (.seq (.one fun c => c ≠ '/' && c ≠ '*') Rule.starred)) (.literal ['/'])

theorem closes_of_starred (hs : Rule.starred.Matches w)
    (h : ∀ n, Closes (List.replicate (n + 1) '*' ++ l)) : Closes (w ++ l) := by
  obtain ⟨s, k, rfl, hs, hk⟩ := matches_seq.mp hs
  obtain ⟨hne, hk⟩ := matches_several.mp hk
  obtain ⟨n, hn⟩ := Nat.exists_eq_succ_of_ne_zero (mt List.length_eq_zero_iff.mp hne)
  have hstars : k = List.replicate (n + 1) '*' := by
    rw [← Nat.succ_eq_add_one, ← hn]
    exact List.eq_replicate_of_mem fun c hc => by simpa using hk c hc
  rw [List.append_assoc, hstars]
  exact closes_append_of_ne_star (fun c hc => by simpa using matches_run.mp hs c hc) (h n)

theorem closes_of_afterStars (h : afterStars.Matches l) (n : Nat) :
    Closes (List.replicate (n + 1) '*' ++ l) := by
  obtain ⟨blocks, _, rfl, hblocks, hslash⟩ := matches_seq.mp h
  obtain rfl := matches_literal.mp hslash
  clear h hslash
  generalize ha : Pattern.many _ = a at hblocks
  induction hblocks generalizing n with
  | nil =>
    rw [List.nil_append, List.replicate_succ', List.append_assoc]
    exact closes_stars n (by decide) rfl
  | @cons b s t hs _ _ ih =>
    obtain rfl := Pattern.many.inj ha
    obtain ⟨g, starred, rfl, hg, hstarred⟩ := matches_one_seq.mp hs
    obtain ⟨hslash, hstar⟩ : g ≠ '/' ∧ g ≠ '*' := by simpa using hg
    rw [List.append_assoc, List.cons_append]
    refine closes_stars (n + 1) hslash ((closes_cons fun h => hstar h.1).mpr ?_)
    exact closes_of_starred hstarred fun n => ih n rfl
  | _ => cases ha

theorem closes_of_commentRest (h : Rule.commentRest.Matches l) : Closes l := by
  obtain ⟨s, t, rfl, hs, ht⟩ := matches_seq.mp h
  exact closes_of_starred hs (closes_of_afterStars ht)

/-- Both of a comment's rest and of what follows a star in it, since each goes on with the other. -/
theorem commentRest_of_closes (l : List Char) :
    (Closes l → Rule.commentRest.Matches l) ∧
    (Closes ('*' :: l) → ∃ k t, l = k ++ t ∧ (∀ c ∈ k, c = '*') ∧ afterStars.Matches t) := by
  induction l with
  | nil => exact ⟨fun h => (by cases h), fun h => (by cases h)⟩
  | cons c l ih =>
    obtain ⟨hrest, hstar⟩ := ih
    constructor
    · intro h
      by_cases hc : c = '*'
      · subst hc
        obtain ⟨k, t, rfl, hk, ht⟩ := hstar h
        refine .seq (s := '*' :: k) (matches_seq.mpr ⟨[], _, rfl, .nil, ?_⟩) ht
        exact matches_several.mpr ⟨by simp, by simpa using hk⟩
      · obtain ⟨s, t, rfl, hs, ht⟩ := matches_seq.mp (hrest ((closes_cons fun h => hc h.1).mp h))
        obtain ⟨u, k, rfl, hu, hk⟩ := matches_seq.mp hs
        refine .seq (s := c :: (u ++ k)) (matches_seq.mpr ⟨c :: u, k, rfl, ?_, hk⟩) ht
        exact .cons (.one (by simpa using hc)) hu
    · intro h
      by_cases hslash : c = '/'
      · subst hslash
        have hnil : l = [] := by simpa [Closes, pastClosing] using h
        subst hnil
        exact ⟨[], _, rfl, by simp, .seq .nil (.literal _)⟩
      have h' := (closes_cons fun h => hslash (by simpa using h.2)).mp h
      by_cases hc : c = '*'
      · subst hc
        obtain ⟨k, t, rfl, hk, ht⟩ := hstar h'
        exact ⟨'*' :: k, t, rfl, by simpa using hk, ht⟩
      · obtain ⟨s, t, rfl, hs, ht⟩ := matches_seq.mp (hrest ((closes_cons fun h => hc h.1).mp h'))
        obtain ⟨blocks, e, rfl, hblocks, he⟩ := matches_seq.mp ht
        refine ⟨[], _, rfl, by simp, ?_⟩
        have hblock : Matches (.seq (.one fun c => c ≠ '/' && c ≠ '*') Rule.starred) (c :: s) :=
          matches_one_seq.mpr ⟨c, s, rfl, by simp [hslash, hc], hs⟩
        rw [← List.cons_append, ← List.append_assoc]
        exact .seq (.cons hblock hblocks) he

theorem commentRest_iff : Rule.commentRest.Matches l ↔ Closes l :=
  ⟨closes_of_commentRest, (commentRest_of_closes l).1⟩

theorem pastClosing_append (h : pastClosing w = some n) (v : List Char) :
    pastClosing (w ++ v) = some n := by
  induction w generalizing n with
  | nil => cases h
  | cons c w ih =>
    by_cases hc : c = '*' ∧ w.head? = some '/'
    · obtain ⟨rfl, hslash⟩ := hc
      obtain ⟨w, rfl⟩ := List.head?_eq_some_iff.mp hslash
      exact h
    · rw [pastClosing_cons hc] at h
      obtain ⟨m, hm, rfl⟩ := Option.map_eq_some_iff.mp h
      rw [List.cons_append, pastClosing_cons, ih hm]
      · rfl
      · cases w with
        | nil => cases hm
        | cons d w => exact hc

theorem exists_closes (h : pastClosing l = some n) :
    ∃ w v, l = w ++ v ∧ w.length = n ∧ Closes w := by
  induction l generalizing n with
  | nil => cases h
  | cons c l ih =>
    by_cases hc : c = '*' ∧ l.head? = some '/'
    · obtain ⟨rfl, hslash⟩ := hc
      obtain ⟨v, rfl⟩ := List.head?_eq_some_iff.mp hslash
      obtain rfl := Option.some.inj h
      exact ⟨['*', '/'], v, rfl, rfl, rfl⟩
    · rw [pastClosing_cons hc] at h
      obtain ⟨m, hm, rfl⟩ := Option.map_eq_some_iff.mp h
      obtain ⟨w, v, rfl, rfl, hw⟩ := ih hm
      refine ⟨c :: w, v, rfl, rfl, (closes_cons ?_).mpr hw⟩
      cases w with
      | nil => cases hw
      | cons d w => exact hc

theorem blockComment_iff :
    Rule.blockComment.Matches w ↔ ∃ body, w = '/' :: '*' :: body ∧ Closes body := by
  simp only [Rule.Matches, Rule.pattern, matches_literal_seq, commentRest_iff]
  rfl

inductive Family where
  | blank | directive | word | number | sign
deriving DecidableEq

def family (c : Char) : Family :=
  if isBlank c then .blank
  else if c = '#' then .directive
  else if isWordStart c then .word
  else if isDigit c then .number
  else .sign

def ruleFamily : Rule → Family
  | .blanks => .blank
  | .directive => .directive
  | .keyword _ | .identifier => .word
  | .hexInt | .int | .pointFloat | .exponentFloat => .number
  | .lineComment | .blockComment | .fractionFloat | .mark _ => .sign

theorem family_of_isWordStart (h : isWordStart c = true) : family c = .word := by
  have hblank := Scans.isBlank_of_isWordPart (c := c) (by simp [isWordPart, h])
  simp [family, h, hblank]

theorem family_of_isDigit (h : isDigit c = true) : family c = .number := by
  have hblank := Scans.isBlank_of_isWordPart (c := c) (by simp [isWordPart, h])
  have hword := Scans.isWordStart_of_isDigit h
  simp [family, h, hblank, hword]

theorem exists_digit (h : (Pattern.several Rule.digit).Matches w) :
    ∃ c cs, w = c :: cs ∧ isDigit c = true := by
  obtain ⟨hne, hw⟩ := matches_several.mp h
  obtain ⟨c, cs, rfl⟩ := List.exists_cons_of_ne_nil hne
  exact ⟨c, cs, rfl, hw c (by simp)⟩

theorem starts {r : Rule} (h : r.Matches w) : ∃ c cs, w = c :: cs ∧ family c = ruleFamily r := by
  cases r with
  | blanks =>
    obtain ⟨hne, hw⟩ := matches_several.mp h
    obtain ⟨c, cs, rfl⟩ := List.exists_cons_of_ne_nil hne
    exact ⟨c, cs, rfl, if_pos (hw c (by simp))⟩
  | lineComment =>
    obtain ⟨t, rfl, -⟩ := matches_literal_seq.mp h
    exact ⟨_, _, rfl, by decide⟩
  | blockComment =>
    obtain ⟨t, rfl, -⟩ := matches_literal_seq.mp h
    exact ⟨_, _, rfl, by decide⟩
  | directive =>
    obtain ⟨t, rfl, -⟩ := matches_literal_seq.mp h
    exact ⟨_, _, rfl, by decide⟩
  | fractionFloat =>
    obtain ⟨t, rfl, -⟩ := matches_literal_seq.mp h
    exact ⟨_, _, rfl, by decide⟩
  | hexInt =>
    obtain ⟨t, rfl, -⟩ := matches_literal_seq.mp h
    exact ⟨_, _, rfl, by decide⟩
  | keyword k =>
    obtain rfl := matches_literal.mp h
    cases k <;> exact ⟨_, _, rfl, by decide⟩
  | mark m =>
    obtain rfl := matches_literal.mp h
    cases m <;> exact ⟨_, _, rfl, by decide⟩
  | identifier =>
    obtain ⟨c, cs, rfl, hc, -⟩ := matches_one_seq.mp h
    exact ⟨c, cs, rfl, family_of_isWordStart hc⟩
  | int =>
    obtain ⟨s, t, rfl, hs, -⟩ := matches_seq.mp h
    obtain ⟨c, cs, rfl, hc⟩ := exists_digit hs
    exact ⟨c, _, rfl, family_of_isDigit hc⟩
  | pointFloat =>
    obtain ⟨s, t, rfl, hs, -⟩ := matches_seq.mp h
    obtain ⟨c, cs, rfl, hc⟩ := exists_digit hs
    exact ⟨c, _, rfl, family_of_isDigit hc⟩
  | exponentFloat =>
    obtain ⟨s, t, rfl, hs, -⟩ := matches_seq.mp h
    obtain ⟨c, cs, rfl, hc⟩ := exists_digit hs
    exact ⟨c, _, rfl, family_of_isDigit hc⟩

theorem selects_of_yields {r : Rule} (happlies : r.Matches w) (hfront : w <+: l)
    (h : ∀ (r' : Rule) w', r'.Matches w' → w' <+: l → Yields w (r.kind? w) r' w') :
    r.Selects w l where
  applies := happlies
  front := hfront
  longest r' w' hw' hl' := by
    rcases h r' w' hw' hl' with hlt | ⟨rfl, -⟩
    · exact Nat.le_of_lt hlt
    · exact Nat.le_refl _
  preferred r' hw := by
    rcases h r' w hw hfront with hlt | ⟨-, hkind | ⟨hident, k, hk⟩⟩
    · exact absurd hlt (Nat.lt_irrefl _)
    · exact .inl hkind
    · refine .inr ⟨hident, ?_⟩
      cases r with
      | keyword k => exact ⟨k, rfl⟩
      | _ => cases hk

theorem ruleFamily_of_front {r : Rule} (hw : r.Matches w) (hl : w <+: c :: l) :
    ruleFamily r = family c := by
  obtain ⟨d, ds, rfl, hd⟩ := starts hw
  obtain ⟨rfl, -⟩ := List.cons_prefix_cons.mp hl
  exact hd.symm

theorem blanks_selects (hc : isBlank c = true) :
    Rule.blanks.Selects (c :: l.takeWhile isBlank) (c :: l) := by
  have htake : (c :: l).takeWhile isBlank = c :: l.takeWhile isBlank :=
    List.takeWhile_cons_of_pos hc
  rw [← htake]
  refine selects_of_yields (matches_several.mpr ⟨by simp [htake], forall_takeWhile _ _⟩)
    (List.takeWhile_prefix _) fun r w hw hl => ?_
  have hfamily : ruleFamily r = .blank := by rw [ruleFamily_of_front hw hl, family, if_pos hc]
  cases r with
  | blanks => exact yields_of_front (prefix_takeWhile (matches_several.mp hw).2 hl) rfl
  | _ => cases hfamily

theorem directive_selects :
    Rule.directive.Selects ('#' :: l.takeWhile (· ≠ '\n')) ('#' :: l) := by
  refine selects_of_yields
    (matches_literal_seq.mpr ⟨_, rfl, matches_run.mpr (forall_takeWhile _ _)⟩)
    ((List.prefix_cons_inj _).mpr (List.takeWhile_prefix _)) fun r w hw hl => ?_
  have hfamily : ruleFamily r = .directive := ruleFamily_of_front hw hl
  cases r with
  | directive =>
    obtain ⟨t, rfl, ht⟩ := matches_literal_seq.mp hw
    refine yields_of_front ((List.prefix_cons_inj _).mpr ?_) rfl
    exact prefix_takeWhile (matches_run.mp ht) ((List.prefix_cons_inj _).mp hl)
  | _ => cases hfamily

theorem keyword_isWordPart (k : Keyword) : ∀ c ∈ k.text.toList, isWordPart c = true := by
  refine List.all_eq_true.mp ?_
  cases k <;> rfl

theorem keyword_ofText? (k : Keyword) : Keyword.ofText? k.text = some k := by
  cases k <;> decide

theorem word_of_keyword {k : Keyword} (h : w = k.text.toList) : word w = .keyword k := by
  rw [h, word]
  simp [keyword_ofText?]

theorem word_yields {r : Rule} (hfamily : ruleFamily r = .word) (hw : r.Matches w) (hl : w <+: l) :
    Yields (l.takeWhile isWordPart) (some (word (l.takeWhile isWordPart))) r w := by
  have hparts : ∀ c ∈ w, isWordPart c = true := by
    cases r with
    | keyword k =>
      obtain rfl := matches_literal.mp hw
      exact keyword_isWordPart k
    | identifier =>
      obtain ⟨c, cs, rfl, hc, hcs⟩ := matches_one_seq.mp hw
      exact List.forall_mem_cons.mpr ⟨by simp [isWordPart, hc], matches_run.mp hcs⟩
    | _ => cases hfamily
  rcases length_lt_or_eq (prefix_takeWhile hparts hl) with hlt | heq
  · exact .inl hlt
  refine .inr ⟨heq, ?_⟩
  rw [← heq]
  cases r with
  | keyword k => exact .inl (congrArg some (word_of_keyword (matches_literal.mp hw)).symm)
  | identifier =>
    unfold word
    dsimp only
    split
    · exact .inr ⟨rfl, _, rfl⟩
    · exact .inl rfl
  | _ => cases hfamily

theorem word_selects (hc : isWordStart c = true) :
    ∃ r : Rule, r.Selects (c :: l.takeWhile isWordPart) (c :: l) ∧
      r.kind? (c :: l.takeWhile isWordPart) = some (word (c :: l.takeWhile isWordPart)) := by
  have htake : (c :: l).takeWhile isWordPart = c :: l.takeWhile isWordPart :=
    List.takeWhile_cons_of_pos (by simp [isWordPart, hc])
  obtain ⟨r, hr, hkind⟩ : ∃ r : Rule, r.Matches (c :: l.takeWhile isWordPart) ∧
      r.kind? (c :: l.takeWhile isWordPart) = some (word (c :: l.takeWhile isWordPart)) := by
    cases hword : Keyword.ofText? (String.ofList (c :: l.takeWhile isWordPart)) with
    | none =>
      refine ⟨.identifier, ?_, by simp only [Rule.kind?, word, hword]⟩
      exact matches_one_seq.mpr ⟨c, _, rfl, hc, matches_run.mpr (forall_takeWhile _ _)⟩
    | some k =>
      have htext : k.text = String.ofList (c :: l.takeWhile isWordPart) := by
        simpa using List.find?_some hword
      exact ⟨.keyword k, matches_literal.mpr (by rw [htext, String.toList_ofList]),
        by simp only [Rule.kind?, word, hword]⟩
  refine ⟨r, selects_of_yields hr ?_ fun r' w hw hl => ?_, hkind⟩
  · exact (List.prefix_cons_inj _).mpr (List.takeWhile_prefix _)
  · have hfamily : ruleFamily r' = .word := by
      rw [ruleFamily_of_front hw hl, family_of_isWordStart hc]
    rw [hkind, ← htake]
    exact word_yields hfamily hw hl

theorem number_selects (hc : isDigit c = true) :
    ∃ r : Rule, r.Selects (number (c :: l)).2 (c :: l) ∧
      r.kind? (number (c :: l)).2 = some (number (c :: l)).1 := by
  obtain ⟨r, hr, hkind⟩ := number_matches (l := l) hc
  refine ⟨r, selects_of_yields hr (isPrefix_number _) fun r' w hw hl => ?_, hkind⟩
  have hfamily : ruleFamily r' = .number := by
    rw [ruleFamily_of_front hw hl, family_of_isDigit hc]
  rw [hkind]
  refine number_yields ?_ hw hl
  cases r' with
  | int | hexInt | pointFloat | exponentFloat => simp [numberRules]
  | _ => cases hfamily

theorem find?_chars (m : Mark) : Mark.all.find? (fun m' => m'.chars = m.chars) = some m := by
  cases m <;> rfl

theorem mark_of_chars {m m' : Mark} (h : m.chars = m'.chars) : m = m' :=
  Option.some.inj ((find?_chars m).symm.trans (h ▸ find?_chars m'))

theorem mem_all (m : Mark) : m ∈ Mark.all := by
  cases m <;> decide

theorem all_longerFirst : Mark.all.Pairwise fun m m' => m'.chars.length ≤ m.chars.length := by
  decide

/-- The first mark that fits is the longest that does. -/
theorem mark_yields {m m' : Mark} (h : Mark.all.find? (fun m => m.chars.isPrefixOf l) = some m)
    (hl : m'.chars <+: l) : Yields m.chars (some (.mark m)) (.mark m') m'.chars := by
  have hm := (mark_token h).2
  obtain ⟨-, before, behind, heq, hbefore⟩ := List.find?_eq_some_iff_append.mp h
  have hsorted := all_longerFirst
  rw [heq, List.pairwise_append] at hsorted
  have hmem := mem_all m'
  rw [heq, List.mem_append, List.mem_cons] at hmem
  have hle : m'.chars.length ≤ m.chars.length := by
    rcases hmem with hmem | rfl | hmem
    · have hfails := hbefore m' hmem
      rw [List.isPrefixOf_iff_prefix.mpr hl] at hfails
      cases hfails
    · exact Nat.le_refl _
    · exact (List.pairwise_cons.mp hsorted.2.1).1 m' hmem
  rcases length_lt_or_eq (List.prefix_of_prefix_length_le hl hm hle) with hlt | hchars
  · exact .inl hlt
  · exact .inr ⟨hchars, .inl (by rw [mark_of_chars hchars]; rfl)⟩

theorem mark_slash {m : Mark} (h : m.chars <+: '/' :: d :: l) (hd : d ≠ '=') :
    m.chars.length < 2 := by
  cases m <;> simp [Mark.chars] at h ⊢
  exact hd h.symm

theorem mark_point {m : Mark} (h : m.chars <+: '.' :: l) : m.chars.length < 2 := by
  cases m <;> simp [Mark.chars] at h ⊢

theorem prefix_fractionFloat (h : Rule.fractionFloat.Matches w) (hl : w <+: c :: l) :
    c = '.' ∧ l.takeWhile isDigit ≠ [] ∧
      w <+: '.' :: (l.takeWhile isDigit ++ floatTail (l.drop (l.takeWhile isDigit).length)) := by
  obtain ⟨_, rfl, hrest⟩ := matches_literal_seq.mp h
  obtain ⟨digits, tail, rfl, hdigits, htail⟩ := matches_seq.mp hrest
  obtain ⟨hne, hdigits⟩ := matches_several.mp hdigits
  obtain ⟨rfl, hbehind⟩ := List.cons_prefix_cons.mp hl
  refine ⟨rfl, ?_, (List.prefix_cons_inj _).mpr ?_⟩
  · have hprefix := prefix_takeWhile hdigits ((List.prefix_append digits tail).trans hbehind)
    exact fun hnil => hne (List.prefix_nil.mp (hnil ▸ hprefix))
  · exact prefix_run (s := digits) hdigits (head_of_floatTail htail)
      (fun _ => prefix_floatTail htail) hbehind

theorem lineComment_selects :
    Rule.lineComment.Selects ('/' :: '/' :: l.takeWhile (· ≠ '\n')) ('/' :: '/' :: l) := by
  refine selects_of_yields
    (matches_literal_seq.mpr ⟨_, rfl, matches_run.mpr (forall_takeWhile _ _)⟩)
    (by simpa using List.takeWhile_prefix _) fun r w hw hl => ?_
  have hfamily : ruleFamily r = .sign := ruleFamily_of_front hw hl
  cases r with
  | lineComment =>
    obtain ⟨t, rfl, ht⟩ := matches_literal_seq.mp hw
    have htake := prefix_takeWhile (matches_run.mp ht) (by simpa using hl)
    exact yields_of_front (by simpa using htake) rfl
  | blockComment =>
    obtain ⟨body, rfl, -⟩ := blockComment_iff.mp hw
    simp at hl
  | fractionFloat => exact absurd (prefix_fractionFloat hw hl).1 (by decide)
  | mark m =>
    obtain rfl := matches_literal.mp hw
    have hlt := mark_slash hl (by decide)
    exact .inl (by simp; omega)
  | _ => cases hfamily

theorem blockComment_selects (hw : Closes w) (v : List Char) :
    Rule.blockComment.Selects ('/' :: '*' :: w) ('/' :: '*' :: (w ++ v)) := by
  refine selects_of_yields (blockComment_iff.mpr ⟨w, rfl, hw⟩) (by simp) fun r w' hw' hl => ?_
  have hfamily : ruleFamily r = .sign := ruleFamily_of_front hw' hl
  cases r with
  | lineComment =>
    obtain ⟨t, rfl, -⟩ := matches_literal_seq.mp hw'
    simp at hl
  | blockComment =>
    obtain ⟨body, rfl, hbody⟩ := blockComment_iff.mp hw'
    have hl : body <+: w ++ v := by simpa using hl
    -- Both end with the first closing.
    obtain ⟨v', heq⟩ := hl
    have hlen := (heq ▸ pastClosing_append hbody v').symm.trans (pastClosing_append hw v)
    obtain ⟨rfl, -⟩ := List.append_inj heq (Option.some.inj hlen)
    exact .inr ⟨rfl, .inl rfl⟩
  | fractionFloat => exact absurd (prefix_fractionFloat hw' hl).1 (by decide)
  | mark m =>
    obtain rfl := matches_literal.mp hw'
    have hlt := mark_slash hl (by decide)
    exact .inl (by simp; omega)
  | _ => cases hfamily

theorem fractionFloat_selects (hne : l.takeWhile isDigit ≠ []) :
    Rule.fractionFloat.Selects
      ('.' :: l.takeWhile isDigit ++ floatTail (l.drop (l.takeWhile isDigit).length))
      ('.' :: l) := by
  have hmatches : Rule.fractionFloat.Matches
      ('.' :: l.takeWhile isDigit ++ floatTail (l.drop (l.takeWhile isDigit).length)) := by
    refine matches_literal_seq.mpr ⟨_, rfl, .seq ?_ (floatTail_matches _)⟩
    exact matches_several.mpr ⟨hne, forall_takeWhile _ _⟩
  refine selects_of_yields hmatches (isPrefix_fraction l) fun r w hw hl => ?_
  have hfamily : ruleFamily r = .sign := ruleFamily_of_front hw hl
  cases r with
  | lineComment =>
    obtain ⟨t, rfl, -⟩ := matches_literal_seq.mp hw
    simp at hl
  | blockComment =>
    obtain ⟨body, rfl, -⟩ := blockComment_iff.mp hw
    simp at hl
  | fractionFloat => exact yields_of_front (prefix_fractionFloat hw hl).2.2 rfl
  | mark m =>
    obtain rfl := matches_literal.mp hw
    have hlt := mark_point hl
    have hpos := List.length_pos_iff.mpr hne
    exact .inl (by simp; omega)
  | _ => cases hfamily

theorem mark_of_matches {r : Rule} (hsign : family c = .sign)
    (hcomment : ∀ rest, c = '/' → l ≠ '/' :: rest ∧ l ≠ '*' :: rest)
    (hfraction : c = '.' → l.takeWhile isDigit = []) (hw : r.Matches w) (hl : w <+: c :: l) :
    ∃ m, r = .mark m ∧ w = m.chars := by
  have hfamily : ruleFamily r = .sign := (ruleFamily_of_front hw hl).trans hsign
  cases r with
  | lineComment =>
    obtain ⟨t, rfl, -⟩ := matches_literal_seq.mp hw
    obtain ⟨hslash, v, hv⟩ := List.cons_prefix_cons.mp hl
    exact absurd hv.symm (hcomment _ hslash.symm).1
  | blockComment =>
    obtain ⟨body, rfl, -⟩ := blockComment_iff.mp hw
    obtain ⟨hslash, v, hv⟩ := List.cons_prefix_cons.mp hl
    exact absurd hv.symm (hcomment _ hslash.symm).2
  | fractionFloat =>
    obtain ⟨hpoint, hne, -⟩ := prefix_fractionFloat hw hl
    exact absurd (hfraction hpoint) hne
  | mark m => exact ⟨m, rfl, matches_literal.mp hw⟩
  | _ => cases hfamily

/-- What the scanner finds at the front of a text is what the rules say. -/
inductive Piece.Right (l : List Char) : Piece → Prop where
  | skip {r : Rule} {text : List Char} :
    r.Selects text l → r.kind? text = none → ¬ Unclosed l → Piece.Right l (.skip text.length)
  | token {r : Rule} {text : List Char} {kind : TokenKind} :
    r.Selects text l → r.kind? text = some kind → ¬ Unclosed l → Piece.Right l (.token kind text)
  | bad {text : List Char} : Stuck l → Piece.Right l (.bad text)

theorem not_unclosed (h : ∀ rest, c = '/' → l ≠ '*' :: rest) : ¬ Unclosed (c :: l) := by
  rintro ⟨hopen, -⟩
  obtain ⟨hslash, v, hv⟩ := List.cons_prefix_cons.mp hopen
  exact h v hslash.symm hv.symm

theorem mark_selects {m : Mark} (hsign : family c = .sign)
    (hcomment : ∀ rest, c = '/' → l ≠ '/' :: rest ∧ l ≠ '*' :: rest)
    (hfraction : c = '.' → l.takeWhile isDigit = [])
    (hfind : Mark.all.find? (fun m => m.chars.isPrefixOf (c :: l)) = some m) :
    (Rule.mark m).Selects m.chars (c :: l) := by
  refine selects_of_yields (.literal _) (mark_token hfind).2 fun r w hw hl => ?_
  obtain ⟨m', rfl, rfl⟩ := mark_of_matches hsign hcomment hfraction hw hl
  exact mark_yields hfind hl

theorem stuck_of_find? (hsign : family c = .sign)
    (hcomment : ∀ rest, c = '/' → l ≠ '/' :: rest ∧ l ≠ '*' :: rest)
    (hfraction : c = '.' → l.takeWhile isDigit = [])
    (hfind : Mark.all.find? (fun m => m.chars.isPrefixOf (c :: l)) = none) : Stuck (c :: l) := by
  refine .inl fun r w hw hl => ?_
  obtain ⟨m', rfl, rfl⟩ := mark_of_matches hsign hcomment hfraction hw hl
  exact List.find?_eq_none.mp hfind m' (mem_all m') (List.isPrefixOf_iff_prefix.mpr hl)

theorem unclosed_of_pastClosing (h : pastClosing l = none) : Unclosed ('/' :: '*' :: l) := by
  refine ⟨by simp, fun text htext hl => ?_⟩
  obtain ⟨body, rfl, hbody⟩ := blockComment_iff.mp htext
  obtain ⟨v, rfl⟩ : body <+: l := by simpa using hl
  rw [pastClosing_append hbody v] at h
  cases h

theorem piece_right (c : Char) (l : List Char) : (piece c l).Right (c :: l) := by
  unfold piece
  split
  · rename_i hc
    have hsel := blanks_selects (l := l) hc
    rw [Nat.add_comm]
    refine .skip hsel rfl (not_unclosed ?_)
    rintro rest rfl
    exact absurd hc (by decide)
  split
  · rename_i hblank hc
    subst hc
    rw [Nat.add_comm]
    exact .skip directive_selects rfl (not_unclosed fun _ h => absurd h (by decide))
  split
  · rename_i hblank hhash hc
    obtain ⟨r, hsel, hkind⟩ := word_selects (l := l) hc
    refine .token hsel hkind (not_unclosed ?_)
    rintro rest rfl
    exact absurd hc (by decide)
  split
  · rename_i hblank hhash hword hc
    obtain ⟨r, hsel, hkind⟩ := number_selects (l := l) hc
    refine .token hsel hkind (not_unclosed ?_)
    rintro rest rfl
    exact absurd hc (by decide)
  rename_i hblank hhash hword hdigit
  -- What is left starts with a sign: a comment, a fraction or a mark.
  have hsign : family c = .sign := by simp [family, hblank, hhash, hword, hdigit]
  clear hblank hhash hword hdigit
  split
  · rw [Nat.add_comm]
    exact .skip lineComment_selects rfl (not_unclosed fun _ _ h => by cases h)
  · rename_i rest
    cases hclosing : pastClosing rest with
    | some n =>
      obtain ⟨body, v, rfl, rfl, hbody⟩ := exists_closes hclosing
      have hsel := blockComment_selects hbody v
      dsimp only
      rw [Nat.add_comm]
      exact .skip hsel rfl fun hopen => hopen.2 _ hsel.applies hsel.front
    | none => exact .bad (.inr (unclosed_of_pastClosing hclosing))
  · rename_i hline hblock
    have hcomment : ∀ rest, c = '/' → l ≠ '/' :: rest ∧ l ≠ '*' :: rest :=
      fun rest hc => ⟨fun hl => hline rest hc hl, fun hl => hblock rest hc hl⟩
    have hclosed : ¬ Unclosed (c :: l) := not_unclosed fun rest hc => (hcomment rest hc).2
    dsimp only
    by_cases hpoint : c = '.' ∧ l.takeWhile isDigit ≠ []
    · obtain ⟨rfl, hne⟩ := hpoint
      rw [if_pos rfl, if_pos (by simpa using hne)]
      exact .token (fractionFloat_selects hne) rfl hclosed
    · have hfraction : c = '.' → l.takeWhile isDigit = [] := by simpa using hpoint
      have hnil : (if c = '.' then l.takeWhile isDigit else []) = [] := by simpa using hfraction
      rw [hnil, if_neg (by simp)]
      cases hfind : Mark.all.find? (fun m => m.chars.isPrefixOf (c :: l)) with
      | some m => exact .token (mark_selects hsign hcomment hfraction hfind) rfl hclosed
      | none => exact .bad (stuck_of_find? hsign hcomment hfraction hfind)

end Scan
end Shader
