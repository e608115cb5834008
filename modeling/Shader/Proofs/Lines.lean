import Mathlib.Data.Prod.Lex
import Shader.Analysis
import Shader.Proofs.Spans

/-! Lines and columns. The line of an offset counts the newlines in front of it, and its column the
bytes from the start of that line. Both come from one walk over the text, and together they order
offsets as their numbers do. -/

namespace Shader

open Scan

/-- The offsets of the newlines in a text that starts at byte `offset`, from front to back. -/
def newlineOffsets : List Char → (offset : Nat) → List Nat
  | [], _ => []
  | c :: cs, offset =>
    if c = '\n' then offset :: newlineOffsets cs (offset + 1)
    else newlineOffsets cs (offset + c.utf8Size)

def newlines (source : String) : List Nat :=
  newlineOffsets source.toList 0

/-- Where the lines of a source start: the first at its front, any other just behind a newline. -/
def lineStarts (source : String) : List Nat :=
  0 :: (newlines source).map (· + 1)

/-- The offset lies in the line and at the column, both counted from 1. -/
structure PlacedAt (source : String) (offset : Nat) (place : Nat × Nat) : Prop where
  line_pos : 1 ≤ place.1
  column_pos : 1 ≤ place.2
  line : (newlines source).countP (· < offset) = place.1 - 1
  column : ∃ start, (lineStarts source)[place.1 - 1]? = some start ∧ offset = start + place.2 - 1

def Span.place (source : String) (s : Span) : Nat ×ₗ Nat :=
  toLex (s.lineColumn source)

variable {source : String} {s t : Span}

theorem newlineOffsets_append (a b : List Char) (offset : Nat) :
    newlineOffsets (a ++ b) offset =
      newlineOffsets a offset ++ newlineOffsets b (offset + byteLength a) := by
  induction a generalizing offset with
  | nil => rfl
  | cons c a ih =>
    rw [List.cons_append, newlineOffsets, newlineOffsets, byteLength_cons, ← Nat.add_assoc]
    by_cases hc : c = '\n'
    · subst hc
      rw [if_pos rfl, if_pos rfl, ih, List.cons_append]
      rfl
    · rw [if_neg hc, if_neg hc, ih]

theorem length_newlineOffsets (l : List Char) (offset : Nat) :
    (newlineOffsets l offset).length = l.count '\n' := by
  induction l generalizing offset with
  | nil => rfl
  | cons c l ih =>
    rw [newlineOffsets]
    by_cases hc : c = '\n'
    · subst hc
      rw [if_pos rfl, List.length_cons, ih, List.count_cons_self]
    · rw [if_neg hc, ih, List.count_cons_of_ne hc]

theorem newlineOffsets_bounds {l : List Char} {offset p : Nat} (h : p ∈ newlineOffsets l offset) :
    offset ≤ p ∧ p < offset + byteLength l := by
  induction l generalizing offset with
  | nil => cases h
  | cons c l ih =>
    have hpos := c.utf8Size_pos
    rw [newlineOffsets] at h
    rw [byteLength_cons]
    by_cases hc : c = '\n'
    · subst hc
      have hsize : '\n'.utf8Size = 1 := rfl
      rw [if_pos rfl] at h
      rcases List.mem_cons.mp h with rfl | h
      · omega
      · have hp := ih h
        omega
    · rw [if_neg hc] at h
      have hp := ih h
      omega

theorem newlines_eq {lines part after : List Char} (htext : source.toList = lines ++ part ++ after)
    (hpart : '\n' ∉ part) : newlines source =
      newlineOffsets lines 0 ++ newlineOffsets after (byteLength (lines ++ part)) := by
  have hnone : newlineOffsets part (byteLength lines) = [] :=
    List.length_eq_zero_iff.mp (by rw [length_newlineOffsets, List.count_eq_zero_of_not_mem hpart])
  rw [newlines, htext, newlineOffsets_append, newlineOffsets_append, Nat.zero_add, Nat.zero_add,
    hnone, List.append_nil]

theorem countP_newlineOffsets {before : List Char} {offset : Nat}
    (h : byteLength before ≤ offset) (after : List Char) :
    (newlineOffsets before 0 ++ newlineOffsets after offset).countP (· < offset) =
      before.count '\n' := by
  have hbefore : (newlineOffsets before 0).countP (· < offset) = before.count '\n' := by
    rw [← length_newlineOffsets before 0]
    refine List.countP_eq_length.mpr fun p hp => ?_
    have hbounds := newlineOffsets_bounds hp
    exact decide_eq_true (by omega)
  have hafter : (newlineOffsets after offset).countP (· < offset) = 0 := by
    refine List.countP_eq_zero.mpr fun p hp => ?_
    have hbounds := newlineOffsets_bounds hp
    simpa using hbounds.1
  rw [List.countP_append, hbefore, hafter, Nat.add_zero]

theorem getElem?_lineStart {lines : List Char} (h : lines = [] ∨ lines.getLast? = some '\n')
    (later : List Nat) :
    (0 :: (newlineOffsets lines 0 ++ later).map (· + 1))[lines.count '\n']? =
      some (byteLength lines) := by
  rcases h with rfl | hlast
  · rfl
  · obtain ⟨front, rfl⟩ := List.getLast?_eq_some_iff.mp hlast
    have hoffsets : newlineOffsets (front ++ ['\n']) 0 =
        newlineOffsets front 0 ++ [byteLength front] := by
      rw [newlineOffsets_append, Nat.zero_add]
      rfl
    rw [hoffsets, List.count_append, List.count_singleton_self, List.getElem?_cons_succ,
      List.getElem?_map, List.append_assoc, ← length_newlineOffsets front 0,
      List.getElem?_append_right (Nat.le_refl _), Nat.sub_self, byteLength_append]
    rfl

theorem IsBoundary.placedAt (h : IsBoundary source s.start) :
    PlacedAt source s.start (s.lineColumn source) := by
  obtain ⟨-, lines, part, after, htext, hstart, hlines, hpart, hplace⟩ := h.located
  have hnewlines := newlines_eq htext hpart
  rw [← hstart] at hnewlines
  rw [byteLength_append] at hstart
  rw [hplace]
  refine ⟨Nat.le_add_left _ _, Nat.le_add_left _ _, ?_, byteLength lines, ?_, hstart⟩
  · rw [hnewlines]
    exact countP_newlineOffsets (by omega) after
  · rw [lineStarts, hnewlines]
    exact getElem?_lineStart hlines _

/-- The same newlines in front mean the same line, and then the columns differ as the offsets do. -/
theorem PlacedAt.lt {o o' : Nat} {p p' : Nat × Nat} (h : PlacedAt source o p)
    (h' : PlacedAt source o' p') (hlt : o < o') : toLex p < toLex p' := by
  have hle : p.1 - 1 ≤ p'.1 - 1 := by
    rw [← h.line, ← h'.line]
    refine List.countP_mono_left fun n _ hn => ?_
    exact decide_eq_true ((of_decide_eq_true hn).trans hlt)
  have hline := h.line_pos
  have hline' := h'.line_pos
  rw [Prod.Lex.toLex_lt_toLex]
  rcases Nat.lt_or_eq_of_le hle with hline_lt | heq
  · exact .inl (by omega)
  -- One line has one start.
  · obtain ⟨start, hstart, hoffset⟩ := h.column
    obtain ⟨start', hstart', hoffset'⟩ := h'.column
    rw [heq, hstart'] at hstart
    obtain rfl := Option.some.inj hstart
    exact .inr ⟨by omega, by omega⟩

theorem place_lt (hs : IsBoundary source s.start) (ht : IsBoundary source t.start)
    (hlt : s.start < t.start) : s.place source < t.place source :=
  hs.placedAt.lt ht.placedAt hlt

theorem place_le_iff (hs : IsBoundary source s.start) (ht : IsBoundary source t.start) :
    s.place source ≤ t.place source ↔ s.start ≤ t.start := by
  constructor
  · intro hle
    by_contra hlt
    exact absurd hle (not_le_of_gt (place_lt ht hs (Nat.lt_of_not_le hlt)))
  · intro hle
    rcases Nat.lt_or_eq_of_le hle with hlt | heq
    · exact (place_lt hs ht hlt).le
    · rw [Span.place, Span.place, Span.lineColumn, heq]
      rfl

theorem sortProblems_eq {problems : List Diagnostic}
    (h : ∀ d ∈ problems, IsBoundary source d.span.start) :
    sortProblems problems =
      problems.mergeSort fun d e => d.span.place source ≤ e.span.place source := by
  -- A sort asks only how elements of the list compare, and at boundaries both orders agree.
  have hmap := List.map_mergeSort (l := problems) (f := id)
    (r := fun d e => decide (d.span.start ≤ e.span.start))
    (s := fun d e => decide (d.span.place source ≤ e.span.place source))
    fun d hd e he => decide_eq_decide.mpr (place_le_iff (h d hd) (h e he)).symm
  rwa [List.map_id, List.map_id] at hmap

theorem pairwise_mergeSort_place (source : String) (problems : List Diagnostic) :
    (problems.mergeSort fun d e => d.span.place source ≤ e.span.place source).Pairwise
      fun d e => d.span.place source ≤ e.span.place source := by
  refine (List.pairwise_mergeSort ?_ ?_ problems).imp of_decide_eq_true
  · exact fun d e f hde hef =>
      decide_eq_true ((of_decide_eq_true hde).trans (of_decide_eq_true hef))
  · exact fun d e => by simpa using le_total (d.span.place source) (e.span.place source)

theorem parse_starts {unit : TranslationUnit} (h : parse source = .ok unit) :
    ∀ d ∈ unit, d.outline.Starts (IsBoundary source) := by
  obtain ⟨tokens, htokens, hparse⟩ := parse_eq_ok h
  have hmunched := munched_of_tokenize htokens
  obtain ⟨ts, hts, hordered, hrow⟩ := parseTokens_row hmunched.endsInEof hmunched.ordered hparse
  intro d hd
  have hsound := (hrow.sound hts hordered).1 _ (List.mem_map_of_mem hd)
  exact hsound.1.starts fun offset hedge => hmunched.boundary hedge

/-- Everything that is reported starts at a boundary. -/
theorem problems_boundary {unit : TranslationUnit} (h : parse source = .ok unit) (stage : Stage) :
    ∀ d ∈ (bind unit).problems ++ (check stage (bind unit).unit).problems,
      IsBoundary source d.span.start := by
  have hstarts := parse_starts h
  obtain ⟨hkept, hbind⟩ := bind_locates hstarts
  have hbound : ∀ d ∈ (bind unit).unit, d.outline.Starts (IsBoundary source) := by
    intro d hd
    have hmem : d.outline ∈ unit.map TopLevel.outline := hkept ▸ List.mem_map_of_mem hd
    obtain ⟨d', hd', heq⟩ := List.mem_map.mp hmem
    exact heq ▸ hstarts d' hd'
  intro d hd
  rcases List.mem_append.mp hd with hd | hd
  · exact hbind d hd
  · exact (check_locates stage hbound).2 d hd

/-- As many newlines stand in front of a boundary as full lines do, and it lies one byte less than
its column behind the start of its line. So places come in the order of their offsets, and the
problems of a source, which are sorted by offset, stand as a stable sort by line and column would
put them. -/
theorem lines_and_columns_locate (source : String) :
    (∀ s : Span, IsBoundary source s.start → PlacedAt source s.start (s.lineColumn source)) ∧
    (∀ s t : Span, IsBoundary source s.start → IsBoundary source t.start → s.start < t.start →
      s.place source < t.place source) ∧
    ∀ stage a, analyze source stage = .ok a →
      a.problems.Pairwise (fun d e => d.span.place source ≤ e.span.place source) ∧
      ∃ unit, parse source = .ok unit ∧
        a.problems = ((bind unit).problems ++ (check stage (bind unit).unit).problems).mergeSort
          fun d e => d.span.place source ≤ e.span.place source := by
  refine ⟨fun s hs => hs.placedAt, fun s t hs ht => place_lt hs ht, fun stage a h => ?_⟩
  obtain ⟨unit, hparse, rfl⟩ := analyze_eq_ok h
  have hsorted : (analyzeUnit unit stage).problems = _ :=
    sortProblems_eq (problems_boundary hparse stage)
  refine ⟨?_, unit, hparse, hsorted⟩
  rw [hsorted]
  exact pairwise_mergeSort_place source _

/-- A character of two bytes, a newline and a name that is declared again in the second line. -/
def redeclaredSource : String :=
  "const int a,/*é*/\na;"

def redeclaredTokens : List Token :=
  [⟨.keyword .constWord, ⟨0, 5⟩⟩, ⟨.identifier "int", ⟨6, 9⟩⟩, ⟨.identifier "a", ⟨10, 11⟩⟩,
    ⟨.mark .comma, ⟨11, 12⟩⟩, ⟨.identifier "a", ⟨19, 20⟩⟩, ⟨.mark .semi, ⟨20, 21⟩⟩,
    ⟨.eof, ⟨21, 21⟩⟩]

def redeclaredUnit : TranslationUnit :=
  [.declaration (.vars ⟨some .constant, none, false, none, [], ⟨0, 5⟩⟩
    (.basic (.scalar .int) ⟨none, ⟨6, 9⟩, none⟩)
    [⟨"a", none, none, ⟨10, 11⟩, none⟩, ⟨"a", none, none, ⟨19, 20⟩, none⟩] ⟨0, 21⟩)]

/-- The newline belongs to the line that it ends. What binding finds in the second line comes behind
what checking finds in the first. -/
theorem lines_and_columns_locate_redeclared :
    PlacedAt redeclaredSource 18 (1, 19) ∧ PlacedAt redeclaredSource 21 (2, 3) ∧
    Span.place redeclaredSource ⟨18, 19⟩ < Span.place redeclaredSource ⟨21, 21⟩ ∧
    (bind redeclaredUnit).problems.map (fun d => d.span.start) = [19] ∧
    (check .any (bind redeclaredUnit).unit).problems.map (fun d => d.span.start) = [10, 19] ∧
    (analyzeUnit redeclaredUnit .any).problems.Pairwise fun d e =>
      d.span.place redeclaredSource ≤ e.span.place redeclaredSource := by
  have htokens : tokenize redeclaredSource = .ok redeclaredTokens := by rfl
  have hparse : parse redeclaredSource = .ok redeclaredUnit := by
    rw [parse, htokens]
    rfl
  have hnewline : IsBoundary redeclaredSource 18 :=
    ⟨"const int a,/*é*/".toList, "\na;".toList, by rfl, by rfl⟩
  have hend : IsBoundary redeclaredSource 21 := ⟨redeclaredSource.toList, [], by rfl, by rfl⟩
  obtain ⟨hplaced, hlt, hsorted⟩ := lines_and_columns_locate redeclaredSource
  have hfirst : PlacedAt redeclaredSource 18 (1, 19) := hplaced ⟨18, 19⟩ hnewline
  have hlast : PlacedAt redeclaredSource 21 (2, 3) := hplaced ⟨21, 21⟩ hend
  have hanalyze : analyze redeclaredSource .any = .ok (analyzeUnit redeclaredUnit .any) := by
    rw [analyze, hparse]
    rfl
  obtain ⟨hproblems, -⟩ := hsorted .any _ hanalyze
  exact ⟨hfirst, hlast, hlt ⟨18, 19⟩ ⟨21, 21⟩ hnewline hend (by decide), by rfl, by rfl, hproblems⟩

end Shader
