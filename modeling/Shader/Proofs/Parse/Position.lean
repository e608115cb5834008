import Shader.Proofs.Parse.Finish

/-! Positions in a token list. A cursor stands at an index of the list, and whatever is looked up
around it is looked up at an index of the list too. So a parser never leaves the list; it goes
forward, up to the end of the source and not beyond it. -/

namespace Shader

/-- The last token marks the end of the source, and no other one does. -/
def EndsInEof (tokens : List Token) : Prop :=
  ∃ ts t, tokens = ts ++ [t] ∧ t.kind = .eof ∧ ∀ u ∈ ts, u.kind ≠ .eof

/-- What a search for a closing bracket comes to. -/
inductive BracketSearch where
  | closed (index : Nat)
  | unclosed
  /-- A bracket closes where none is open, and the count of open ones would fall below zero. -/
  | underflow
deriving DecidableEq, Repr

namespace BracketSearch

def index? : BracketSearch → Option Nat
  | closed i => some i
  | unclosed | underflow => none

/-- Counts the brackets that are open, from the token with the given index on. -/
def scan : (depth index : Nat) → List Token → BracketSearch
  | _, _, [] => unclosed
  | depth, index, t :: ts =>
    if t.kind = .mark .lBracket then scan (depth + 1) (index + 1) ts
    else if t.kind = .mark .rBracket then
      if depth = 0 then underflow
      else if depth = 1 then closed index
      else scan (depth - 1) (index + 1) ts
    else if t.kind = .mark .semi || t.kind = .eof then unclosed
    else scan depth (index + 1) ts

theorem drop_cons {r : BracketSearch} {index : Nat} (t : Token) (ts : List Token)
    (h : ∀ close, r = closed close → index + 1 ≤ close) :
    (r.index?.map fun close => ts.drop (close + 1 - (index + 1))) =
      r.index?.map fun close => (t :: ts).drop (close + 1 - index) := by
  cases r with
  | closed close =>
    have hle := h close rfl
    simp only [index?, Option.map_some]
    rw [show close + 1 - index = close + 1 - (index + 1) + 1 by omega, List.drop_succ_cons]
  | unclosed | underflow => rfl

/-- Where brackets are open, the count goes down to zero and no further, and the tokens behind the
last closing one are those that follow its index. -/
theorem scan_of_open (depth index : Nat) (ts : List Token) :
    scan (depth + 1) index ts ≠ underflow ∧
      (∀ close, scan (depth + 1) index ts = closed close → index ≤ close) ∧
      Cursor.afterClosing depth ts =
        (scan (depth + 1) index ts).index?.map fun close => ts.drop (close + 1 - index) := by
  induction ts generalizing depth index with
  | nil => simp [scan, Cursor.afterClosing, index?]
  | cons t ts ih =>
    -- A token that leaves `d + 1` brackets open.
    have step {d : Nat} (hscan : scan (depth + 1) index (t :: ts) = scan (d + 1) (index + 1) ts)
        (hafter : Cursor.afterClosing depth (t :: ts) = Cursor.afterClosing d ts) :
        scan (depth + 1) index (t :: ts) ≠ underflow ∧
          (∀ close, scan (depth + 1) index (t :: ts) = closed close → index ≤ close) ∧
          Cursor.afterClosing depth (t :: ts) =
            (scan (depth + 1) index (t :: ts)).index?.map fun close =>
              (t :: ts).drop (close + 1 - index) := by
      obtain ⟨hne, hle, heq⟩ := ih d (index + 1)
      rw [hscan, hafter]
      refine ⟨hne, fun close hclose => ?_, heq.trans (drop_cons t ts hle)⟩
      have := hle close hclose
      omega
    by_cases hopen : t.kind = .mark .lBracket
    · exact step (d := depth + 1) (by simp [scan, hopen]) (afterClosing_open hopen depth)
    by_cases hclose : t.kind = .mark .rBracket
    · cases depth with
      | zero => simp [scan, hclose, Cursor.afterClosing, index?]
      | succ d => exact step (d := d) (by simp [scan, hclose]) (afterClosing_close hclose d)
    by_cases hstop : t.kind = .mark .semi ∨ t.kind = .eof
    · have hscan : scan (depth + 1) index (t :: ts) = unclosed := by
        simp [scan, hopen, hclose, hstop]
      rw [hscan]
      refine ⟨by simp, by simp, ?_⟩
      cases depth <;> simp [Cursor.afterClosing, hopen, hclose, hstop, index?]
    · exact step (d := depth) (by simp [scan, hopen, hclose, hstop])
        (by cases depth <;> simp [Cursor.afterClosing, hopen, hclose, hstop])

end BracketSearch

/-- The search for the bracket that closes the one with index `opening`. -/
def bracketSearch (tokens : List Token) (opening : Nat) : BracketSearch :=
  .scan 0 opening (tokens.drop opening)

namespace Cursor

/-- The cursor stands at the token with index `pos`, and the token in front of it was taken last. -/
structure At (tokens : List Token) (pos : Nat) (c : Cursor) : Prop where
  ahead : c.tokens = tokens.drop pos
  behind : tokens[pos - 1]?.map Token.span = some c.before

variable {tokens ts : List Token} {pos : Nat} {c c' : Cursor}

theorem at_ofTokens (t : Token) (ts : List Token) : (ofTokens t ts).At (t :: ts) 0 :=
  ⟨rfl, rfl⟩

namespace At

theorem token (h : c.At tokens pos) : tokens[pos]? = some c.token := by
  rw [← List.head?_drop, ← h.ahead]
  rfl

theorem lt (h : c.At tokens pos) : pos < tokens.length :=
  (List.getElem?_eq_some_iff.mp h.token).1

theorem rest (h : c.At tokens pos) : c.rest = tokens.drop (pos + 1) := by
  rw [← List.tail_drop, ← h.ahead]
  rfl

theorem next_of_rest (h : c.At tokens pos) (hrest : c.rest ≠ []) : c.next.At tokens (pos + 1) := by
  obtain ⟨t, ts, heq⟩ := List.exists_cons_of_ne_nil hrest
  have hnext : c.next = ⟨c.token.span, t, ts⟩ := by
    unfold next
    rw [heq]
  rw [hnext]
  exact ⟨by rw [← h.rest, heq]; rfl, by simp [h.token]⟩

theorem next (h : c.At tokens pos) : c.next.At tokens (min (pos + 1) (tokens.length - 1)) := by
  have hlt := h.lt
  by_cases hrest : c.rest = []
  · rw [Cursor.next_of_rest hrest]
    have hlength := congrArg List.length h.rest
    simp only [hrest, List.length_nil, List.length_drop] at hlength
    rwa [show min (pos + 1) (tokens.length - 1) = pos by omega]
  · have hlength := congrArg List.length h.rest
    have := List.length_pos_iff.mpr hrest
    simp only [List.length_drop] at hlength
    rw [show min (pos + 1) (tokens.length - 1) = pos + 1 by omega]
    exact h.next_of_rest hrest

theorem within (h : c.At tokens pos) (hend : EndsInEof tokens) : c.Within tokens := by
  obtain ⟨ts, t, rfl, heof, -⟩ := hend
  refine ⟨⟨t, ?_, heof⟩, h.ahead ▸ List.drop_suffix _ _⟩
  have hlt := h.lt
  rw [h.ahead, List.getLast?_drop, if_neg (by omega)]
  simp

theorem takes (h : c.At tokens pos) (hend : EndsInEof tokens) (hts : c.Takes ts c') :
    c'.At tokens (pos + ts.length) ∧
      ∀ i, pos ≤ i → i < pos + ts.length → tokens[i]?.map Token.kind ≠ some .eof := by
  induction hts generalizing pos with
  | nil => exact ⟨h, fun i hle hlt => absurd hlt (by simpa using hle)⟩
  | @cons c c' ts hkind _ ih =>
    have hnext := h.next_of_rest ((h.within hend).ended.rest_ne_nil hkind)
    obtain ⟨hat, hnone⟩ := ih hnext
    rw [List.length_cons, show pos + (ts.length + 1) = pos + 1 + ts.length by omega]
    refine ⟨hat, fun i hle hlt => ?_⟩
    by_cases hi : i = pos
    · rw [hi, h.token]
      exact fun heq => hkind (Option.some.inj heq)
    · exact hnone i (by omega) hlt

theorem behindBrackets (h : c.At tokens pos) (hend : EndsInEof tokens)
    (hopen : c.nextKind = .mark .lBracket) :
    bracketSearch tokens (pos + 1) ≠ .underflow ∧
      c.behindBrackets? = (bracketSearch tokens (pos + 1)).index?.bind fun close =>
        tokens[close + 1]?.map Token.kind := by
  have hrest : c.rest ≠ [] := by
    intro hnil
    have hkind : c.kind = .mark .lBracket := by rwa [nextKind, Cursor.next_of_rest hnil] at hopen
    exact (h.within hend).ended.rest_ne_nil (by simp [hkind]) hnil
  -- The search starts behind the opening bracket, with one bracket open.
  obtain ⟨t, ts, heq⟩ := List.exists_cons_of_ne_nil hrest
  have hkind : t.kind = .mark .lBracket := by
    unfold nextKind Cursor.next at hopen
    rw [heq] at hopen
    exact hopen
  have hdrop : tokens.drop (pos + 1) = t :: ts := by rw [← h.rest, heq]
  have hsearch : bracketSearch tokens (pos + 1) = .scan 1 (pos + 2) ts := by
    rw [bracketSearch, hdrop]
    simp [BracketSearch.scan, hkind]
  obtain ⟨hne, hle, hafter⟩ := BracketSearch.scan_of_open 0 (pos + 2) ts
  rw [hsearch]
  refine ⟨hne, ?_⟩
  unfold behindBrackets?
  simp only [heq, hkind, if_true, hafter]
  cases hscan : BracketSearch.scan 1 (pos + 2) ts with
  | unclosed | underflow => rfl
  | closed close =>
    have hdrop' : ts.drop (close + 1 - (pos + 2)) = tokens.drop (close + 1) := by
      have hts : ts = tokens.drop (pos + 2) := by
        rw [show pos + 2 = pos + 1 + 1 from rfl, ← List.tail_drop, hdrop, List.tail_cons]
      have := hle close hscan
      rw [hts, List.drop_drop, show pos + 2 + (close + 1 - (pos + 2)) = close + 1 by omega]
    simp only [BracketSearch.index?, Option.map_some, Option.bind_some, hdrop', ← List.head?_drop]
    cases tokens.drop (close + 1) with
    | nil => rfl
    | cons u us => rfl

end At

end Cursor

namespace Parse

/-- Where the parser succeeds it stands further on, and what it took was not the end of the
source. -/
def Progresses {α : Type} (tokens : List Token) (p : Parser α) : Prop :=
  ∀ pos c r c', c.At tokens pos → p c = .ok (r, c') →
    ∃ stop, pos < stop ∧ c'.At tokens stop ∧
      ∀ i, pos ≤ i → i < stop → tokens[i]?.map Token.kind ≠ some .eof

theorem progresses_of_advances {α : Type} {tokens : List Token} {p : Parser α}
    (hend : EndsInEof tokens)
    (h : ∀ c r c', c.Ended → p c = .ok (r, c') → ∃ os, Advances True c os c') :
    Progresses tokens p := by
  intro pos c r c' hc hrun
  obtain ⟨os, ts, hne, hts, -⟩ := h c r c' (hc.within hend).ended hrun
  obtain ⟨hat, hnone⟩ := hc.takes hend hts
  have := List.length_pos_iff.mpr hne
  exact ⟨pos + ts.length, by omega, hat, hnone⟩

/-- The fuel that is given is enough. -/
theorem parseTokens_settles {tokens : List Token} (h : EndsInEof tokens) :
    (∃ unit, parseTokens tokens = .ok unit) ∨
      ∃ e, parseTokens tokens = .error e ∧ e.problem ≠ .unfinished ∧
        ∃ t ∈ tokens, e.span = t.span := by
  cases tokens with
  | nil => exact .inl ⟨[], rfl⟩
  | cons t ts =>
    have hc := (Cursor.at_ofTokens t ts).within h
    have hsettles : Settles (t :: ts) (topLevels (fuelFor ts.length)) (.ofTokens t ts) := by
      refine settles_topLevels hc ?_
      show 32 * ts.length + 2 ≤ 32 * (ts.length + 1)
      omega
    cases hrun : topLevels (fuelFor ts.length) (.ofTokens t ts) with
    | ok r => exact .inl ⟨r.1, by simp only [parseTokens, StateT.run', hrun]; rfl⟩
    | error e =>
      exact .inr ⟨e, by simp only [parseTokens, StateT.run', hrun]; rfl, hsettles e hrun⟩

end Parse

/-- On tokens that end in their only end of the source the parser gives a tree or a complaint about
one of the tokens, and its fuel is never used up. Every place that it looks at is an index of the
list: the cursor starts at the first one, a step leads to the next one or stays at the last one, and
the count of open brackets does not fall below zero. Whatever is read takes at least one token and
never the end of the source. -/
theorem parseTokens_total {tokens : List Token} (h : EndsInEof tokens) :
    ((∃ unit, parseTokens tokens = .ok unit) ∨
      ∃ e, parseTokens tokens = .error e ∧ e.problem ≠ .unfinished ∧
        ∃ t ∈ tokens, e.span = t.span) ∧
    (∀ t ts, tokens = t :: ts → (Cursor.ofTokens t ts).At tokens 0) ∧
    (∀ pos (c : Cursor), c.At tokens pos →
      tokens[pos]? = some c.token ∧ tokens[pos - 1]?.map Token.span = some c.before ∧
      c.next.At tokens (min (pos + 1) (tokens.length - 1)) ∧
      (c.nextKind = .mark .lBracket →
        bracketSearch tokens (pos + 1) ≠ .underflow ∧
        c.behindBrackets? = (bracketSearch tokens (pos + 1)).index?.bind fun close =>
          tokens[close + 1]?.map Token.kind)) ∧
    ∀ n, Parse.Progresses tokens (Parse.topLevel n) ∧
      Parse.Progresses tokens (Parse.localDeclaration n) ∧
      Parse.Progresses tokens (Parse.statement n) ∧
      Parse.Progresses tokens (Parse.typeSpec n) ∧
      Parse.Progresses tokens (Parse.expression n) := by
  refine ⟨?_, ?_, fun pos c hc => ⟨hc.token, hc.behind, hc.next, hc.behindBrackets h⟩, fun n =>
    ⟨?_, ?_, ?_, ?_, ?_⟩⟩
  · exact Parse.parseTokens_settles h
  · rintro t ts rfl
    exact Cursor.at_ofTokens t ts
  · exact Parse.progresses_of_advances h fun c d c' hc hd =>
      ⟨_, Parse.advances_topLevel (fun _ => hc) hd⟩
  · exact Parse.progresses_of_advances h fun c d c' hc hd =>
      ⟨_, (Parse.advances_declaration (fun _ => hc) (Parse.head_of_localDeclaration hd)).1⟩
  · exact Parse.progresses_of_advances h fun c s c' hc hs =>
      ⟨_, (Parse.statementLayouts True n).statement (fun _ => hc) hs⟩
  · exact Parse.progresses_of_advances h fun c spec c' hc hspec =>
      ⟨_, (Parse.typeLayouts True n).typeSpec (fun _ => hc) hspec⟩
  · exact Parse.progresses_of_advances h fun c e c' hc he =>
      ⟨_, Parse.advances_expression (fun _ => hc) he⟩

/-- `T[b[0] x;` -/
def unclosedBracket : List Token :=
  [⟨.identifier "T", ⟨0, 1⟩⟩, ⟨.mark .lBracket, ⟨1, 2⟩⟩, ⟨.identifier "b", ⟨2, 3⟩⟩,
    ⟨.mark .lBracket, ⟨3, 4⟩⟩, ⟨.intLiteral "0", ⟨4, 5⟩⟩, ⟨.mark .rBracket, ⟨5, 6⟩⟩,
    ⟨.identifier "x", ⟨7, 8⟩⟩, ⟨.mark .semi, ⟨8, 9⟩⟩, ⟨.eof, ⟨9, 9⟩⟩]

theorem parseTokens_total_unclosed :
    EndsInEof unclosedBracket ∧
      (∃ e, parseTokens unclosedBracket = .error e ∧ e.problem ≠ .unfinished ∧
        ∃ t ∈ unclosedBracket, e.span = t.span) ∧
      bracketSearch unclosedBracket 1 ≠ .underflow := by
  have hend : EndsInEof unclosedBracket := ⟨unclosedBracket.dropLast, _, rfl, rfl, by decide⟩
  obtain ⟨hparse, hstart, hat, -⟩ := parseTokens_total hend
  refine ⟨hend, ?_, ((hat 0 _ (hstart _ _ rfl)).2.2.2 rfl).1⟩
  rcases hparse with ⟨unit, hunit⟩ | herror
  · have hrun : parseTokens unclosedBracket =
        .error ⟨.expected (.token (.mark .rBracket)) (.identifier "x"), ⟨7, 8⟩⟩ := rfl
    rw [hrun] at hunit
    cases hunit
  · exact herror

end Shader
