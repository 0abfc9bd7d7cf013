import Keala.Js.Split
import Keala.Router.BucketRegex

/-!
The source of the table regex, read back. Every literal is escaped, so the
source of a route lexes and parses to the terms its segments stand for, and the
whole source to one anchored alternation of them.
-/

namespace Keala.Router

open Keala.Js

/-! ### Lexing -/

theorem lex_char {c : CodeUnit} (hc : isSyntax c = false) (rest : JsString) :
    lex (c :: rest) = (lex rest).map (.char c :: ·) := by
  have hne : c ≠ 92 ∧ c ≠ 40 ∧ c ≠ 91 := by
    refine ⟨?_, ?_, ?_⟩ <;> rintro rfl <;> exact absurd hc (by decide)
  rw [lex]
  · rw [if_neg (by simp [hc])]
  · rintro d tail heq -
    exact hne.1 heq
  · rintro tail heq -
    exact hne.2.1 heq
  · rintro d tail heq -
    exact hne.2.2 heq

theorem lex_token {c : CodeUnit} {token : Token} (htoken : syntaxToken c = some token)
    {rest : JsString} (hgroup : c = 40 → rest.head? ≠ some 63) :
    lex (c :: rest) = (lex rest).map (token :: ·) := by
  have hsyntax : isSyntax c = true := by
    rw [syntaxToken] at htoken
    split_ifs at htoken with h₁ h₂ h₃ h₄ h₅ h₆ h₇ h₈ h₉
    all_goals subst c; decide
  have hne : c ≠ 92 ∧ c ≠ 91 := by
    constructor <;> rintro rfl <;> cases htoken
  rw [lex]
  · rw [if_pos hsyntax, htoken]
    cases lex rest <;> rfl
  · rintro d tail heq -
    exact hne.1 heq
  · rintro tail heq rfl
    exact hgroup heq rfl
  · rintro d tail heq -
    exact hne.2 heq

/-- An escaped literal lexes to its characters. -/
theorem lex_escapeLiteral (value rest : JsString) :
    lex (escapeLiteral value ++ rest) = (lex rest).map (value.map .char ++ ·) := by
  induction value with
  | nil => simp [escapeLiteral]
  | cons c value ih =>
      have hcons : escapeLiteral (c :: value) ++ rest =
          (if isSyntax c then [92, c] else [c]) ++ (escapeLiteral value ++ rest) :=
        List.append_assoc ..
      rw [hcons]
      by_cases hc : isSyntax c = true
      · rw [if_pos hc]
        show lex (92 :: c :: (escapeLiteral value ++ rest)) = _
        rw [lex, if_pos hc, ih, Option.map_map]
        rfl
      · rw [if_neg hc, List.singleton_append, lex_char (by simpa using hc), ih, Option.map_map]
        rfl

theorem lex_slash (rest : JsString) : lex (slash :: rest) = (lex rest).map (.char slash :: ·) :=
  lex_char (by decide) rest

def segmentTokens : CompiledSegment → List Token
  | .static value => .char slash :: value.map .char
  | .param _ _ _ => [.char slash, .opened true, .notChar slash, .plus, .closed]
  | .wildcard => [.char slash, .opened true, .any, .star, .closed]

theorem lex_segmentSource (segment : CompiledSegment) (rest : JsString) :
    lex (segmentSource segment ++ rest) = (lex rest).map (segmentTokens segment ++ ·) := by
  cases segment with
  | static value =>
      show lex (slash :: (escapeLiteral value ++ rest)) = _
      rw [lex_slash, lex_escapeLiteral, Option.map_map]
      rfl
  | param name pattern optional =>
      have hclass : ∀ tail, lex (91 :: 94 :: slash :: 93 :: tail) =
          (lex tail).map (.notChar slash :: ·) := by
        intro tail
        rw [lex, if_neg (by decide)]
      show lex (slash :: 40 :: 91 :: 94 :: slash :: 93 :: 43 :: 41 :: rest) = _
      rw [lex_slash, lex_token (rfl : syntaxToken 40 = some (.opened true)) (by simp), hclass,
        lex_token (rfl : syntaxToken 43 = some .plus) (by simp),
        lex_token (rfl : syntaxToken 41 = some .closed) (by simp)]
      simp only [Option.map_map]
      rfl
  | wildcard =>
      show lex (slash :: 40 :: 46 :: 42 :: 41 :: rest) = _
      rw [lex_slash, lex_token (rfl : syntaxToken 40 = some (.opened true)) (by simp),
        lex_token (rfl : syntaxToken 46 = some .any) (by simp),
        lex_token (rfl : syntaxToken 42 = some .star) (by simp),
        lex_token (rfl : syntaxToken 41 = some .closed) (by simp)]
      simp only [Option.map_map]
      rfl

/-- The tokens of a route; its alternative takes one more slash unless it ends
in the wildcard. -/
def routeTokens (segments : List CompiledSegment) : List Token :=
  segments.flatMap segmentTokens ++ if wildLast segments then [] else [.char slash, .opt]

theorem exists_static {segments : List CompiledSegment} (h : isRegexEligible segments = true) :
    ∃ value rest, segments = .static value :: rest := by
  unfold isRegexEligible at h
  split at h
  · exact ⟨_, _, rfl⟩
  · cases h

theorem lex_flatMap_segmentSource (segments : List CompiledSegment) (rest : JsString) :
    lex (segments.flatMap segmentSource ++ rest) =
      (lex rest).map (segments.flatMap segmentTokens ++ ·) := by
  induction segments with
  | nil => simp
  | cons segment segments ih =>
      rw [List.flatMap_cons, List.append_assoc, lex_segmentSource, ih, Option.map_map]
      simp [Function.comp_def]

theorem lex_routeSource (value : JsString) (segments : List CompiledSegment) (rest : JsString) :
    lex (routeSource (.static value :: segments) ++ rest) =
      (lex rest).map (routeTokens (.static value :: segments) ++ ·) := by
  have hsource : routeSource (.static value :: segments) =
      (.static value :: segments : List CompiledSegment).flatMap segmentSource ++
        if wildLast (.static value :: segments) then [] else js "/?" := rfl
  rw [hsource, List.append_assoc, lex_flatMap_segmentSource, routeTokens]
  split
  · simp
  · show (lex (slash :: 63 :: rest)).map _ = _
    rw [lex_slash, lex_token (rfl : syntaxToken 63 = some .opt) (by simp)]
    simp [Function.comp_def]

def tableTokens : List EligiblePattern → List Token
  | [] => []
  | [entry] => routeTokens entry.segments
  | entry :: entries => routeTokens entry.segments ++ .bar :: tableTokens entries

theorem lex_tableSource {entries : List EligiblePattern} (hne : entries ≠ [])
    (hstatic : ∀ entry ∈ entries, isRegexEligible entry.segments = true) :
    lex (tableSource entries) =
      some (.start :: .opened false :: tableTokens entries ++ [.closed, .stop]) := by
  have hjoined : ∀ rest, lex (join 124 (entries.map fun entry => routeSource entry.segments) ++
      rest) = (lex rest).map (tableTokens entries ++ ·) := by
    intro rest
    induction entries with
    | nil => exact absurd rfl hne
    | cons entry entries ih =>
        obtain ⟨value, segments, hsegments⟩ := exists_static (hstatic entry List.mem_cons_self)
        cases entries with
        | nil =>
            rw [List.map_singleton, join_singleton, tableTokens, hsegments]
            exact lex_routeSource value segments rest
        | cons next entries =>
            have ih := ih (by simp) fun e he => hstatic e (List.mem_cons_of_mem _ he)
            rw [List.map_cons] at ih
            rw [List.map_cons, List.map_cons, join_cons_cons, List.append_assoc, hsegments,
              lex_routeSource, List.cons_append,
              lex_token (rfl : syntaxToken 124 = some .bar) (by simp), ih]
            simp [tableTokens, hsegments, Function.comp_def]
  have hsource : tableSource entries = 94 :: 40 :: 63 :: 58 ::
      (join 124 (entries.map fun entry => routeSource entry.segments) ++ [41, 36]) := rfl
  rw [hsource, lex_token (rfl : syntaxToken 94 = some .start) (by simp), lex, hjoined]
  rfl

/-! ### Parsing -/

def literal (value : JsString) : List (Regex CodeUnit) := value.map fun c => .one (· == c)

/-- The terms of a segment; `k` groups come before it. -/
def segmentTerms (k : ℕ) : CompiledSegment → List (Regex CodeUnit)
  | .static value => literal (slash :: value)
  | .param _ _ _ => [.one (· == slash), .group (k + 1) (.plus (· != slash))]
  | .wildcard => [.one (· == slash), .group (k + 1) (.star fun c => !isLineTerminator c)]

def segmentsTerms : ℕ → List CompiledSegment → List (Regex CodeUnit)
  | _, [] => []
  | k, segment :: segments =>
      segmentTerms k segment ++ segmentsTerms (k + (paramNamesOf [segment]).length) segments

def routeTerms (k : ℕ) (segments : List CompiledSegment) : List (Regex CodeUnit) :=
  segmentsTerms k segments ++ if wildLast segments then [] else [.opt (· == slash)]

/-- The alternatives of the table, each with the groups of the ones before it
behind. -/
def alternatives : ℕ → List EligiblePattern → List (Regex CodeUnit)
  | _, [] => []
  | k, entry :: entries =>
      Regex.seqOf (routeTerms k entry.segments) ::
        alternatives (k + (routeNames entry.segments).length) entries

def groupCount (entries : List EligiblePattern) : ℕ :=
  (entries.map fun entry => (routeNames entry.segments).length).sum

theorem groupCount_cons (entry : EligiblePattern) (entries : List EligiblePattern) :
    groupCount (entry :: entries) = (routeNames entry.segments).length + groupCount entries := rfl

theorem steps_append (r : Reader) (xs ys : List Token) :
    r.steps (xs ++ ys) = (r.steps xs).bind fun r => r.steps ys := by
  induction xs generalizing r with
  | nil => rfl
  | cons x xs ih =>
      rw [List.cons_append, Reader.steps, Reader.steps, Option.bind_assoc]
      exact congrArg _ (funext ih)

theorem paramNamesOf_cons (segment : CompiledSegment) (segments : List CompiledSegment) :
    paramNamesOf (segment :: segments) = paramNamesOf [segment] ++ paramNamesOf segments := by
  cases segment <;> rfl

section

variable (alts terms : List (Regex CodeUnit)) (outer : List Group) (k : ℕ)

theorem steps_literal (value : JsString) :
    Reader.steps ⟨⟨none, alts, terms⟩ :: outer, k⟩ (value.map .char) =
      some ⟨⟨none, alts, terms ++ literal value⟩ :: outer, k⟩ := by
  induction value generalizing terms with
  | nil => simp [Reader.steps, literal]
  | cons c value ih =>
      rw [List.map_cons, Reader.steps]
      show Reader.steps ⟨⟨none, alts, terms ++ [.one (· == c)]⟩ :: outer, k⟩ _ = _
      rw [ih, List.append_assoc]
      rfl

theorem steps_segmentTokens (segment : CompiledSegment) :
    Reader.steps ⟨⟨none, alts, terms⟩ :: outer, k⟩ (segmentTokens segment) =
      some ⟨⟨none, alts, terms ++ segmentTerms k segment⟩ :: outer,
        k + (paramNamesOf [segment]).length⟩ := by
  cases segment with
  | static value => exact steps_literal alts terms outer k (slash :: value)
  | param name pattern optional =>
      rw [segmentTerms, List.append_cons]
      rfl
  | wildcard =>
      rw [segmentTerms, List.append_cons]
      rfl

theorem steps_segmentsTokens (segments : List CompiledSegment) :
    Reader.steps ⟨⟨none, alts, terms⟩ :: outer, k⟩ (segments.flatMap segmentTokens) =
      some ⟨⟨none, alts, terms ++ segmentsTerms k segments⟩ :: outer,
        k + (paramNamesOf segments).length⟩ := by
  induction segments generalizing terms k with
  | nil => simp [Reader.steps, segmentsTerms, paramNamesOf]
  | cons segment segments ih =>
      rw [List.flatMap_cons, steps_append, steps_segmentTokens, Option.bind_some, ih,
        segmentsTerms, List.append_assoc, paramNamesOf_cons segment segments,
        List.length_append, Nat.add_assoc]

theorem steps_routeTokens (segments : List CompiledSegment) :
    Reader.steps ⟨⟨none, alts, terms⟩ :: outer, k⟩ (routeTokens segments) =
      some ⟨⟨none, alts, terms ++ routeTerms k segments⟩ :: outer,
        k + (paramNamesOf segments).length⟩ := by
  rw [routeTokens, steps_append, steps_segmentsTokens, Option.bind_some, routeTerms]
  split
  · simp [Reader.steps]
  · rw [← List.append_assoc]
    simp [Reader.steps, Reader.step, Reader.onTop, Group.add, Group.quantify]

end

theorem paramNamesOf_eligible {segments : List CompiledSegment}
    (h : isRegexEligible segments = true) : paramNamesOf segments = routeNames segments := by
  obtain ⟨value, rest, rfl⟩ := exists_static h
  rfl

/-- Reading the routes of the table leaves the last alternative open. -/
theorem steps_tableTokens (alts : List (Regex CodeUnit)) (outer : List Group) (k : ℕ)
    {entries : List EligiblePattern} (hne : entries ≠ [])
    (hstatic : ∀ entry ∈ entries, isRegexEligible entry.segments = true) :
    ∃ alts' terms, Reader.steps ⟨⟨none, alts, []⟩ :: outer, k⟩ (tableTokens entries) =
        some ⟨⟨none, alts', terms⟩ :: outer, k + groupCount entries⟩ ∧
      alts' ++ [Regex.seqOf terms] = alts ++ alternatives k entries := by
  induction entries generalizing alts k with
  | nil => exact absurd rfl hne
  | cons entry entries ih =>
      have hnames := paramNamesOf_eligible (hstatic entry List.mem_cons_self)
      cases entries with
      | nil =>
          refine ⟨alts, routeTerms k entry.segments, ?_, rfl⟩
          show Reader.steps _ (routeTokens entry.segments) = _
          rw [steps_routeTokens, hnames, List.nil_append]
          rfl
      | cons next entries =>
          obtain ⟨alts', terms, hsteps, hend⟩ :=
            ih (alts ++ [Regex.seqOf (routeTerms k entry.segments)])
              (k + (routeNames entry.segments).length) (by simp)
              fun e he => hstatic e (List.mem_cons_of_mem _ he)
          refine ⟨alts', terms, ?_, ?_⟩
          · have htokens : tableTokens (entry :: next :: entries) =
                routeTokens entry.segments ++ .bar :: tableTokens (next :: entries) := rfl
            rw [htokens, steps_append, steps_routeTokens, hnames, List.nil_append,
              Option.bind_some, groupCount_cons, ← Nat.add_assoc]
            exact hsteps
          · rw [hend, List.append_assoc]
            rfl

/-- The table compiles to the anchored alternation of its routes. -/
theorem compileRegExp_tableSource {entries : List EligiblePattern} (hne : entries ≠ [])
    (hstatic : ∀ entry ∈ entries, isRegexEligible entry.segments = true) :
    compileRegExp (tableSource entries) =
      some ⟨Regex.seqOf [.start, Regex.altOf (alternatives 0 entries), .stop],
        groupCount entries⟩ := by
  obtain ⟨alts, terms, hsteps, hend⟩ :=
    steps_tableTokens [] [⟨none, [], [.start]⟩] 0 hne hstatic
  have hread : Reader.steps ⟨[⟨none, [], []⟩], 0⟩
      (.start :: .opened false :: tableTokens entries ++ [.closed, .stop]) =
        some ⟨[⟨none, [], [.start, Regex.altOf (alternatives 0 entries), .stop]⟩],
          groupCount entries⟩ := by
    show Reader.steps ⟨[⟨none, [], []⟩, ⟨none, [], [.start]⟩], 0⟩
      (tableTokens entries ++ [.closed, .stop]) = _
    rw [steps_append, hsteps, Option.bind_some, ← List.nil_append (alternatives 0 entries), ← hend]
    rw [Nat.zero_add]
    rfl
  rw [compileRegExp, lex_tableSource hne hstatic]
  show (Reader.steps _ _).bind _ = _
  rw [hread]
  rfl

end Keala.Router
