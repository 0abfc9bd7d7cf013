import Keala.Router.TableMatch
import Keala.Router.Overlap

/-!
The captures of the fast layers against the grammar. A path without escapes is
its decoded segments, and for the patterns of the fast layers an alternative
captures from the raw parts what the one shape of its pattern captures from
these segments.
-/

namespace Keala.Router

open Keala.Js

def edgeOf : CompiledSegment → Edge
  | .static value => .static value
  | .param name pattern _ => .consume name pattern
  | .wildcard => .wildcard

def plainShape (segments : List CompiledSegment) : List Edge := segments.map edgeOf

theorem Fast.param {name : JsString} {pattern : Option RegExp} {optional : Bool}
    {segments : List CompiledSegment} (h : Fast (.param name pattern optional :: segments)) :
    pattern = none ∧ optional = false := by
  have heligible := h.eligible
  rw [eligibleCaptures] at heligible
  split at heligible
  · exact absurd rfl heligible
  · next hplain =>
      rw [Bool.or_eq_true, not_or] at hplain
      exact ⟨by simpa using hplain.2, by simpa using hplain.1⟩

theorem Fast.shapesOf {segments : List CompiledSegment} (h : Fast segments) :
    shapesOf segments = [plainShape segments] := by
  induction segments with
  | nil => rfl
  | cons segment segments ih =>
      cases segment with
      | static value => rw [Router.shapesOf, ih (h.tail (by simp))]; rfl
      | param name pattern optional =>
          rw [Router.shapesOf, ih (h.tail (by simp)), h.param.2]
          rfl
      | wildcard =>
          obtain rfl := h.wildcard
          rfl

/-- The parts without the empty one that a trailing slash makes. -/
def stripLast (parts : List JsString) : List JsString :=
  if parts.getLast? = some [] then parts.dropLast else parts

def endsEmpty (parts : List JsString) : Bool := parts.getLast? = some []

/-- Only the last part may be an empty one at the end. -/
def SettledParts (parts : List JsString) : Prop := ∀ front, parts ≠ front ++ [[], []]

theorem SettledParts.tail {part : JsString} {parts : List JsString}
    (h : SettledParts (part :: parts)) : SettledParts parts := by
  rintro front rfl
  exact h (part :: front) rfl

theorem stripLast_cons {part : JsString} {parts : List JsString} (h : part ≠ [] ∨ parts ≠ []) :
    stripLast (part :: parts) = part :: stripLast parts ∧
      endsEmpty (part :: parts) = endsEmpty parts := by
  cases parts with
  | nil =>
      have hpart : part ≠ [] := h.resolve_right fun hne => hne rfl
      simp [stripLast, endsEmpty, hpart]
  | cons next parts =>
      rw [stripLast, stripLast, endsEmpty, endsEmpty, List.getLast?_cons_cons]
      constructor
      · split
        · rw [List.dropLast_cons_cons]
        · rfl
      · rfl

/-- The wildcard keeps what the trie would join, once its slash is trimmed. -/
theorem trimSlash_join {part : JsString} {parts : List JsString}
    (hslash : ∀ p ∈ part :: parts, slash ∉ p) (hsettled : SettledParts (part :: parts)) :
    (stripLast (part :: parts) = [] ∧ part = [] ∧ parts = []) ∨
      stripLast (part :: parts) ≠ [] ∧ join slash (stripLast (part :: parts)) ≠ [] ∧
        (if endsEmpty (part :: parts) then trimSlash (join slash (part :: parts))
          else join slash (part :: parts)) = join slash (stripLast (part :: parts)) := by
  by_cases hlast : (part :: parts).getLast? = some []
  · obtain ⟨front, hfront⟩ := List.getLast?_eq_some_iff.mp hlast
    have hstrip : stripLast (part :: parts) = front := by
      rw [stripLast, if_pos hlast, hfront, List.dropLast_concat]
    cases front with
    | nil => exact .inl ⟨hstrip, List.cons.inj hfront⟩
    | cons p ps =>
        have hne : join slash (p :: ps) ≠ [] := by
          intro hnil
          have hsplit := @split_join slash (p :: ps)
            (fun q hq => hslash q (hfront ▸ List.mem_append_left _ hq)) (by simp)
          rw [hnil] at hsplit
          obtain ⟨rfl, rfl⟩ := List.cons.inj hsplit.symm
          exact hsettled [] hfront
        refine .inr ⟨by rw [hstrip]; simp, by rwa [hstrip], ?_⟩
        rw [if_pos (by simpa [endsEmpty] using hlast), hstrip, hfront,
          join_concat slash (by simp), trimSlash, if_pos, List.dropLast_concat]
        have hpos := List.length_pos_of_ne_nil hne
        exact ⟨by rw [List.length_append, List.length_singleton]; omega, List.getLast?_concat⟩
  · have hstrip : stripLast (part :: parts) = part :: parts := by rw [stripLast, if_neg hlast]
    refine .inr ⟨by rw [hstrip]; simp, ?_, ?_⟩
    · rw [hstrip]
      intro hnil
      have hsplit := @split_join slash _ hslash (by simp)
      rw [hnil] at hsplit
      exact hlast (by rw [← hsplit]; rfl)
    · rw [hstrip, if_neg (by simpa [endsEmpty] using hlast)]

def namedCaptures (segments : List CompiledSegment) (trailing : Bool) (values : List JsString) :
    List (JsString × JsString) :=
  (paramNamesOf segments).zip
    (if wildLast segments = true ∧ trailing = true then
      values.modify (values.length - 1) trimSlash
    else values)

theorem namedCaptures_static (value : JsString) {segments : List CompiledSegment}
    (trailing : Bool) (values : List JsString) :
    namedCaptures (.static value :: segments) trailing values =
      namedCaptures segments trailing values := by
  have hlast : wildLast (.static value :: segments) = wildLast segments := by
    rw [wildLast, wildLast]
    cases segments with
    | nil => rfl
    | cons next rest => rw [List.getLast?_cons_cons]
  rw [namedCaptures, namedCaptures, hlast]
  rfl

theorem namedCaptures_param (name : JsString) (pattern : Option RegExp) (optional : Bool)
    {segments : List CompiledSegment} (trailing : Bool) (value : JsString)
    {values : List JsString} (hvalues : values.length = (paramNamesOf segments).length) :
    namedCaptures (.param name pattern optional :: segments) trailing (value :: values) =
      (name, value) :: namedCaptures segments trailing values := by
  have hlast : wildLast (.param name pattern optional :: segments) = wildLast segments := by
    rw [wildLast, wildLast]
    cases segments with
    | nil => rfl
    | cons next rest => rw [List.getLast?_cons_cons]
  have hnames : paramNamesOf (.param name pattern optional :: segments) =
      name :: paramNamesOf segments := rfl
  rw [namedCaptures, namedCaptures, hlast, hnames]
  split
  · next htrim =>
      -- The wildcard is among the values that follow.
      have hpos : 0 < values.length := by
        rw [hvalues]
        have hmem : .wildcard ∈ segments := by
          rw [wildLast, decide_eq_true_eq] at htrim
          exact List.mem_of_getLast? htrim.1
        exact List.length_pos_of_mem (List.mem_map_of_mem
          (List.mem_filter.mpr ⟨hmem, rfl⟩))
      obtain ⟨n, hn⟩ := Nat.exists_eq_succ_of_ne_zero (by omega : values.length ≠ 0)
      rw [List.length_cons, Nat.add_sub_cancel, hn, List.modify_succ_cons, Nat.succ_sub_one,
        List.zip_cons_cons]
  · rw [List.zip_cons_cons]

/-- An alternative captures from the raw parts what the shape of its pattern
captures from the segments. -/
theorem captures_plainShape (host : Host) {segments : List CompiledSegment}
    (hfast : Fast segments) (hstatic : CompiledSegment.static [] ∉ segments)
    {parts : List JsString} (hslash : ∀ part ∈ parts, slash ∉ part)
    (hsettled : SettledParts parts) :
    captures host (endsEmpty parts) (plainShape segments) (stripLast parts) =
      (rawCaptures segments parts).map (namedCaptures segments (endsEmpty parts)) := by
  induction segments generalizing parts with
  | nil =>
      -- At the end of the pattern the path must be over, up to a slash at its end.
      have hstrip : stripLast parts = [] ↔ parts = [] ∨ parts = [[]] := by
        rw [stripLast]
        split
        · next hlast =>
            obtain ⟨front, rfl⟩ := List.getLast?_eq_some_iff.mp hlast
            rw [List.dropLast_concat]
            cases front <;> simp
        · next hlast =>
            constructor
            · exact .inl
            · rintro (rfl | rfl)
              · rfl
              · exact absurd rfl hlast
      rw [rawCaptures]
      by_cases hend : parts = [] ∨ parts = [[]]
      · rw [if_pos hend, hstrip.mpr hend]
        rfl
      · rw [if_neg hend]
        obtain ⟨part, rest, hcons⟩ :=
          List.exists_cons_of_ne_nil fun hnil => hend (hstrip.mp hnil)
        rw [hcons]
        rfl
  | cons segment segments ih =>
      have hrest : CompiledSegment.static [] ∉ segments := fun h =>
        hstatic (List.mem_cons_of_mem _ h)
      cases parts with
      | nil => cases segment <;> rfl
      | cons part parts =>
          have htail : ∀ p ∈ parts, slash ∉ p := fun p hp => hslash p (List.mem_cons_of_mem _ hp)
          by_cases hone : part ≠ [] ∨ parts ≠ []
          · obtain ⟨hstrip, hends⟩ := stripLast_cons hone
            cases segment with
            | static value =>
                rw [rawCaptures, hstrip, hends]
                show (if value = part then captures host (endsEmpty parts) (plainShape segments)
                  (stripLast parts) else none) = _
                split
                · rw [ih (hfast.tail (by simp)) hrest htail hsettled.tail]
                  exact Option.map_congr fun values _ =>
                    (namedCaptures_static value (endsEmpty parts) values).symm
                · rfl
            | param name pattern optional =>
                obtain ⟨rfl, rfl⟩ := hfast.param
                rw [rawCaptures, hstrip, hends]
                show (if part ≠ [] ∧ satisfies host none part = true then
                  (captures host (endsEmpty parts) (plainShape segments) (stripLast parts)).map
                    ((name, part) :: ·) else none) = _
                by_cases hpart : part = []
                · rw [if_neg fun h => h.1 hpart, if_pos hpart]
                  rfl
                · rw [if_pos ⟨hpart, rfl⟩, if_neg hpart,
                    ih (hfast.tail (by simp)) hrest htail hsettled.tail, Option.map_map,
                    Option.map_map]
                  refine Option.map_congr fun values hvalues => ?_
                  exact (namedCaptures_param name none false (endsEmpty parts) part
                    (rawCaptures_length (hfast.tail (by simp)) hvalues)).symm
            | wildcard =>
                obtain rfl := hfast.wildcard
                -- The wildcard takes the rest, without the slash at its end.
                rcases trimSlash_join hslash hsettled with ⟨-, hpart, hparts⟩ | ⟨-, hjoin, htrim⟩
                · exact absurd hone (by simp [hpart, hparts])
                · have hraw : rawCaptures [.wildcard] (part :: parts) =
                      some [join slash (part :: parts)] := rfl
                  rw [hraw, Option.map_some, namedCaptures]
                  rw [hstrip] at hjoin htrim ⊢
                  show some (if join slash (part :: stripLast parts) ≠ [] then
                    [(wildcardName, join slash (part :: stripLast parts))] else []) = _
                  rw [if_pos hjoin, ← htrim]
                  split
                  · next hends => rw [if_pos ⟨rfl, hends⟩]; rfl
                  · next hends => rw [if_neg fun h => hends h.2]; rfl
          · -- The path is the one slash.
            obtain ⟨rfl, rfl⟩ : part = [] ∧ parts = [] := by simpa using hone
            cases segment with
            | static value =>
                have hvalue : value ≠ [] := by
                  rintro rfl
                  exact hstatic List.mem_cons_self
                rw [rawCaptures, if_neg hvalue]
                rfl
            | param name pattern optional => rfl
            | wildcard =>
                obtain rfl := hfast.wildcard
                rfl

/-! ### Paths without escapes -/

/-- A request path that the fast layers may read: rooted, without an escape and
without line terminators. -/
structure Raw (path : JsString) (parts : List JsString) : Prop where
  text : path = routeText parts
  nonempty : parts ≠ []
  readable : ∀ part ∈ parts, Readable part
  plain : percent ∉ path

theorem routeText_split (text : JsString) : routeText (split slash text) = slash :: text := by
  obtain ⟨part, parts, hsplit⟩ := List.exists_cons_of_ne_nil (split_ne_nil slash text)
  rw [hsplit, routeText_cons, routeText_eq_join, ← hsplit, join_split]

theorem exists_raw {path : JsString} (hroot : path.head? = some slash) (hplain : percent ∉ path)
    (hterminator : ∀ c ∈ path, isLineTerminator c = false) : ∃ parts, Raw path parts := by
  obtain ⟨rest, rfl⟩ := List.head?_eq_some_iff.mp hroot
  refine ⟨split slash rest, (routeText_split rest).symm, split_ne_nil slash rest,
    fun part hpart => ?_, hplain⟩
  refine ⟨not_mem_of_mem_split hpart, fun c hc => hterminator c ?_⟩
  exact List.mem_cons_of_mem _ (mem_of_mem_split hpart hc)

theorem Raw.rest {path : JsString} {parts : List JsString} (h : Raw path parts) :
    ∃ rest, path = slash :: rest ∧ parts = split slash rest := by
  obtain ⟨part, tail, rfl⟩ := List.exists_cons_of_ne_nil h.nonempty
  refine ⟨join slash (part :: tail), ?_, ?_⟩
  · rw [h.text, routeText_cons, routeText_eq_join]
  · rw [split_join (fun p hp => (h.readable p hp).no_slash) (by simp)]

theorem Raw.trailing {path : JsString} {parts : List JsString} (h : Raw path parts) :
    trailingSlash path = endsEmpty parts := by
  obtain ⟨rest, rfl, rfl⟩ := h.rest
  rw [trailingSlash, endsEmpty]
  cases rest with
  | nil => rfl
  | cons c rest =>
      rw [List.getLast?_cons_cons]
      exact decide_eq_decide.mpr (getLast?_eq_sep_iff slash (by simp))

theorem Raw.settled {path : JsString} {parts : List JsString} (h : Raw path parts)
    (honce : EndsOnce path) : SettledParts parts := by
  obtain ⟨rest, rfl, rfl⟩ := h.rest
  intro front hfront
  apply honce
  have htext := join_split slash rest
  rw [hfront] at htext
  have hends : ∃ text, slash :: rest = text ++ [slash, slash] := by
    cases front with
    | nil => exact ⟨[], by rw [← htext]; rfl⟩
    | cons p ps =>
        refine ⟨slash :: join slash (p :: ps), ?_⟩
        rw [← htext, join_append slash (by simp) (by simp)]
        rfl
  obtain ⟨text, htext⟩ := hends
  rw [htext, List.append_cons text slash [slash], List.getLast?_concat, List.dropLast_concat,
    List.getLast?_concat]
  exact ⟨rfl, by simp, rfl⟩

/-- The segments of such a path are its parts. -/
theorem Raw.decodedSegments {path : JsString} {parts : List JsString} (h : Raw path parts)
    (hsettled : SettledParts parts) : decodedSegments path = stripLast parts := by
  have hid : ∀ segments : List JsString, (∀ s ∈ segments, s ∈ parts) →
      segments.map decodeSegment = segments := by
    intro segments hmem
    refine (List.map_congr_left fun s hs => ?_).trans (List.map_id segments)
    have hplain : percent ∉ s := by
      intro hp
      apply h.plain
      rw [h.text]
      exact List.mem_flatMap.mpr ⟨s, hmem s hs, List.mem_cons_of_mem _ hp⟩
    rw [decodeSegment, if_neg hplain]
    rfl
  have hstrip : splitSegments path = stripLast parts := by
    obtain ⟨rest, rfl, rfl⟩ := h.rest
    by_cases hrest : rest = []
    · subst hrest
      rfl
    · have hlong : 1 < (slash :: rest).length := by
        have hpos := List.length_pos_of_ne_nil hrest
        rw [List.length_cons]
        omega
      have hlast : (slash :: rest).getLast? = some slash ↔
          (split slash rest).getLast? = some [] := by
        rw [← getLast?_eq_sep_iff slash hrest]
        obtain ⟨c, tail, rfl⟩ := List.exists_cons_of_ne_nil hrest
        rw [List.getLast?_cons_cons]
      by_cases hend : (slash :: rest).getLast? = some slash
      · have hparts := hlast.mp hend
        obtain ⟨front, rfl⟩ := List.getLast?_eq_some_iff.mp
          ((getLast?_eq_sep_iff slash hrest).mpr hparts)
        have hnorm : normalizePath (slash :: (front ++ [slash])) = slash :: front := by
          rw [normalizePath, if_pos ⟨hlong, hend⟩, List.dropLast_cons_of_ne_nil hrest,
            List.dropLast_concat]
        rw [splitSegments_of_normalizePath hnorm, stripLast, if_pos hparts, split_concat_self,
          List.dropLast_concat]
        have hne : split slash front ≠ [[]] := by
          intro hone
          apply hsettled []
          rw [split_concat_self, hone]
          rfl
        exact if_neg hne
      · have hne : split slash rest ≠ [[]] := by
          intro hone
          apply hend
          rw [hlast, hone]
          rfl
        have hnorm : normalizePath (slash :: rest) = slash :: rest := by
          rw [normalizePath, if_neg fun hboth => hend hboth.2]
        rw [splitSegments_of_normalizePath hnorm, stripLast,
          if_neg fun hp => hend (hlast.mpr hp)]
        exact if_neg hne
  rw [Router.decodedSegments, hstrip]
  apply hid
  intro s hs
  rw [stripLast] at hs
  split at hs
  · exact List.mem_of_mem_dropLast hs
  · exact hs

end Keala.Router
