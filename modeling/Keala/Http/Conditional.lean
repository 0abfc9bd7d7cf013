import Keala.Js.Trim

/-!
Conditional requests (`src/http/conditional.ts`): which entity tags an
`If-None-Match` list matches. The list is split at every comma, so a comma
inside a quoted tag cuts the tag in pieces.
-/

namespace Keala.Http

open Keala.Js

def stripWeak (tag : JsString) : JsString := if startsWith tag (js "W/") then tag.drop 2 else tag

def candidateMatches (bare candidate : JsString) : Bool :=
  let value := trim candidate
  value = js "*" || stripWeak value = bare

def etagMatches (etag header : JsString) : Bool :=
  (split 44 header).any (candidateMatches (stripWeak etag))

/-! ### Entity tags -/

/-- `etagc` of RFC 9110: visible characters but the quote, and `obs-text`. -/
def isEtagc (c : CodeUnit) : Bool := c = 0x21 || (0x23 ≤ c && c ≤ 0x7E) || (0x80 ≤ c && c ≤ 0xFF)

structure EntityTag where
  weak : Bool
  text : JsString
  etagc : ∀ c ∈ text, isEtagc c = true

def EntityTag.quoted (tag : EntityTag) : JsString := 34 :: (tag.text ++ [34])

def EntityTag.render (tag : EntityTag) : JsString :=
  (if tag.weak then js "W/" else []) ++ tag.quoted

/-- An entity tag of a list between its optional white space. -/
structure ListedTag where
  before : JsString
  tag : EntityTag
  after : JsString
  ows : ∀ c ∈ before ++ after, isOws c = true

def ListedTag.render (listed : ListedTag) : JsString :=
  listed.before ++ listed.tag.render ++ listed.after

def renderTags (tags : List ListedTag) : JsString := join 44 (tags.map ListedTag.render)

def hidesStar (text : JsString) : Bool :=
  (split 44 text).tail.dropLast.any fun piece => trim piece = js "*"

example : hidesStar (js "a,*,b") = true ∧ hidesStar (js "a,*") = false := by decide

variable {c : CodeUnit} {text piece : JsString}

theorem quote_not_etagc : isEtagc 34 = false := by decide

theorem comma_not_ows : isOws 44 = false := by decide

theorem EntityTag.quote_notMem (tag : EntityTag) : (34 : CodeUnit) ∉ tag.text := fun h => by
  simpa [quote_not_etagc] using tag.etagc 34 h

theorem ListedTag.comma_notMem (listed : ListedTag) :
    (44 : CodeUnit) ∉ listed.before ∧ (44 : CodeUnit) ∉ listed.after := by
  constructor
  · exact fun h => by simpa [comma_not_ows] using listed.ows 44 (List.mem_append_left _ h)
  · exact fun h => by simpa [comma_not_ows] using listed.ows 44 (List.mem_append_right _ h)

theorem ListedTag.blank (listed : ListedTag) :
    (∀ c ∈ listed.before, isSpace c = true) ∧ ∀ c ∈ listed.after, isSpace c = true :=
  ⟨fun c hc => isSpace_of_isOws (listed.ows c (List.mem_append_left _ hc)),
    fun c hc => isSpace_of_isOws (listed.ows c (List.mem_append_right _ hc))⟩

/-! ### One candidate -/

theorem count_trim (hc : isSpace c = false) (text : JsString) :
    (trim text).count c = text.count c :=
  count_trimBy hc text

theorem count_stripWeak (text : JsString) : (stripWeak text).count 34 = text.count 34 := by
  unfold stripWeak
  split
  · next hstart =>
      obtain ⟨rest, rfl⟩ := List.isPrefixOf_iff_prefix.mp hstart
      rw [List.count_append]
      exact (Nat.zero_add _).symm
  · rfl

@[simp] theorem EntityTag.count_quoted (tag : EntityTag) : tag.quoted.count 34 = 2 := by
  have htext : tag.text.count 34 = 0 := List.count_eq_zero.mpr tag.quote_notMem
  simp [EntityTag.quoted, htext]

theorem EntityTag.text_eq {a b : EntityTag} (h : a.quoted = b.quoted) : a.text = b.text :=
  List.append_cancel_right (List.cons.inj h).2

@[simp] theorem EntityTag.stripWeak_render (tag : EntityTag) :
    stripWeak tag.render = tag.quoted := by
  unfold EntityTag.render
  split <;> rfl

theorem EntityTag.count_render (tag : EntityTag) : tag.render.count 34 = 2 := by
  rw [← count_stripWeak, tag.stripWeak_render, tag.count_quoted]

/-- The ends of a tag are no white space. -/
theorem ListedTag.trim_render (listed : ListedTag) : trim listed.render = listed.tag.render := by
  rw [ListedTag.render, trim_append_blank listed.blank.2, trim_blank_append listed.blank.1]
  refine trim_eq_self ?_ ?_
  · intro c hc
    unfold EntityTag.render at hc
    split at hc
    · cases hc
      decide
    · cases hc
      decide
  · intro c hc
    have hlast : listed.tag.render.getLast? = some 34 := by
      rw [EntityTag.render, EntityTag.quoted, ← List.cons_append, ← List.append_assoc,
        List.getLast?_concat]
    rw [hlast] at hc
    cases hc
    decide

/-- A piece with fewer than two quotes is no entity tag. -/
theorem candidateMatches_of_count (tag : EntityTag) (h : piece.count 34 < 2) :
    candidateMatches tag.quoted piece = decide (trim piece = js "*") := by
  have hne : stripWeak (trim piece) ≠ tag.quoted := by
    intro heq
    have hcount := congrArg (List.count 34) heq
    rw [count_stripWeak, count_trim (by decide), tag.count_quoted] at hcount
    omega
  rw [candidateMatches, decide_eq_false hne, Bool.or_false]

theorem candidateMatches_of_quote (tag : EntityTag) (h : piece.count 34 = 1) :
    candidateMatches tag.quoted piece = false := by
  rw [candidateMatches_of_count tag (by omega)]
  refine decide_eq_false fun hstar => ?_
  have hcount := congrArg (List.count 34) hstar
  rw [count_trim (by decide), h] at hcount
  exact absurd hcount (by decide)

theorem ListedTag.candidateMatches_render (tag : EntityTag) (listed : ListedTag) :
    candidateMatches tag.quoted listed.render = decide (listed.tag.quoted = tag.quoted) := by
  have hstar : listed.tag.render ≠ js "*" := by
    intro heq
    have hcount := congrArg (List.count 34) heq
    rw [listed.tag.count_render] at hcount
    exact absurd hcount (by decide)
  rw [candidateMatches, listed.trim_render, listed.tag.stripWeak_render, decide_eq_false hstar,
    Bool.false_or]

/-! ### The list -/

/-- A listed tag between the texts that stand before and after its quoted characters. -/
theorem ListedTag.exists_render (listed : ListedTag) :
    ∃ left right, listed.render = left ++ listed.tag.text ++ right ∧
      (44 : CodeUnit) ∉ left ∧ (44 : CodeUnit) ∉ right ∧ left.count 34 = 1 ∧
      right.count 34 = 1 := by
  obtain ⟨hbefore, hafter⟩ := listed.comma_notMem
  have hblank : ∀ blank : JsString, (∀ c ∈ blank, isSpace c = true) → blank.count 34 = 0 := by
    intro blank h
    exact List.count_eq_zero.mpr fun hmem => absurd (h 34 hmem) (by decide)
  refine ⟨listed.before ++ (if listed.tag.weak then js "W/" else []) ++ [34], 34 :: listed.after,
    ?_, ?_, ?_, ?_, ?_⟩
  · simp [ListedTag.render, EntityTag.render, EntityTag.quoted]
  · simp only [List.mem_append, not_or]
    refine ⟨⟨hbefore, ?_⟩, by decide⟩
    split <;> decide
  · simpa using hafter
  · rw [List.count_append, List.count_append, hblank _ listed.blank.1]
    split <;> decide
  · rw [List.count_cons_self, hblank _ listed.blank.2]

theorem any_congr_of_mem {pieces : List JsString} {p q : JsString → Bool}
    (h : ∀ a ∈ pieces, p a = q a) : pieces.any p = pieces.any q := by
  rw [Bool.eq_iff_iff, List.any_eq_true, List.any_eq_true]
  exact exists_congr fun a => and_congr_right fun ha => by rw [h a ha]

/-- What the pieces of one listed tag answer. -/
theorem ListedTag.any_split (tag : EntityTag) (listed : ListedTag) :
    (split 44 listed.render).any (candidateMatches tag.quoted) =
      (hidesStar listed.tag.text ||
        (decide (44 ∉ listed.tag.text) && decide (listed.tag.quoted = tag.quoted))) := by
  obtain ⟨left, right, hrender, hleft, hright, hcountLeft, hcountRight⟩ := listed.exists_render
  have hnone : ∀ p ∈ split 44 listed.tag.text, p.count 34 = 0 := fun p hp =>
    List.count_eq_zero.mpr fun hmem => listed.tag.quote_notMem (mem_of_mem_split hp hmem)
  rcases split_between hleft hright listed.tag.text with ⟨hcomma, hsplit⟩ | hpieces
  · -- without a comma the tag is the only candidate
    have hstar : hidesStar listed.tag.text = false := by
      rw [hidesStar, split, List.splitOn_eq_singleton hcomma]
      rfl
    rw [← hrender] at hsplit
    rw [hsplit, List.any_cons, List.any_nil, Bool.or_false, listed.candidateMatches_render, hstar,
      decide_eq_true hcomma, Bool.true_and, Bool.false_or]
  · obtain ⟨first, middle, last, htext, hsplit⟩ := hpieces
    rw [htext] at hnone
    have hcomma : (44 : CodeUnit) ∈ listed.tag.text := by
      rw [← join_split 44 listed.tag.text, htext]
      exact sep_mem_join (by simp)
    have hfirst : candidateMatches tag.quoted (left ++ first) = false := by
      refine candidateMatches_of_quote tag ?_
      rw [List.count_append, hcountLeft, hnone first (by simp)]
    have hlast : candidateMatches tag.quoted (last ++ right) = false := by
      refine candidateMatches_of_quote tag ?_
      rw [List.count_append, hcountRight, hnone last (by simp)]
    have hmiddle : middle.any (candidateMatches tag.quoted) = hidesStar listed.tag.text := by
      rw [hidesStar, htext, List.cons_append, List.tail_cons, List.dropLast_concat]
      refine any_congr_of_mem fun p hp => candidateMatches_of_count tag ?_
      rw [hnone p (by simp [hp])]
      exact Nat.zero_lt_two
    rw [hrender, hsplit, List.any_append, List.any_cons, hfirst, List.any_cons, hlast, hmiddle,
      List.any_nil, Bool.or_false, Bool.or_false, Bool.false_or,
      decide_eq_false (not_not.mpr hcomma), Bool.false_and, Bool.or_false]

theorem etagMatches_renderTags (tag : EntityTag) (tags : List ListedTag) :
    etagMatches tag.render (renderTags tags) = tags.any fun listed =>
      hidesStar listed.tag.text ||
        (decide (44 ∉ listed.tag.text) && decide (listed.tag.quoted = tag.quoted)) := by
  rw [etagMatches, tag.stripWeak_render, renderTags]
  by_cases hne : tags = []
  · subst hne
    rw [List.any_nil]
    exact @candidateMatches_of_count [] tag (by decide)
  · rw [split_join_flatMap 44 (by simpa using hne), List.any_flatMap, List.any_map]
    exact List.any_congr rfl fun listed => listed.any_split tag

/-! ### Weak list membership -/

def Listed (tag : EntityTag) (tags : List ListedTag) : Prop :=
  ∃ listed ∈ tags, listed.tag.quoted = tag.quoted

/-- No comma inside a quoted text changes the answer: a star that two commas
leave alone only stands in a list with the tag, and a listed tag with a comma
only beside such a star. -/
def CommasHarmless (tag : EntityTag) (tags : List ListedTag) : Prop :=
  ((∃ listed ∈ tags, hidesStar listed.tag.text = true) → Listed tag tags) ∧
    (44 ∈ tag.text → Listed tag tags → ∃ listed ∈ tags, hidesStar listed.tag.text = true)

/-- `If-None-Match` is weak list membership exactly where no comma inside a
quoted text changes the answer; a single `*` matches every tag. -/
theorem etagMatches_iff_listed (tag : EntityTag) (tags : List ListedTag) :
    ((etagMatches tag.render (renderTags tags) = true ↔ Listed tag tags) ↔
        CommasHarmless tag tags) ∧
      ∀ etag, etagMatches etag (js "*") = true := by
  refine ⟨?_, fun etag => rfl⟩
  have hanswer : etagMatches tag.render (renderTags tags) = true ↔
      (∃ listed ∈ tags, hidesStar listed.tag.text = true) ∨ (44 ∉ tag.text ∧ Listed tag tags) := by
    rw [etagMatches_renderTags, List.any_eq_true]
    simp only [Bool.or_eq_true, Bool.and_eq_true, decide_eq_true_eq]
    constructor
    · rintro ⟨listed, hlisted, hstar | ⟨hcomma, hquoted⟩⟩
      · exact .inl ⟨listed, hlisted, hstar⟩
      · exact .inr ⟨EntityTag.text_eq hquoted ▸ hcomma, listed, hlisted, hquoted⟩
    · rintro (⟨listed, hlisted, hstar⟩ | ⟨hcomma, listed, hlisted, hquoted⟩)
      · exact ⟨listed, hlisted, .inl hstar⟩
      · exact ⟨listed, hlisted, .inr ⟨EntityTag.text_eq hquoted ▸ hcomma, hquoted⟩⟩
  rw [hanswer, CommasHarmless]
  by_cases hstar : ∃ listed ∈ tags, hidesStar listed.tag.text = true
  · simp [hstar]
  · by_cases hlisted : Listed tag tags
    · simp [hstar, hlisted]
    · simp [hstar, hlisted]

def tagOfText (text : JsString) (h : text.all isEtagc = true) : EntityTag :=
  ⟨false, text, List.all_eq_true.mp h⟩

/-- The tag `"a"` is not in the list `"a,*,b"`, and yet it matches. -/
theorem etagMatches_inner_star :
    let tag := tagOfText (js "a") (by decide)
    let listed : ListedTag := ⟨[], tagOfText (js "a,*,b") (by decide), [], by simp⟩
    ¬ (etagMatches tag.render (renderTags [listed]) = true ↔ Listed tag [listed]) := by
  intro tag listed h
  have hmatch : etagMatches tag.render (renderTags [listed]) = true := by decide
  obtain ⟨found, hfound, hquoted⟩ := h.mp hmatch
  rw [List.mem_singleton.mp hfound] at hquoted
  exact absurd hquoted (by decide)

end Keala.Http
