import Keala.Negotiation.MediaType
import Keala.Plugins.FormBudget

/-!
A content type as RFC 9110 writes it, the boundary that the grammar gives it,
and the boundary that `boundaryOf` reads off it.
-/

namespace Keala.Plugins

open Js Http Negotiation

/-! ### The grammar -/

structure HeaderParameter where
  name : JsString
  value : JsString
  name_token : isToken name = true
  value_formed : isToken value = true ∨ IsQuotedString value

/-- The quoted pairs of a text stand for what follows their backslash. -/
def unescape : JsString → JsString
  | [] => []
  | [c] => [c]
  | c :: d :: text => if c = 92 then d :: unescape text else c :: unescape (d :: text)

namespace HeaderParameter

def text (p : HeaderParameter) : JsString := p.name ++ 61 :: p.value

/-- What the value stands for: a token for itself, a quoted string for what it quotes. -/
def meaning (p : HeaderParameter) : JsString :=
  if p.value.head? = some 34 then unescape p.value.tail.dropLast else p.value

end HeaderParameter

/-- A semicolon with what follows it, which may be no parameter at all. -/
structure HeaderSegment where
  before : JsString
  after : JsString
  param : Option HeaderParameter
  before_blank : ∀ c ∈ before, isOws c = true
  after_blank : ∀ c ∈ after, isOws c = true

namespace HeaderSegment

def text (s : HeaderSegment) : JsString := s.after ++ s.param.elim [] HeaderParameter.text

def render (s : HeaderSegment) : JsString := s.before ++ 59 :: s.text

end HeaderSegment

structure ContentType where
  type : JsString
  subtype : JsString
  type_token : isToken type = true
  subtype_token : isToken subtype = true
  segments : List HeaderSegment

namespace ContentType

def essence (T : ContentType) : JsString := T.type ++ 47 :: T.subtype

def render (T : ContentType) : JsString := T.essence ++ T.segments.flatMap HeaderSegment.render

def params (T : ContentType) : List HeaderParameter := T.segments.filterMap HeaderSegment.param

/-- Of a parameter given twice the first one counts. -/
def boundaryParameter (T : ContentType) : Option HeaderParameter :=
  T.params.find? fun p => p.name.map lowerUnit = js "boundary"

def boundary (T : ContentType) : Option JsString := T.boundaryParameter.map HeaderParameter.meaning

end ContentType

/-! ### The parameters as they are read -/

def nextBefore : List HeaderSegment → JsString
  | [] => []
  | s :: _ => s.before

theorem blank_nil : ∀ c ∈ ([] : JsString), isOws c = true :=
  fun _ h => absurd h List.not_mem_nil

theorem nextBefore_blank (segments : List HeaderSegment) :
    ∀ c ∈ nextBefore segments, isOws c = true := by
  cases segments with
  | nil => exact blank_nil
  | cons s _ => exact s.before_blank

def segmentTexts : List HeaderSegment → List JsString
  | [] => []
  | s :: segments => (s.text ++ nextBefore segments) :: segmentTexts segments

theorem splitParameters_segment (s : HeaderSegment) (rest current : JsString) :
    splitParameters (s.text ++ rest) current false false =
      splitParameters rest (current ++ s.text) false false := by
  rw [HeaderSegment.text, List.append_assoc, splitParameters_plain (ows_plain s.after_blank)]
  cases s.param with
  | none => rw [Option.elim_none, List.nil_append, List.append_nil]
  | some p =>
      rw [Option.elim_some, HeaderParameter.text,
        splitParameters_pair p.name_token p.value_formed, List.append_assoc]

theorem splitParameters_segments (segments : List HeaderSegment) (current : JsString) :
    splitParameters (segments.flatMap HeaderSegment.render) current false false =
      (current ++ nextBefore segments) :: segmentTexts segments := by
  induction segments generalizing current with
  | nil =>
      rw [nextBefore, List.append_nil]
      rfl
  | cons s segments ih =>
      rw [List.flatMap_cons, HeaderSegment.render, List.append_assoc,
        splitParameters_plain (ows_plain s.before_blank), List.cons_append,
        splitParameters_semicolon, splitParameters_segment, ih, List.nil_append]
      rfl

section

variable {lower : JsString → JsString}

/-- The names in lower case, each value without the quotes around it. -/
theorem contentTypeParameters_params (hlower : LowersLatin lower) (T : ContentType) :
    contentTypeParameters lower T.render =
      T.params.map fun p => (p.name.map lowerUnit, unquote p.value) := by
  have hessence : ∀ c ∈ T.essence, c ≠ 34 ∧ c ≠ 92 ∧ c ≠ 59 := by
    rw [ContentType.essence, List.forall_mem_append, List.forall_mem_cons]
    exact ⟨token_plain T.type_token, by decide, token_plain T.subtype_token⟩
  rw [contentTypeParameters, ContentType.render, splitParameters_plain hessence,
    splitParameters_segments, List.tail_cons, ContentType.params]
  induction T.segments with
  | nil => rfl
  | cons s segments ih =>
      have hblank := nextBefore_blank segments
      rw [segmentTexts, List.filterMap_cons, List.filterMap_cons, HeaderSegment.text]
      cases s.param with
      | none =>
          -- nothing but white space has no equals sign
          have hmem : (61 : CodeUnit) ∉ s.after ++ [] ++ nextBefore segments := by
            rw [List.append_nil, List.mem_append, not_or]
            exact ⟨not_mem_ows s.after_blank (by decide), not_mem_ows hblank (by decide)⟩
          rw [Option.elim_none, indexOf_none hmem, ih]
          rfl
      | some p =>
          obtain ⟨eq, hindex, hname, hvalue⟩ :=
            read_segment s.after_blank p.name_token p.value_formed hblank
          obtain ⟨hlowered, hne⟩ := lower_name hlower p.name_token
          rw [Option.elim_some, HeaderParameter.text, hindex, Option.bind_some, hname, hvalue,
            if_neg hne, hlowered, ih]
          rfl

/-- `boundaryOf` takes the first boundary without the quotes around it. -/
theorem boundaryOf_render (hlower : LowersLatin lower) (T : ContentType) :
    boundaryOf lower T.render = T.boundaryParameter.bind fun p =>
      if unquote p.value = [] ∨ 1024 < (unquote p.value).length then none
      else some (unquote p.value) := by
  have hfind : (T.params.map fun p => (p.name.map lowerUnit, unquote p.value)).find?
      (fun p => p.1 = js "boundary") =
        T.boundaryParameter.map fun p => (p.name.map lowerUnit, unquote p.value) := List.find?_map
  rw [boundaryOf, contentTypeParameters_params hlower, hfind]
  cases T.boundaryParameter with
  | none => rfl
  | some p => rfl

end

/-! ### In bytes -/

def latinBytes (c : CodeUnit) : List UInt8 := (utf8 c.toNat).map Nat.toUInt8

theorem not_surrogate_of_latin {c : CodeUnit} (h : isLatin c = true) :
    isSurrogate c.toNat = false := by
  have hle := UInt16.le_iff_toNat_le.mp (of_decide_eq_true h)
  simp at hle
  simp [isSurrogate]
  omega

theorem codePoints_latin {text : JsString} (h : ∀ c ∈ text, isLatin c = true) :
    codePoints text = text.map UInt16.toNat := by
  induction text with
  | nil => rfl
  | cons c text ih =>
      obtain ⟨hc, htext⟩ := List.forall_mem_cons.mp h
      rw [codePoints_cons (not_surrogate_of_latin hc), ih htext, List.map_cons]

/-- A text of Latin-1 is written unit by unit. -/
theorem utf8Bytes_latin {text : JsString} (h : ∀ c ∈ text, isLatin c = true) :
    utf8Bytes text = text.flatMap latinBytes := by
  rw [utf8Bytes, codePoints_latin h, List.flatMap_map]
  apply List.flatMap_congr
  intro c hc
  rw [not_surrogate_of_latin (h c hc)]
  rfl

theorem length_latinBytes {c : CodeUnit} (h : isLatin c = true) : 1 ≤ (latinBytes c).length := by
  have hall : ∀ n < 256, 1 ≤ (latinBytes n.toUInt16).length := by decide +kernel
  obtain ⟨n, hn, rfl⟩ := exists_of_latin h
  exact hall n hn

theorem length_bytes {text : JsString} (h : ∀ c ∈ text, isLatin c = true) :
    text.length ≤ (text.flatMap latinBytes).length := by
  induction text with
  | nil => exact Nat.le_refl 0
  | cons c text ih =>
      obtain ⟨hc, htext⟩ := List.forall_mem_cons.mp h
      have hone := length_latinBytes hc
      have hrest := ih htext
      rw [List.flatMap_cons, List.length_append, List.length_cons]
      omega

/-- A line break is written only for a line break. -/
theorem latinBytes_break {c : CodeUnit} (h : isLatin c = true) (hbreak : c ≠ 10 ∧ c ≠ 13) :
    10 ∉ latinBytes c ∧ 13 ∉ latinBytes c := by
  have hall : ∀ n < 256, n.toUInt16 ≠ 10 ∧ n.toUInt16 ≠ 13 →
      10 ∉ latinBytes n.toUInt16 ∧ 13 ∉ latinBytes n.toUInt16 := by
    decide +kernel
  obtain ⟨n, hn, rfl⟩ := exists_of_latin h
  exact hall n hn hbreak

theorem eq_apostrophe_of_bytes {c : CodeUnit} (h : isLatin c = true)
    (hbytes : ∀ b ∈ latinBytes c, b = 39) : c = 39 := by
  have hall : ∀ n < 256, (∀ b ∈ latinBytes n.toUInt16, b = 39) → n.toUInt16 = 39 := by
    decide +kernel
  obtain ⟨n, hn, rfl⟩ := exists_of_latin h
  exact hall n hn hbytes

def delimiter (boundary : JsString) : List UInt8 := utf8Bytes (js "--" ++ boundary)

theorem delimiter_latin {boundary : JsString} (h : ∀ c ∈ boundary, isLatin c = true) :
    delimiter boundary = 45 :: 45 :: boundary.flatMap latinBytes := by
  have hlatin : ∀ c ∈ js "--" ++ boundary, isLatin c = true := by
    rw [List.forall_mem_append]
    exact ⟨List.all_eq_true.mp (by decide), h⟩
  rw [delimiter, utf8Bytes_latin hlatin, List.flatMap_append]
  rfl

theorem length_delimiter {boundary : JsString} (h : ∀ c ∈ boundary, isLatin c = true) :
    (js "--" ++ boundary).length ≤ (delimiter boundary).length := by
  rw [delimiter_latin h]
  exact Nat.add_le_add_right (length_bytes h) 2

/-! ### What quotes stand for -/

theorem unescape_text {c : CodeUnit} (h : c ≠ 92) (text : JsString) :
    unescape (c :: text) = c :: unescape text := by
  cases text with
  | nil => rfl
  | cons d text => rw [unescape, if_neg h]

theorem unescape_pair (c : CodeUnit) (text : JsString) :
    unescape (92 :: c :: text) = c :: unescape text := by
  rw [unescape, if_pos rfl]

theorem unescape_of_not_mem {text : JsString} (h : 92 ∉ text) : unescape text = text := by
  induction text with
  | nil => rfl
  | cons c text ih =>
      rw [List.mem_cons, not_or] at h
      rw [unescape_text (Ne.symm h.1), ih h.2]

theorem ne_backslash_of_qdtext {c : CodeUnit} (h : isQdtext c = true) : c ≠ 92 := by
  rintro rfl
  cases h

theorem mem_unescape {body : JsString} (h : QuotedBody body) {c : CodeUnit}
    (hc : c ∈ unescape body) : c ∈ body := by
  induction h with
  | nil => exact hc
  | text hq _ ih =>
      rw [unescape_text (ne_backslash_of_qdtext hq)] at hc
      rcases List.mem_cons.mp hc with rfl | hc
      · exact List.mem_cons_self
      · exact List.mem_cons_of_mem _ (ih hc)
  | pair _ _ ih =>
      rw [unescape_pair] at hc
      apply List.mem_cons_of_mem
      rcases List.mem_cons.mp hc with rfl | hc
      · exact List.mem_cons_self
      · exact List.mem_cons_of_mem _ (ih hc)

/-- Each backslash is a byte that the quoted text does not have. -/
theorem length_bytes_unescape {body : JsString} (h : QuotedBody body) :
    ((unescape body).flatMap latinBytes).length ≤ (body.flatMap latinBytes).length ∧
      (92 ∈ body →
        ((unescape body).flatMap latinBytes).length < (body.flatMap latinBytes).length) := by
  induction h with
  | nil => exact ⟨Nat.le_refl 0, fun h => absurd h List.not_mem_nil⟩
  | @text c body hc _ ih =>
      have hne := ne_backslash_of_qdtext hc
      rw [unescape_text hne, List.flatMap_cons, List.flatMap_cons, List.length_append,
        List.length_append]
      refine ⟨Nat.add_le_add_left ih.1 _, fun hmem => Nat.add_lt_add_left (ih.2 ?_) _⟩
      exact (List.mem_cons.mp hmem).resolve_left (Ne.symm hne)
  | @pair c body _ _ ih =>
      have hbackslash : (latinBytes 92).length = 1 := by decide
      have hle := ih.1
      simp only [unescape_pair, List.flatMap_cons, List.length_append, hbackslash]
      exact ⟨by omega, fun _ => by omega⟩

theorem unbroken_of_quotedBody {body : JsString} (h : QuotedBody body) :
    ∀ c ∈ body, c ≠ 10 ∧ c ≠ 13 := by
  induction h with
  | nil => exact fun _ hc => absurd hc List.not_mem_nil
  | text hc _ ih =>
      refine List.forall_mem_cons.mpr ⟨⟨?_, ?_⟩, ih⟩
      · rintro rfl
        cases hc
      · rintro rfl
        cases hc
  | pair hc _ ih =>
      refine List.forall_mem_cons.mpr ⟨by decide, List.forall_mem_cons.mpr ⟨⟨?_, ?_⟩, ih⟩⟩
      · rintro rfl
        cases hc
      · rintro rfl
        cases hc

/-- A value whose boundary the scan seeks: one without a quoted pair, and without apostrophes
around it unless they are all it has. -/
def ReadAlike (value : JsString) : Prop :=
  92 ∉ value ∧ (value.head? = some 39 → value.getLast? = some 39 →
    value.length ≠ 2 ∧ ∀ c ∈ value, c = 39)

instance (value : JsString) : Decidable (ReadAlike value) := inferInstanceAs (Decidable (_ ∧ _))

namespace HeaderParameter

theorem meaning_token {p : HeaderParameter} (h : isToken p.value = true) : p.meaning = p.value := by
  rw [meaning, if_neg]
  intro hhead
  exact not_mem_token h (by decide) (List.mem_of_head? hhead)

theorem meaning_quoted {p : HeaderParameter} {body : JsString}
    (h : p.value = 34 :: (body ++ [34])) : p.meaning = unescape body := by
  rw [meaning, h, if_pos List.head?_cons, List.tail_cons, List.dropLast_concat]

theorem value_latin (p : HeaderParameter) : ∀ c ∈ p.value, isLatin c = true :=
  latin_of_value p.value_formed

/-- No header has a line break in it. -/
theorem value_unbroken (p : HeaderParameter) : ∀ c ∈ p.value, c ≠ 10 ∧ c ≠ 13 := by
  rcases p.value_formed with htoken | ⟨body, hbody, hvalue⟩
  · intro c hc
    rw [isToken, Bool.and_eq_true, List.all_eq_true] at htoken
    exact ⟨ne_of_tokenChar (htoken.2 c hc) (by decide), ne_of_tokenChar (htoken.2 c hc) (by decide)⟩
  · rw [hvalue, List.forall_mem_cons, List.forall_mem_append]
    exact ⟨by decide, unbroken_of_quotedBody hbody, by simp⟩

end HeaderParameter

/-! ### Where the scan seeks the boundary of the grammar -/

theorem forall_eq_of_isPrefix {α : Type} {x t : List α} {a : α} (h : x <+: a :: (x ++ t)) :
    ∀ b ∈ x, b = a := by
  -- each element is the one before it, and the first one is `a`
  induction x generalizing a with
  | nil => exact fun _ hb => absurd hb List.not_mem_nil
  | cons b x ih =>
      obtain ⟨rfl, hrest⟩ := List.cons_prefix_cons.mp h
      exact List.forall_mem_cons.mpr ⟨rfl, ih hrest⟩

/-- Without the apostrophes around it, a text is sought within only if it is nothing else. -/
theorem dashes_infix_iff {inner : List UInt8} :
    45 :: 45 :: inner <:+: 45 :: 45 :: 39 :: (inner ++ [39]) ↔ ∀ b ∈ inner, b = 39 := by
  constructor
  · intro h
    rcases List.infix_cons_iff.mp h with hat | h
    · rw [List.cons_prefix_cons, List.cons_prefix_cons] at hat
      exact forall_eq_of_isPrefix hat.2.2
    · rcases List.infix_cons_iff.mp h with hat | h
      · rw [List.cons_prefix_cons, List.cons_prefix_cons] at hat
        exact absurd hat.2.1 (by decide)
      · have heq := h.eq_of_length (by simp)
        exact absurd (List.cons.inj heq).1 (by decide)
  · intro h
    obtain ⟨k, rfl⟩ : ∃ k, inner = List.replicate k 39 :=
      ⟨inner.length, List.eq_replicate_of_mem h⟩
    have hshape : 39 :: (List.replicate k (39 : UInt8) ++ [39]) =
        List.replicate k 39 ++ [39, 39] := by
      rw [← List.cons_append, ← List.replicate_succ, List.replicate_succ', List.append_assoc]
      rfl
    rw [hshape]
    exact (List.prefix_append (45 :: 45 :: List.replicate k 39) [39, 39]).isInfix

theorem delimiter_apostrophes_iff {inner : JsString} (h : ∀ c ∈ inner, isLatin c = true) :
    delimiter inner <:+: delimiter (39 :: (inner ++ [39])) ↔ ∀ c ∈ inner, c = 39 := by
  have hlatin : ∀ c ∈ (39 : CodeUnit) :: (inner ++ [39]), isLatin c = true := by
    rw [List.forall_mem_cons, List.forall_mem_append]
    exact ⟨rfl, h, by simp [isLatin]⟩
  have hbytes : ((39 : CodeUnit) :: (inner ++ [39])).flatMap latinBytes =
      39 :: (inner.flatMap latinBytes ++ [39]) := by
    rw [List.flatMap_cons, List.flatMap_append]
    rfl
  rw [delimiter_latin h, delimiter_latin hlatin, hbytes, dashes_infix_iff]
  constructor
  · intro hall c hc
    exact eq_apostrophe_of_bytes (h c hc) fun b hb => hall b (List.mem_flatMap.mpr ⟨c, hc, hb⟩)
  · intro hall b hb
    obtain ⟨c, hc, hb⟩ := List.mem_flatMap.mp hb
    rw [hall c hc] at hb
    exact List.mem_singleton.mp hb

theorem readAlike_token {value : JsString} (htoken : isToken value = true)
    (hbare : ¬Quoted value) : ReadAlike value := by
  refine ⟨not_mem_token htoken (by decide), fun hhead hlast => ?_⟩
  obtain ⟨rest, rfl⟩ := List.head?_eq_some_iff.mp hhead
  cases rest using List.reverseRecOn with
  | nil => exact ⟨by decide, by simp⟩
  | append_singleton inner c =>
      rw [← List.cons_append, List.getLast?_append, List.getLast?_singleton] at hlast
      obtain rfl := Option.some.inj hlast
      exact absurd ⟨inner, .inr rfl⟩ hbare

theorem readAlike_apostrophes {inner : JsString} (htoken : isToken (39 :: (inner ++ [39])) = true) :
    ReadAlike (39 :: (inner ++ [39])) ↔ inner ≠ [] ∧ ∀ c ∈ inner, c = 39 := by
  have hlast : ((39 : CodeUnit) :: (inner ++ [39])).getLast? = some 39 := by
    rw [← List.cons_append, List.getLast?_append, List.getLast?_singleton]
    rfl
  have hlength : ((39 : CodeUnit) :: (inner ++ [39])).length ≠ 2 ↔ inner ≠ [] := by
    rw [List.length_cons, List.length_append, List.length_singleton, ← List.length_pos_iff]
    omega
  rw [ReadAlike, hlast, hlength]
  constructor
  · intro ⟨_, h⟩
    obtain ⟨hne, hall⟩ := h rfl rfl
    rw [List.forall_mem_cons, List.forall_mem_append] at hall
    exact ⟨hne, hall.2.1⟩
  · rintro ⟨hne, hall⟩
    refine ⟨not_mem_token htoken (by decide), fun _ _ => ⟨hne, ?_⟩⟩
    rw [List.forall_mem_cons, List.forall_mem_append]
    exact ⟨rfl, hall, by simp⟩

theorem readAlike_quoted {body : JsString} : ReadAlike (34 :: (body ++ [34])) ↔ 92 ∉ body := by
  have hmem : (92 : CodeUnit) ∈ 34 :: (body ++ [34]) ↔ 92 ∈ body := by simp
  rw [ReadAlike, hmem]
  constructor
  · exact fun h => h.1
  · exact fun h => ⟨h, fun hhead => absurd (Option.some.inj hhead) (by decide)⟩

/-- A value is read alike exactly if the scan has a boundary to seek and each delimiter of the
grammar has it. -/
theorem readAlike_iff (p : HeaderParameter) (hne : p.meaning ≠ [])
    (hlength : p.meaning.length ≤ 1024) :
    ReadAlike p.value ↔ unquote p.value ≠ [] ∧ (unquote p.value).length ≤ 1024 ∧
      delimiter (unquote p.value) <:+: delimiter p.meaning := by
  rcases p.value_formed with htoken | ⟨body, hbody, hvalue⟩
  · rw [HeaderParameter.meaning_token htoken] at hne hlength ⊢
    by_cases hquoted : Quoted p.value
    · obtain ⟨inner, hvalue | hvalue⟩ := hquoted
      · exact absurd (hvalue ▸ List.mem_cons_self) (not_mem_token htoken (by decide))
      · have hlatin : ∀ c ∈ inner, isLatin c = true := fun c hc =>
          latin_of_token htoken c (by simp [hvalue, hc])
        rw [hvalue] at htoken hlength ⊢
        rw [readAlike_apostrophes htoken, unquote_between (.inr rfl),
          delimiter_apostrophes_iff hlatin]
        simp only [List.length_cons, List.length_append] at hlength
        exact ⟨fun h => ⟨h.1, by omega, h.2⟩, fun h => ⟨h.1, h.2.2⟩⟩
    · rw [unquote_bare hquoted]
      exact ⟨fun _ => ⟨hne, hlength, List.infix_refl _⟩, fun _ => readAlike_token htoken hquoted⟩
  · rw [HeaderParameter.meaning_quoted hvalue] at hne hlength ⊢
    rw [hvalue, readAlike_quoted, unquote_between (.inl rfl)]
    constructor
    · intro hplain
      rw [unescape_of_not_mem hplain] at hne hlength ⊢
      exact ⟨hne, hlength, List.infix_refl _⟩
    · rintro ⟨-, -, hinfix⟩ hmem
      -- the raw text is the longer one
      rw [delimiter_latin hbody.latin,
        delimiter_latin fun c hc => hbody.latin c (mem_unescape hbody hc)] at hinfix
      have hle := hinfix.length_le
      have hlt := (length_bytes_unescape hbody).2 hmem
      simp only [List.length_cons] at hle
      omega

end Keala.Plugins
