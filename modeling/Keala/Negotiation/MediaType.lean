import Keala.Http.Fields
import Keala.Js.Lower
import Keala.Js.Search
import Keala.Js.Trim
import Keala.Negotiation.Accepts

/-!
Media types with parameters as RFC 9110 writes them, and what
`contentTypeParameters` reads off them: each name in lower case with its
value, which loses its quotes where it has some.
-/

namespace Keala.Negotiation

open Keala.Js Keala.Http

/-! ### The grammar -/

/-- What stands for itself between quotes: all but the quote, the backslash
and the control characters. -/
def isQdtext (c : CodeUnit) : Bool :=
  c = 9 || c = 32 || c = 33 || (35 ≤ c && c ≤ 91) || (93 ≤ c && c ≤ 126) || (128 ≤ c && c ≤ 255)

def isQuotable (c : CodeUnit) : Bool := c = 9 || (32 ≤ c && c ≤ 126) || (128 ≤ c && c ≤ 255)

inductive QuotedBody : JsString → Prop
  | nil : QuotedBody []
  | text {c : CodeUnit} {body : JsString} (hc : isQdtext c = true) (h : QuotedBody body) :
      QuotedBody (c :: body)
  | pair {c : CodeUnit} {body : JsString} (hc : isQuotable c = true) (h : QuotedBody body) :
      QuotedBody (92 :: c :: body)

def IsQuotedString (value : JsString) : Prop :=
  ∃ body, QuotedBody body ∧ value = 34 :: (body ++ [34])

structure Parameter where
  before : JsString
  after : JsString
  name : JsString
  value : JsString
  before_blank : ∀ c ∈ before, isOws c = true
  after_blank : ∀ c ∈ after, isOws c = true
  name_token : isToken name = true
  name_unweighted : name.map lowerUnit ≠ js "q"
  value_formed : isToken value = true ∨ IsQuotedString value

namespace Parameter

def text (p : Parameter) : JsString := p.name ++ 61 :: p.value

def render (p : Parameter) : JsString := p.before ++ 59 :: (p.after ++ p.text)

end Parameter

structure MediaType where
  type : JsString
  subtype : JsString
  type_token : isToken type = true
  subtype_token : isToken subtype = true
  params : List Parameter

namespace MediaType

def essence (T : MediaType) : JsString := T.type ++ 47 :: T.subtype

def render (T : MediaType) : JsString := T.essence ++ T.params.flatMap Parameter.render

end MediaType

/-! ### The units -/

theorem exists_of_latin {c : CodeUnit} (h : isLatin c = true) : ∃ n < 256, c = n.toUInt16 := by
  refine ⟨c.toNat, ?_, UInt16.ofNat_toNat.symm⟩
  have := UInt16.le_iff_toNat_le.mp (of_decide_eq_true h)
  simp at this
  omega

theorem ne_of_tokenChar {c k : CodeUnit} (h : isTokenChar c = true)
    (hk : isTokenChar k = false) : c ≠ k := by
  rintro rfl
  rw [h] at hk
  cases hk

theorem not_mem_token {t : JsString} {k : CodeUnit} (h : isToken t = true)
    (hk : isTokenChar k = false) : k ∉ t := by
  intro hmem
  rw [isToken, Bool.and_eq_true, List.all_eq_true] at h
  exact ne_of_tokenChar (h.2 k hmem) hk rfl

theorem tokenChar_bounds {c : CodeUnit} (h : isTokenChar c = true) : 33 ≤ c ∧ c ≤ 126 := by
  rw [isTokenChar, Bool.or_eq_true] at h
  rcases h with hletter | hmark
  · simp only [Bool.or_eq_true, Bool.and_eq_true, decide_eq_true_eq] at hletter
    simp only [UInt16.le_iff_toNat_le] at hletter ⊢
    simp at hletter ⊢
    omega
  · have hall : ((js "!#$%&'*+-.^_`|~").all fun d => 33 ≤ d && d ≤ 126) = true := by decide
    simpa using List.all_eq_true.mp hall c (List.contains_iff_mem.mp hmark)

theorem latin_of_tokenChar {c : CodeUnit} (h : isTokenChar c = true) : isLatin c = true :=
  decide_eq_true (UInt16.le_trans (tokenChar_bounds h).2 (by decide))

theorem isSpace_of_tokenChar {c : CodeUnit} (h : isTokenChar c = true) : isSpace c = false := by
  have hspaces : ∀ n < 256, (!isTokenChar n.toUInt16 || !isSpace n.toUInt16) = true := by
    decide +kernel
  obtain ⟨n, hn, rfl⟩ := exists_of_latin (latin_of_tokenChar h)
  simpa [h] using hspaces n hn

theorem not_mem_ows {t : JsString} {k : CodeUnit} (h : ∀ c ∈ t, isOws c = true)
    (hk : isOws k = false) : k ∉ t := by
  intro hmem
  rw [h k hmem] at hk
  cases hk

theorem lowerUnit_lowerUnit {c : CodeUnit} (h : isLatin c = true) :
    lowerUnit (lowerUnit c) = lowerUnit c := by
  have hall : ∀ n < 256, lowerUnit (lowerUnit n.toUInt16) = lowerUnit n.toUInt16 := by
    decide +kernel
  obtain ⟨n, hn, rfl⟩ := exists_of_latin h
  exact hall n hn

/-- A quote stays one, and nothing becomes one. -/
theorem lowerUnit_eq_quote {c : CodeUnit} (h : isLatin c = true) :
    (lowerUnit c = 34 ↔ c = 34) ∧ (lowerUnit c = 39 ↔ c = 39) := by
  have hall : ∀ n < 256, (lowerUnit n.toUInt16 = 34 ↔ n.toUInt16 = 34) ∧
      (lowerUnit n.toUInt16 = 39 ↔ n.toUInt16 = 39) := by
    decide +kernel
  obtain ⟨n, hn, rfl⟩ := exists_of_latin h
  exact hall n hn

/-- A class of Latin-1 units that has the lower case of each. -/
theorem lowerUnit_class {p : CodeUnit → Bool}
    (hlatin : ∀ n < 256, (!p n.toUInt16 || p (lowerUnit n.toUInt16)) = true) {c : CodeUnit}
    (hc : isLatin c = true) (h : p c = true) : p (lowerUnit c) = true := by
  obtain ⟨n, hn, rfl⟩ := exists_of_latin hc
  simpa [h] using hlatin n hn

/-! ### In lower case -/

theorem tokenChar_lower {c : CodeUnit} (h : isTokenChar c = true) :
    isTokenChar (lowerUnit c) = true :=
  lowerUnit_class (by decide +kernel) (latin_of_tokenChar h) h

theorem isToken_lower {t : JsString} (h : isToken t = true) : isToken (t.map lowerUnit) = true := by
  rw [isToken, Bool.and_eq_true, List.all_eq_true, decide_eq_true_eq] at h ⊢
  refine ⟨by simpa using h.1, fun c hc => ?_⟩
  obtain ⟨d, hd, rfl⟩ := List.mem_map.mp hc
  exact tokenChar_lower (h.2 d hd)

theorem latin_of_token {t : JsString} (h : isToken t = true) : ∀ c ∈ t, isLatin c = true := by
  rw [isToken, Bool.and_eq_true, List.all_eq_true] at h
  exact fun c hc => latin_of_tokenChar (h.2 c hc)

theorem latin_of_qdtext {c : CodeUnit} (h : isQdtext c = true) : isLatin c = true := by
  simp only [isQdtext, Bool.or_eq_true, Bool.and_eq_true, decide_eq_true_eq] at h
  simp only [isLatin, decide_eq_true_eq, UInt16.le_iff_toNat_le, ← UInt16.toNat_inj] at h ⊢
  simp at h ⊢
  omega

theorem latin_of_quotable {c : CodeUnit} (h : isQuotable c = true) : isLatin c = true := by
  simp only [isQuotable, Bool.or_eq_true, Bool.and_eq_true, decide_eq_true_eq] at h
  simp only [isLatin, decide_eq_true_eq, UInt16.le_iff_toNat_le, ← UInt16.toNat_inj] at h ⊢
  simp at h ⊢
  omega

theorem QuotedBody.latin {body : JsString} (h : QuotedBody body) :
    ∀ c ∈ body, isLatin c = true := by
  induction h with
  | nil => exact fun _ hc => absurd hc List.not_mem_nil
  | text hc _ ih => exact List.forall_mem_cons.mpr ⟨latin_of_qdtext hc, ih⟩
  | pair hc _ ih =>
      exact List.forall_mem_cons.mpr ⟨rfl, List.forall_mem_cons.mpr ⟨latin_of_quotable hc, ih⟩⟩

theorem QuotedBody.lower {body : JsString} (h : QuotedBody body) :
    QuotedBody (body.map lowerUnit) := by
  induction h with
  | nil => exact .nil
  | text hc _ ih => exact .text (lowerUnit_class (by decide +kernel) (latin_of_qdtext hc) hc) ih
  | pair hc _ ih => exact .pair (lowerUnit_class (by decide +kernel) (latin_of_quotable hc) hc) ih

theorem isOws_lower {t : JsString} (h : ∀ c ∈ t, isOws c = true) :
    ∀ c ∈ t.map lowerUnit, isOws c = true := by
  intro c hc
  obtain ⟨d, hd, rfl⟩ := List.mem_map.mp hc
  have hows := h d hd
  rw [isOws, Bool.or_eq_true, decide_eq_true_eq, decide_eq_true_eq] at hows
  rcases hows with rfl | rfl <;> rfl

theorem latin_of_ows {t : JsString} (h : ∀ c ∈ t, isOws c = true) : ∀ c ∈ t, isLatin c = true := by
  intro c hc
  have hows := h c hc
  rw [isOws, Bool.or_eq_true, decide_eq_true_eq, decide_eq_true_eq] at hows
  rcases hows with rfl | rfl <;> rfl

theorem map_lower_lower {t : JsString} (h : ∀ c ∈ t, isLatin c = true) :
    (t.map lowerUnit).map lowerUnit = t.map lowerUnit := by
  rw [List.map_map]
  exact List.map_congr_left fun c hc => lowerUnit_lowerUnit (h c hc)

theorem latin_of_value {value : JsString} (h : isToken value = true ∨ IsQuotedString value) :
    ∀ c ∈ value, isLatin c = true := by
  rcases h with htoken | ⟨body, hbody, rfl⟩
  · exact latin_of_token htoken
  · rw [List.forall_mem_cons, List.forall_mem_append]
    exact ⟨rfl, hbody.latin, by simp [isLatin]⟩

namespace Parameter

theorem name_latin (p : Parameter) : ∀ c ∈ p.name, isLatin c = true := latin_of_token p.name_token

theorem value_latin (p : Parameter) : ∀ c ∈ p.value, isLatin c = true :=
  latin_of_value p.value_formed

/-- The parameter as it stands in a text in lower case. -/
def lowered (p : Parameter) : Parameter where
  before := p.before.map lowerUnit
  after := p.after.map lowerUnit
  name := p.name.map lowerUnit
  value := p.value.map lowerUnit
  before_blank := isOws_lower p.before_blank
  after_blank := isOws_lower p.after_blank
  name_token := isToken_lower p.name_token
  name_unweighted := by
    rw [map_lower_lower p.name_latin]
    exact p.name_unweighted
  value_formed := by
    rcases p.value_formed with htoken | ⟨body, hbody, hvalue⟩
    · exact .inl (isToken_lower htoken)
    · refine .inr ⟨body.map lowerUnit, hbody.lower, ?_⟩
      rw [hvalue, List.map_cons, List.map_append]
      rfl

theorem render_lowered (p : Parameter) : p.lowered.render = p.render.map lowerUnit := by
  simp only [render, text, List.map_append, List.map_cons]
  rfl

theorem render_latin (p : Parameter) : ∀ c ∈ p.render, isLatin c = true := by
  simp only [render, text, List.forall_mem_append, List.forall_mem_cons]
  exact ⟨latin_of_ows p.before_blank, rfl, latin_of_ows p.after_blank, p.name_latin, rfl,
    p.value_latin⟩

end Parameter

namespace MediaType

def lowered (T : MediaType) : MediaType where
  type := T.type.map lowerUnit
  subtype := T.subtype.map lowerUnit
  type_token := isToken_lower T.type_token
  subtype_token := isToken_lower T.subtype_token
  params := T.params.map Parameter.lowered

theorem render_lowered (T : MediaType) : T.lowered.render = T.render.map lowerUnit := by
  simp only [render, essence, lowered, List.map_append, List.map_cons, List.map_flatMap,
    List.flatMap_map, Parameter.render_lowered]
  rfl

theorem essence_latin (T : MediaType) : ∀ c ∈ T.essence, isLatin c = true := by
  rw [essence, List.forall_mem_append, List.forall_mem_cons]
  exact ⟨latin_of_token T.type_token, rfl, latin_of_token T.subtype_token⟩

theorem render_latin (T : MediaType) : ∀ c ∈ T.render, isLatin c = true := by
  rw [render, List.forall_mem_append]
  refine ⟨T.essence_latin, fun c hc => ?_⟩
  obtain ⟨p, -, hc⟩ := List.mem_flatMap.mp hc
  exact p.render_latin c hc

end MediaType

/-! ### The server's cut -/

/-- What stands in front of the first semicolon, the text behind if there is none. -/
def lead (behind : JsString) : List Parameter → JsString
  | [] => behind
  | p :: _ => p.before

def segments (behind : JsString) : List Parameter → List JsString
  | [] => []
  | p :: ps => (p.after ++ p.text ++ lead behind ps) :: segments behind ps

theorem splitParameters_plain {t : JsString} (h : ∀ c ∈ t, c ≠ 34 ∧ c ≠ 92 ∧ c ≠ 59)
    (rest current : JsString) :
    splitParameters (t ++ rest) current false false =
      splitParameters rest (current ++ t) false false := by
  induction t generalizing current with
  | nil => rw [List.nil_append, List.append_nil]
  | cons c t ih =>
      obtain ⟨hquote, hescape, hsemi⟩ := h c List.mem_cons_self
      rw [List.cons_append, splitParameters, if_neg Bool.false_ne_true, if_neg hescape,
        if_neg hquote, if_neg (by simp [hsemi]), ih (fun d hd => h d (List.mem_cons_of_mem _ hd)),
        List.append_assoc, List.singleton_append]

theorem splitParameters_body {body : JsString} (h : QuotedBody body) (rest current : JsString) :
    splitParameters (body ++ rest) current true false =
      splitParameters rest (current ++ body) true false := by
  induction h generalizing current with
  | nil => rw [List.nil_append, List.append_nil]
  | @text c body hc _ ih =>
      have hquote : c ≠ 34 := by
        rintro rfl
        cases hc
      have hescape : c ≠ 92 := by
        rintro rfl
        cases hc
      rw [List.cons_append, splitParameters, if_neg Bool.false_ne_true, if_neg hescape,
        if_neg hquote, if_neg (by simp), ih, List.append_assoc, List.singleton_append]
  | @pair c body _ _ ih =>
      rw [List.cons_append, splitParameters, if_neg Bool.false_ne_true, if_pos rfl,
        List.cons_append, splitParameters, if_pos rfl, ih]
      simp only [List.append_assoc, List.cons_append, List.nil_append]

theorem token_plain {t : JsString} (h : isToken t = true) :
    ∀ c ∈ t, c ≠ 34 ∧ c ≠ 92 ∧ c ≠ 59 := by
  rw [isToken, Bool.and_eq_true, List.all_eq_true] at h
  intro c hc
  exact ⟨ne_of_tokenChar (h.2 c hc) (by decide), ne_of_tokenChar (h.2 c hc) (by decide),
    ne_of_tokenChar (h.2 c hc) (by decide)⟩

theorem ows_plain {t : JsString} (h : ∀ c ∈ t, isOws c = true) :
    ∀ c ∈ t, c ≠ 34 ∧ c ≠ 92 ∧ c ≠ 59 := by
  intro c hc
  have hows := h c hc
  rw [isOws, Bool.or_eq_true, decide_eq_true_eq, decide_eq_true_eq] at hows
  rcases hows with rfl | rfl <;> decide

theorem splitParameters_value {value : JsString}
    (h : isToken value = true ∨ IsQuotedString value) (rest current : JsString) :
    splitParameters (value ++ rest) current false false =
      splitParameters rest (current ++ value) false false := by
  rcases h with htoken | ⟨body, hbody, rfl⟩
  · exact splitParameters_plain (token_plain htoken) rest current
  · rw [List.cons_append, splitParameters, if_neg Bool.false_ne_true,
      if_neg (by decide), List.append_assoc]
    change splitParameters (body ++ ([34] ++ rest)) (current ++ [34]) true false = _
    rw [splitParameters_body hbody, List.singleton_append, splitParameters,
      if_neg Bool.false_ne_true, if_neg (by decide)]
    change splitParameters rest (current ++ [34] ++ body ++ [34]) false false = _
    simp only [List.append_assoc, List.cons_append, List.nil_append]

theorem splitParameters_semicolon (rest current : JsString) :
    splitParameters (59 :: rest) current false false =
      current :: splitParameters rest [] false false := rfl

/-- A name, the equals sign and a value are gone through as one. -/
theorem splitParameters_pair {name value : JsString} (hname : isToken name = true)
    (hvalue : isToken value = true ∨ IsQuotedString value) (rest current : JsString) :
    splitParameters (name ++ 61 :: value ++ rest) current false false =
      splitParameters rest (current ++ (name ++ 61 :: value)) false false := by
  have hequals : ∀ rest front, splitParameters (61 :: rest) front false false =
      splitParameters rest (front ++ [61]) false false := fun _ _ => rfl
  rw [List.append_assoc, splitParameters_plain (token_plain hname), List.cons_append, hequals,
    splitParameters_value hvalue]
  simp only [List.append_assoc, List.singleton_append]

/-- Each semicolon between parameters cuts, and none within a quoted string. -/
theorem splitParameters_params (ps : List Parameter) (current : JsString) :
    splitParameters (ps.flatMap Parameter.render) current false false =
      (current ++ lead [] ps) :: segments [] ps := by
  induction ps generalizing current with
  | nil =>
      rw [lead, List.append_nil]
      rfl
  | cons p ps ih =>
      rw [List.flatMap_cons, Parameter.render, Parameter.text, List.append_assoc,
        splitParameters_plain (ows_plain p.before_blank), List.cons_append,
        splitParameters_semicolon, List.append_assoc,
        splitParameters_plain (ows_plain p.after_blank),
        splitParameters_pair p.name_token p.value_formed, ih, lead, segments, Parameter.text,
        List.nil_append]

/-! ### The server's reading -/

theorem token_spaceless {t : JsString} (h : isToken t = true) : ∀ c ∈ t, isSpace c = false := by
  rw [isToken, Bool.and_eq_true, List.all_eq_true] at h
  exact fun c hc => isSpace_of_tokenChar (h.2 c hc)

theorem ows_blank {t : JsString} (h : ∀ c ∈ t, isOws c = true) : ∀ c ∈ t, isSpace c = true :=
  fun c hc => isSpace_of_isOws (h c hc)

theorem trim_between {left t right : JsString} (hleft : ∀ c ∈ left, isOws c = true)
    (ht : trim t = t) (hright : ∀ c ∈ right, isOws c = true) : trim (left ++ t ++ right) = t := by
  rw [trim_append_blank (ows_blank hright), trim_blank_append (ows_blank hleft), ht]

theorem trim_value {value : JsString} (h : isToken value = true ∨ IsQuotedString value) :
    trim value = value := by
  rcases h with htoken | ⟨body, -, rfl⟩
  · exact trim_of_no_space (token_spaceless htoken)
  · refine trim_eq_self ?_ ?_
    · intro c hc
      obtain rfl := Option.some.inj hc
      rfl
    · intro c hc
      rw [← List.cons_append, List.getLast?_append, List.getLast?_singleton] at hc
      obtain rfl := Option.some.inj hc
      rfl

theorem equals_not_mem_token {name : JsString} (h : isToken name = true) :
    (61 : CodeUnit) ∉ name :=
  not_mem_token h (by decide)

/-- A segment is read around its first equals sign. -/
theorem read_segment {before name value behind : JsString} (hbefore : ∀ c ∈ before, isOws c = true)
    (hname : isToken name = true) (hvalue : isToken value = true ∨ IsQuotedString value)
    (hbehind : ∀ c ∈ behind, isOws c = true) :
    ∃ eq, indexOf (before ++ (name ++ 61 :: value) ++ behind) 61 = some eq ∧
      trim ((before ++ (name ++ 61 :: value) ++ behind).take eq) = name ∧
      trim ((before ++ (name ++ 61 :: value) ++ behind).drop (eq + 1)) = value := by
  have hshape : before ++ (name ++ 61 :: value) ++ behind =
      (before ++ name) ++ 61 :: (value ++ behind) := by
    simp only [List.append_assoc, List.cons_append]
  have hmem : (61 : CodeUnit) ∉ before ++ name := by
    rw [List.mem_append, not_or]
    exact ⟨not_mem_ows hbefore (by decide), equals_not_mem_token hname⟩
  refine ⟨(before ++ name).length, ?_, ?_, ?_⟩
  · rw [hshape]
    exact indexOf_append_cons hmem _
  · rw [hshape, List.take_left]
    have := @trim_between before name [] hbefore
      (trim_of_no_space (token_spaceless hname)) fun _ h => absurd h List.not_mem_nil
    rwa [List.append_nil] at this
  · rw [hshape, ← List.drop_drop, List.drop_left]
    change trim (value ++ behind) = value
    rw [trim_append_blank (ows_blank hbehind), trim_value hvalue]

theorem lead_blank {behind : JsString} (h : ∀ c ∈ behind, isOws c = true) (ps : List Parameter) :
    ∀ c ∈ lead behind ps, isOws c = true := by
  cases ps with
  | nil => exact h
  | cons p ps => exact p.before_blank

variable {lower : JsString → JsString}

theorem lower_name (hlower : LowersLatin lower) {name : JsString} (h : isToken name = true) :
    lower name = name.map lowerUnit ∧ lower name ≠ [] := by
  have hname := hlower name (latin_of_token h)
  have htoken := isToken_lower h
  rw [isToken, Bool.and_eq_true, decide_eq_true_eq] at htoken
  exact ⟨hname, hname ▸ htoken.1⟩

/-- The names in lower case, the values without their quotes. -/
theorem contentTypeParameters_render (hlower : LowersLatin lower) (T : MediaType) :
    contentTypeParameters lower T.render =
      T.params.map fun p => (p.name.map lowerUnit, unquote p.value) := by
  have hessence : ∀ c ∈ T.essence, c ≠ 34 ∧ c ≠ 92 ∧ c ≠ 59 := by
    rw [MediaType.essence, List.forall_mem_append, List.forall_mem_cons]
    exact ⟨token_plain T.type_token, by decide, token_plain T.subtype_token⟩
  rw [contentTypeParameters, MediaType.render, splitParameters_plain hessence,
    splitParameters_params, List.tail_cons]
  induction T.params with
  | nil => rfl
  | cons p ps ih =>
      obtain ⟨eq, hindex, hname, hvalue⟩ :=
        read_segment p.after_blank p.name_token p.value_formed
          (lead_blank (fun _ h => absurd h List.not_mem_nil : ∀ c ∈ [], _) ps)
      obtain ⟨hlowered, hne⟩ := lower_name hlower p.name_token
      rw [segments, List.filterMap_cons, Parameter.text, hindex, Option.bind_some, hname, hvalue,
        if_neg hne, hlowered, ih]
      rfl

theorem trim_essence (T : MediaType) : trim T.essence = T.essence := by
  apply trim_of_no_space
  rw [MediaType.essence, List.forall_mem_append, List.forall_mem_cons]
  exact ⟨token_spaceless T.type_token, rfl, token_spaceless T.subtype_token⟩

theorem semicolon_not_mem_essence (T : MediaType) : (59 : CodeUnit) ∉ T.essence := by
  rw [MediaType.essence, List.mem_append, List.mem_cons]
  rintro (h | h | h)
  · exact not_mem_token T.type_token (by decide) h
  · cases h
  · exact not_mem_token T.subtype_token (by decide) h

def recordOf (ps : List Parameter) : List (JsString × JsString) :=
  (ps.map fun p => (p.name.map lowerUnit, (unquote p.value).map lowerUnit)).foldl
    (fun record param => OrderedMap.set record param.1 param.2) []

theorem unquote_mem {value : JsString} {c : CodeUnit} (h : c ∈ unquote value) : c ∈ value := by
  rw [unquote] at h
  split at h
  · exact List.mem_of_mem_tail (List.mem_of_mem_dropLast h)
  · exact h

theorem serverMediaOf_render (hlower : LowersLatin lower) (T : MediaType) :
    serverMediaOf lower T.render = (T.essence.map lowerUnit, recordOf T.params) := by
  have hrecord : (contentTypeParameters lower T.render).foldl
      (fun params param => OrderedMap.set params param.1 (lower param.2)) [] =
      recordOf T.params := by
    rw [contentTypeParameters_render hlower, recordOf, List.foldl_map, List.foldl_map]
    apply List.foldl_ext
    intro record p _
    rw [hlower (unquote p.value) fun c hc => p.value_latin c (unquote_mem hc)]
  rw [serverMediaOf]
  cases hparams : T.params with
  | nil =>
      have htext : T.render = T.essence := by
        rw [MediaType.render, hparams, List.flatMap_nil, List.append_nil]
      rw [htext, indexOf_none (semicolon_not_mem_essence T), trim_essence,
        hlower T.essence T.essence_latin]
      rfl
  | cons p ps =>
      have htext : T.render = (T.essence ++ p.before) ++ 59 :: (p.after ++ p.text ++
          ps.flatMap Parameter.render) := by
        rw [MediaType.render, hparams, List.flatMap_cons, Parameter.render]
        simp only [List.append_assoc, List.cons_append]
      have hmem : (59 : CodeUnit) ∉ T.essence ++ p.before := by
        rw [List.mem_append, not_or]
        exact ⟨semicolon_not_mem_essence T, not_mem_ows p.before_blank (by decide)⟩
      have hindex : indexOf T.render 59 = some (T.essence ++ p.before).length := by
        rw [htext]
        exact indexOf_append_cons hmem _
      have htake : T.render.take (T.essence ++ p.before).length = T.essence ++ p.before := by
        rw [htext]
        exact List.take_left
      rw [hindex]
      dsimp only
      rw [htake, trim_append_blank (ows_blank p.before_blank), trim_essence,
        hlower T.essence T.essence_latin, hrecord, hparams]

/-! ### The record -/

/-- The record holds the value of the last parameter of a name. -/
theorem get?_recordOf (ps : List Parameter) (name : JsString) :
    OrderedMap.get? (recordOf ps) name =
      (ps.reverse.find? fun p => p.name.map lowerUnit = name).map fun p =>
        (unquote p.value).map lowerUnit := by
  induction ps using List.reverseRecOn with
  | nil => rfl
  | append_singleton ps p ih =>
      have hstep : recordOf (ps ++ [p]) =
          OrderedMap.set (recordOf ps) (p.name.map lowerUnit)
            ((unquote p.value).map lowerUnit) := by
        rw [recordOf, List.map_append, List.foldl_append]
        rfl
      rw [hstep, OrderedMap.get?_set, List.reverse_append, List.reverse_singleton,
        List.singleton_append, List.find?_cons]
      by_cases hname : p.name.map lowerUnit = name
      · rw [if_pos hname, decide_eq_true hname]
        rfl
      · rw [if_neg hname, decide_eq_false hname, ih]

def Quoted (value : JsString) : Prop :=
  ∃ inner, value = 34 :: (inner ++ [34]) ∨ value = 39 :: (inner ++ [39])

theorem unquote_between {q : CodeUnit} (h : q = 34 ∨ q = 39) (inner : JsString) :
    unquote (q :: (inner ++ [q])) = inner := by
  have hlast : (q :: (inner ++ [q])).getLast? = some q := by
    rw [← List.cons_append, List.getLast?_append, List.getLast?_singleton]
    rfl
  rw [unquote, if_pos, List.tail_cons, List.dropLast_concat]
  refine ⟨by simp, ?_⟩
  rw [hlast, List.head?_cons]
  rcases h with rfl | rfl
  · exact .inl ⟨rfl, rfl⟩
  · exact .inr ⟨rfl, rfl⟩

theorem unquote_bare {value : JsString} (h : ¬Quoted value) : unquote value = value := by
  rw [unquote, if_neg]
  rintro ⟨hlength, hends⟩
  apply h
  have hshape : ∀ q, value.head? = some q → value.getLast? = some q →
      ∃ inner, value = q :: (inner ++ [q]) := by
    intro q hhead hlast
    obtain ⟨rest, rfl⟩ := List.head?_eq_some_iff.mp hhead
    have hrest : rest ≠ [] := by
      rintro rfl
      simp at hlength
    rw [List.getLast?_cons_of_ne_nil hrest] at hlast
    obtain ⟨inner, rfl⟩ := List.getLast?_eq_some_iff.mp hlast
    exact ⟨inner, rfl⟩
  rcases hends with ⟨hhead, hlast⟩ | ⟨hhead, hlast⟩
  · obtain ⟨inner, hinner⟩ := hshape 34 hhead hlast
    exact ⟨inner, .inl hinner⟩
  · obtain ⟨inner, hinner⟩ := hshape 39 hhead hlast
    exact ⟨inner, .inr hinner⟩

theorem quoted_lower {value : JsString} (hlatin : ∀ c ∈ value, isLatin c = true)
    (h : Quoted (value.map lowerUnit)) : Quoted value := by
  have hback : ∀ {q : CodeUnit} {inner : JsString},
      (∀ c, isLatin c = true → lowerUnit c = q → c = q) →
      value.map lowerUnit = q :: (inner ++ [q]) → ∃ inner, value = q :: (inner ++ [q]) := by
    intro q inner hq heq
    obtain ⟨c, rest, rfl, hc, hrest⟩ := List.map_eq_cons_iff.mp heq
    obtain ⟨middle, last, rfl, -, hlast⟩ := List.map_eq_append_iff.mp hrest
    obtain ⟨d, tail, rfl, hd, htail⟩ := List.map_eq_cons_iff.mp hlast
    obtain rfl := List.map_eq_nil_iff.mp htail
    obtain rfl := hq c (hlatin c (by simp)) hc
    obtain rfl := hq d (hlatin d (by simp)) hd
    exact ⟨middle, rfl⟩
  obtain ⟨inner, h | h⟩ := h
  · obtain ⟨middle, hmiddle⟩ := hback (fun c hc => (lowerUnit_eq_quote hc).1.mp) h
    exact ⟨middle, .inl hmiddle⟩
  · obtain ⟨middle, hmiddle⟩ := hback (fun c hc => (lowerUnit_eq_quote hc).2.mp) h
    exact ⟨middle, .inr hmiddle⟩

/-- No double quote is left at the start of a value. -/
theorem head_unquote (p : Parameter) : (unquote p.value).head? ≠ some 34 := by
  have hfree : ∀ {t : JsString}, (34 : CodeUnit) ∉ t → t.head? ≠ some 34 :=
    fun h hhead => h (List.mem_of_head? hhead)
  rcases p.value_formed with htoken | ⟨body, hbody, hvalue⟩
  · have hmem := not_mem_token htoken (show isTokenChar 34 = false by decide)
    exact hfree fun h => hmem (unquote_mem h)
  · rw [hvalue, unquote_between (.inl rfl)]
    intro hhead
    cases hbody with
    | nil => cases hhead
    | text hc _ =>
        obtain rfl := Option.some.inj hhead
        cases hc
    | pair _ _ => exact absurd (Option.some.inj hhead) (by decide)

theorem head_recordOf {ps : List Parameter} {name value : JsString}
    (h : OrderedMap.get? (recordOf ps) name = some value) : value.head? ≠ some 34 := by
  rw [get?_recordOf] at h
  obtain ⟨p, -, rfl⟩ := Option.map_eq_some_iff.mp h
  rw [List.head?_map]
  intro hhead
  obtain ⟨c, hc, hquote⟩ := Option.map_eq_some_iff.mp hhead
  have hlatin := p.value_latin c (unquote_mem (List.mem_of_head? hc))
  rw [(lowerUnit_eq_quote hlatin).1.mp hquote] at hc
  exact head_unquote p hc

end Keala.Negotiation
