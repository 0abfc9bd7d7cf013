import Keala.Plugins.BodyReaders
import Keala.Plugins.FormHeader

/-!
The part budget against the parser it stands in front of: for which headers
each body with more parts than the limit is refused.
-/

namespace Keala.Plugins

open Js Http Negotiation

/-! ### The search -/

section

variable {w : List UInt8}

theorem indexOfBytes_none_iff (bytes : List UInt8) :
    indexOfBytes w bytes = none ↔ ¬w <:+: bytes := by
  induction bytes with
  | nil => simp [indexOfBytes]
  | cons b bytes ih =>
      rw [indexOfBytes, List.infix_cons_iff, not_or, ← ih, ← List.isPrefixOf_iff_prefix]
      split
      · next h => simp [h]
      · next h => simp [h]

theorem indexOfBytes_some {bytes : List UInt8} {at' : ℕ} (h : indexOfBytes w bytes = some at') :
    w <+: bytes.drop at' ∧ ∀ j < at', ¬w <+: bytes.drop j := by
  induction bytes generalizing at' with
  | nil =>
      rw [indexOfBytes, Option.ite_none_right_eq_some] at h
      obtain ⟨rfl, h⟩ := h
      obtain rfl := Option.some.inj h
      exact ⟨List.nil_prefix, fun j hj => absurd hj (Nat.not_lt_zero j)⟩
  | cons b bytes ih =>
      rw [indexOfBytes] at h
      split at h
      · next hat =>
        obtain rfl := Option.some.inj h
        exact ⟨List.isPrefixOf_iff_prefix.mp hat, fun j hj => absurd hj (Nat.not_lt_zero j)⟩
      · next hat =>
        obtain ⟨i, hi, rfl⟩ := Option.map_eq_some_iff.mp h
        obtain ⟨hfound, hfirst⟩ := ih hi
        refine ⟨hfound, fun j hj => ?_⟩
        cases j with
        | zero => exact fun h => hat (List.isPrefixOf_iff_prefix.mpr h)
        | succ j => exact hfirst j (Nat.lt_of_succ_lt_succ hj)

theorem indexOfBytes_le {bytes : List UInt8} {k : ℕ} (h : w <+: bytes.drop k) :
    ∃ at' ≤ k, indexOfBytes w bytes = some at' := by
  cases hindex : indexOfBytes w bytes with
  | none =>
      exact absurd (h.isInfix.trans (List.drop_suffix k bytes).isInfix)
        ((indexOfBytes_none_iff bytes).mp hindex)
  | some at' =>
      refine ⟨at', ?_, rfl⟩
      by_contra hlt
      exact (indexOfBytes_some hindex).2 k (by omega) h

/-! ### The count -/

variable {s : ℕ}

theorem ne_nil_of_found (hw : w ≠ []) {bytes : List UInt8} {at' : ℕ}
    (h : indexOfBytes w bytes = some at') : bytes ≠ [] := by
  rintro rfl
  have hat := (indexOfBytes_some h).1
  rw [List.drop_nil, List.prefix_nil] at hat
  exact hw hat

theorem countFrom_fuel (hw : w ≠ []) (hs : 0 < s) {fuel fuel' : ℕ} {bytes : List UInt8}
    (h : bytes.length < fuel) (h' : bytes.length < fuel') :
    countFrom w s fuel bytes = countFrom w s fuel' bytes := by
  induction fuel generalizing fuel' bytes with
  | zero => exact absurd h (Nat.not_lt_zero _)
  | succ fuel ih =>
      obtain ⟨fuel', rfl⟩ := Nat.exists_eq_succ_of_ne_zero (Nat.ne_zero_of_lt h')
      rw [countFrom, countFrom]
      cases hindex : indexOfBytes w bytes with
      | none => rfl
      | some at' =>
          have hpos := List.length_pos_iff.mpr (ne_nil_of_found hw hindex)
          have hlength := List.length_drop (i := at' + s) (l := bytes)
          have hrest : countFrom w s fuel (bytes.drop (at' + s)) =
              countFrom w s fuel' (bytes.drop (at' + s)) := by
            apply ih
            · omega
            · omega
          dsimp only
          rw [hrest]

variable (w s) in
def occurrences (bytes : List UInt8) : ℕ := countFrom w s (bytes.length + 1) bytes

theorem occurrences_none {bytes : List UInt8} (h : ¬w <:+: bytes) : occurrences w s bytes = 0 := by
  rw [occurrences, countFrom, (indexOfBytes_none_iff bytes).mpr h]

theorem occurrences_found (hw : w ≠ []) (hs : 0 < s) {bytes : List UInt8} {at' : ℕ}
    (h : indexOfBytes w bytes = some at') :
    occurrences w s bytes = 1 + occurrences w s (bytes.drop (at' + s)) := by
  have hpos := List.length_pos_iff.mpr (ne_nil_of_found hw h)
  have hlength := List.length_drop (i := at' + s) (l := bytes)
  rw [occurrences, countFrom, h]
  dsimp only
  rw [countFrom_fuel hw hs (by omega) (Nat.lt_succ_self _), occurrences]

/-- From further on no more is found. -/
theorem occurrences_drop (hw : w ≠ []) (hs : 0 < s) (bytes : List UInt8) (k : ℕ) :
    occurrences w s (bytes.drop k) ≤ occurrences w s bytes := by
  induction hn : bytes.length using Nat.strongRecOn generalizing bytes k with
  | ind n ih =>
      cases hlater : indexOfBytes w (bytes.drop k) with
      | none =>
          rw [occurrences_none ((indexOfBytes_none_iff _).mp hlater)]
          exact Nat.zero_le _
      | some later =>
          have hat := (indexOfBytes_some hlater).1
          rw [List.drop_drop] at hat
          obtain ⟨at', hle, hindex⟩ := indexOfBytes_le hat
          have hpos := List.length_pos_iff.mpr (ne_nil_of_found hw hindex)
          have hlength := List.length_drop (i := at' + s) (l := bytes)
          -- the first match of the whole lies no further, and so does what is behind it
          have hrest := ih (bytes.drop (at' + s)).length (by omega) (bytes.drop (at' + s))
            (k + later - at') rfl
          rw [List.drop_drop, show at' + s + (k + later - at') = k + (later + s) by omega] at hrest
          rw [occurrences_found hw hs hlater, occurrences_found hw hs hindex, List.drop_drop]
          exact Nat.add_le_add_left hrest 1

theorem occurrences_suffix (hw : w ≠ []) (hs : 0 < s) {later bytes : List UInt8}
    (h : later <:+ bytes) : occurrences w s later ≤ occurrences w s bytes := by
  obtain ⟨front, rfl⟩ := h
  have hle := occurrences_drop hw hs (front ++ later) front.length
  rwa [List.drop_left] at hle

/-- An occurrence that stands apart from the rest is one more. -/
theorem occurrences_append (hw : w ≠ []) (hs : 0 < s) (hstep : s ≤ w.length)
    (front rest : List UInt8) :
    occurrences w s rest + 1 ≤ occurrences w s (front ++ w ++ rest) := by
  have hat : w <+: (front ++ w ++ rest).drop front.length := by
    rw [List.append_assoc, List.drop_left]
    exact List.prefix_append w rest
  obtain ⟨at', hle, hindex⟩ := indexOfBytes_le hat
  have hsuffix : rest <:+ (front ++ w ++ rest).drop (at' + s) := by
    rw [List.drop_append_of_le_length (by rw [List.length_append]; omega)]
    exact List.suffix_append _ rest
  have hrest := occurrences_suffix hw hs hsuffix
  rw [occurrences_found hw hs hindex]
  omega

/-- A delimiter with the needle in it counts once for each part, and once at the end. -/
theorem occurrences_parts (hw : w ≠ []) (hs : 0 < s) (hstep : s ≤ w.length) {d : List UInt8}
    (h : w <:+: d) (front rest : List UInt8) (parts : List (List UInt8)) :
    parts.length + 1 ≤ occurrences w s (front ++ parts.flatMap (d ++ ·) ++ d ++ rest) := by
  obtain ⟨left, right, rfl⟩ := h
  induction parts generalizing front with
  | nil =>
      have hone := occurrences_append hw hs hstep (front ++ left) (right ++ rest)
      rw [List.flatMap_nil, List.append_nil, List.length_nil]
      simp only [List.append_assoc] at hone ⊢
      omega
  | cons part parts ih =>
      have hone := occurrences_append hw hs hstep (front ++ left)
        (right ++ part ++ parts.flatMap (left ++ w ++ right ++ ·) ++ (left ++ w ++ right) ++ rest)
      have hrest := ih (right ++ part)
      rw [List.flatMap_cons, List.length_cons]
      simp only [List.append_assoc] at hone hrest ⊢
      omega

/-- A needle that is found no earlier than at the end is found once. -/
theorem occurrences_le_one (hw : w ≠ []) {front rest : List UInt8} (h : ¬w <:+: front)
    (hrest : rest.length ≤ s) (hs : 0 < s) : occurrences w s (front ++ rest) ≤ 1 := by
  cases hindex : indexOfBytes w (front ++ rest) with
  | none =>
      rw [occurrences_none ((indexOfBytes_none_iff _).mp hindex)]
      exact Nat.zero_le 1
  | some at' =>
      have hreach : front.length < at' + w.length := by
        by_contra hwithin
        apply h
        have hat := (indexOfBytes_some hindex).1
        rw [List.drop_append_of_le_length (by omega)] at hat
        have hwithin := List.prefix_of_prefix_length_le hat (List.prefix_append _ rest)
          (by rw [List.length_drop]; omega)
        exact hwithin.isInfix.trans (List.drop_suffix at' front).isInfix
      have hshort : ((front ++ rest).drop (at' + s)).length < w.length := by
        rw [List.length_drop, List.length_append]
        have := List.length_pos_iff.mpr hw
        omega
      rw [occurrences_found hw hs hindex, occurrences_none fun h => by
        have := h.length_le
        omega]

end

theorem countOccurrences_eq (bytes : List UInt8) (needle : JsString) :
    countOccurrences bytes needle = occurrences (utf8Bytes needle) needle.length bytes := rfl

theorem needle_pos (sought : JsString) : 0 < (js "--" ++ sought).length := by
  rw [List.length_append]
  exact Nat.add_pos_left (by decide) _

theorem delimiter_ne_nil {sought : JsString} (h : ∀ c ∈ sought, isLatin c = true) :
    delimiter sought ≠ [] := by
  rw [delimiter_latin h]
  exact List.cons_ne_nil _ _

/-! ### The parser -/

/-- The lines that begin with the delimiter cut the body into these parts, each from behind its
delimiter on; two dashes behind the last one close the body. -/
def SplitsInto (delimiter body : List UInt8) (parts : List (List UInt8)) : Prop :=
  ∃ preamble epilogue,
    body = preamble ++ parts.flatMap (delimiter ++ ·) ++ delimiter ++ (45 :: 45 :: epilogue) ∧
    (∀ b ∈ preamble.getLast?, b = 10) ∧ ∀ part ∈ parts, part.getLast? = some 10

/-- The fields of an urlencoded body: what stands between ampersands, if anything does. -/
def formFields (body : List UInt8) : List (List UInt8) := (body.splitOn 38).filter (· ≠ [])

/-- So many entries a parser may make of a body. It takes the boundary that the grammar gives the
header, which has to be there, and may pass over lines that begin with the delimiter. -/
inductive Produces (T : ContentType) (body : List UInt8) : ℕ → Prop
  | multipart {boundary : JsString} {parts : List (List UInt8)}
      (htype : T.type.map lowerUnit = js "multipart") (hboundary : T.boundary = some boundary)
      (hne : boundary ≠ []) (hparts : SplitsInto (delimiter boundary) body parts) :
      Produces T body parts.length
  | urlencoded (htype : T.essence.map lowerUnit = js "application/x-www-form-urlencoded") :
      Produces T body (formFields body).length

/-- Whatever the body, more entries than the limit are refused before they are made. -/
def FailsClosed (lower : JsString → JsString) (contentType : JsString) (limit : Number) : Prop :=
  ∀ T : ContentType, T.render = contentType → (∀ boundary ∈ T.boundary, boundary.length ≤ 1024) →
    ∀ body n, Produces T body n → limit.lt (.ofNat n) = true →
      ∃ e, assertFormPartBudget lower body contentType limit = .error e ∧ e.status = 413

/-- The boundary of a multipart type is one whose delimiters the scan finds. -/
def BoundaryReadAlike (contentType : JsString) : Prop :=
  ∀ T : ContentType, T.render = contentType → T.type.map lowerUnit = js "multipart" →
    ∀ p ∈ T.boundaryParameter, p.meaning ≠ [] → p.meaning.length ≤ 1024 → ReadAlike p.value

/-! ### The branches of the check -/

namespace ContentType

theorem essence_latin (T : ContentType) : ∀ c ∈ T.essence, isLatin c = true := by
  rw [essence, List.forall_mem_append, List.forall_mem_cons]
  exact ⟨latin_of_token T.type_token, rfl, latin_of_token T.subtype_token⟩

theorem render_latin (T : ContentType) : ∀ c ∈ T.render, isLatin c = true := by
  rw [render, List.forall_mem_append]
  refine ⟨T.essence_latin, fun c hc => ?_⟩
  obtain ⟨s, -, hc⟩ := List.mem_flatMap.mp hc
  have hparam : ∀ c ∈ s.param.elim [] HeaderParameter.text, isLatin c = true := by
    cases s.param with
    | none => exact fun c hc => absurd hc List.not_mem_nil
    | some p =>
        rw [Option.elim_some, HeaderParameter.text, List.forall_mem_append, List.forall_mem_cons]
        exact ⟨latin_of_token p.name_token, rfl, p.value_latin⟩
  have hsegment : ∀ c ∈ s.render, isLatin c = true := by
    rw [HeaderSegment.render, HeaderSegment.text, List.forall_mem_append, List.forall_mem_cons,
      List.forall_mem_append]
    exact ⟨latin_of_ows s.before_blank, rfl, latin_of_ows s.after_blank, hparam⟩
  exact hsegment c hc

end ContentType

variable {lower : JsString → JsString}

theorem lower_render (hlower : LowersLatin lower) (T : ContentType) :
    ∃ rest, lower T.render = T.essence.map lowerUnit ++ rest := by
  rw [hlower T.render T.render_latin, ContentType.render, List.map_append]
  exact ⟨_, rfl⟩

theorem startsWith_multipart (hlower : LowersLatin lower) {T : ContentType}
    (h : T.type.map lowerUnit = js "multipart") :
    startsWith (lower T.render) (js "multipart/") = true := by
  obtain ⟨rest, hrest⟩ := lower_render hlower T
  rw [startsWith_iff, hrest, ContentType.essence, List.map_append, h]
  exact ⟨T.subtype.map lowerUnit ++ rest, rfl⟩

theorem startsWith_urlencoded (hlower : LowersLatin lower) {T : ContentType}
    (h : T.essence.map lowerUnit = js "application/x-www-form-urlencoded") :
    startsWith (lower T.render) (js "multipart/") = false ∧
      startsWith (lower T.render) (js "application/x-www-form-urlencoded") = true := by
  obtain ⟨rest, hrest⟩ := lower_render hlower T
  rw [hrest, h]
  constructor
  · rfl
  · exact startsWith_iff.mpr ⟨rest, rfl⟩

/-- A multipart body is refused for the occurrences of the boundary that is sought. -/
theorem assertFormPartBudget_multipart (hlower : LowersLatin lower) {T : ContentType}
    (htype : T.type.map lowerUnit = js "multipart") {p : HeaderParameter}
    (hp : T.boundaryParameter = some p) (body : List UInt8) (limit : Number) :
    assertFormPartBudget lower body T.render limit =
      if unquote p.value = [] ∨ 1024 < (unquote p.value).length then .ok ()
      else
        let parts : ℤ := countOccurrences body (js "--" ++ unquote p.value) - 1
        if limit.lt (.finite parts) then .error (.tooManyParts parts) else .ok () := by
  rw [assertFormPartBudget, if_pos (startsWith_multipart hlower htype), boundaryOf_render hlower,
    hp, Option.bind_some]
  by_cases hsought : unquote p.value = [] ∨ 1024 < (unquote p.value).length
  · rw [if_pos hsought, if_pos hsought]
  · rw [if_neg hsought, if_neg hsought]

/-! ### A body that gets past -/

def emptyField : List UInt8 :=
  utf8Bytes (js "\r\nContent-Disposition: form-data; name=\"f\"\r\n\r\n\r\n")

def fieldsBody (delimiter : List UInt8) (n : ℕ) : List UInt8 :=
  (List.replicate n emptyField).flatMap (delimiter ++ ·) ++ delimiter

theorem infix_of_not_mem {α : Type} {w x y : List α} {c : α} (hc : c ∉ w)
    (h : w <:+: x ++ c :: y) : w <:+: x ∨ w <:+: y := by
  rcases List.infix_append_iff.mp h with h | h | ⟨left, right, rfl, hleft, hright⟩
  · exact .inl h
  · rcases List.infix_cons_iff.mp h with h | h
    · cases w with
      | nil => exact .inl (List.nil_infix)
      | cons b w =>
          obtain ⟨rfl, -⟩ := List.cons_prefix_cons.mp h
          exact absurd List.mem_cons_self hc
    · exact .inr h
  · cases right with
    | nil =>
        rw [List.append_nil]
        exact .inl hleft.isInfix
    | cons b right =>
        obtain ⟨rfl, -⟩ := List.cons_prefix_cons.mp hright
        exact absurd (List.mem_append_right left List.mem_cons_self) hc

theorem emptyField_eq : ∃ lines, emptyField = 13 :: (lines ++ [10]) ∧ ¬[45, 45] <:+: lines :=
  ⟨(emptyField.drop 1).dropLast, by decide +kernel, by decide +kernel⟩

/-- What is sought on one line is in no such body that does not have it in its delimiters. -/
theorem not_infix_fieldsBody {w d : List UInt8} (hdashes : [45, 45] <+: w)
    (hbreak : 10 ∉ w ∧ 13 ∉ w) (h : ¬w <:+: d) (n : ℕ) : ¬w <:+: fieldsBody d n := by
  obtain ⟨lines, hlines, hfree⟩ := emptyField_eq
  induction n with
  | zero => exact h
  | succ n ih =>
      have hshape : fieldsBody d (n + 1) = d ++ 13 :: (lines ++ 10 :: fieldsBody d n) := by
        have hcons : fieldsBody d (n + 1) = d ++ emptyField ++ fieldsBody d n := by
          rw [fieldsBody, List.replicate_succ, List.flatMap_cons, List.append_assoc]
          rfl
        rw [hcons, hlines]
        simp only [List.append_assoc, List.cons_append, List.nil_append]
      rw [hshape]
      intro hin
      rcases infix_of_not_mem hbreak.2 hin with hin | hin
      · exact h hin
      · rcases infix_of_not_mem hbreak.1 hin with hin | hin
        · exact hfree (hdashes.isInfix.trans hin)
        · exact ih hin

theorem splitsInto_fieldsBody (d : List UInt8) (n : ℕ) :
    SplitsInto d (fieldsBody d n ++ [45, 45]) (List.replicate n emptyField) := by
  obtain ⟨lines, hlines, -⟩ := emptyField_eq
  refine ⟨[], [], ?_, ?_, ?_⟩
  · rw [fieldsBody, List.nil_append]
  · exact fun b hb => absurd hb (by simp)
  · intro part hpart
    rw [(List.mem_replicate.mp hpart).2, hlines, ← List.cons_append, List.getLast?_append]
    rfl

/-- The scan for a boundary that is not read alike counts at most one occurrence. -/
theorem countOccurrences_fieldsBody {sought : JsString} {d : List UInt8}
    (hlatin : ∀ c ∈ sought, isLatin c = true) (hbreak : ∀ c ∈ sought, c ≠ 10 ∧ c ≠ 13)
    (h : ¬delimiter sought <:+: d) (n : ℕ) :
    countOccurrences (fieldsBody d n ++ [45, 45]) (js "--" ++ sought) ≤ 1 := by
  have hshape := delimiter_latin hlatin
  have hunbroken : 10 ∉ delimiter sought ∧ 13 ∉ delimiter sought := by
    have hbytes : ∀ b ∈ sought.flatMap latinBytes, b ≠ 10 ∧ b ≠ 13 := by
      intro b hb
      obtain ⟨c, hc, hb⟩ := List.mem_flatMap.mp hb
      obtain ⟨hten, hthirteen⟩ := latinBytes_break (hlatin c hc) (hbreak c hc)
      exact ⟨ne_of_mem_of_not_mem hb hten, ne_of_mem_of_not_mem hb hthirteen⟩
    rw [hshape]
    simp only [List.mem_cons, not_or]
    exact ⟨⟨by decide, by decide, fun hb => (hbytes 10 hb).1 rfl⟩,
      ⟨by decide, by decide, fun hb => (hbytes 13 hb).2 rfl⟩⟩
  have hdashes : [45, 45] <+: delimiter sought := by
    rw [hshape]
    exact List.prefix_append [45, 45] _
  rw [countOccurrences_eq]
  apply occurrences_le_one (delimiter_ne_nil hlatin)
  · exact not_infix_fieldsBody hdashes hunbroken h n
  · rw [List.length_append]
    exact Nat.le_add_right 2 sought.length
  · exact needle_pos sought

/-! ### Urlencoded bodies -/

theorem occurrences_unit_cons (b : UInt8) (bytes : List UInt8) :
    occurrences [38] 1 (b :: bytes) = occurrences [38] 1 bytes + if b = 38 then 1 else 0 := by
  have hne : [(38 : UInt8)] ≠ [] := List.cons_ne_nil 38 []
  by_cases hb : b = 38
  · have hindex : indexOfBytes [38] (b :: bytes) = some 0 := by
      rw [indexOfBytes, hb]
      rfl
    rw [occurrences_found hne Nat.one_pos hindex, if_pos hb, Nat.add_comm]
    rfl
  · have hindex : indexOfBytes [38] (b :: bytes) = (indexOfBytes [38] bytes).map (· + 1) := by
      rw [indexOfBytes, if_neg]
      rw [List.isPrefixOf_iff_prefix, List.cons_prefix_cons]
      exact fun h => hb h.1.symm
    rw [if_neg hb, Nat.add_zero]
    cases hrest : indexOfBytes [38] bytes with
    | none =>
        rw [hrest, Option.map_none] at hindex
        rw [occurrences_none ((indexOfBytes_none_iff _).mp hindex),
          occurrences_none ((indexOfBytes_none_iff _).mp hrest)]
    | some at' =>
        rw [hrest, Option.map_some] at hindex
        rw [occurrences_found hne Nat.one_pos hindex, occurrences_found hne Nat.one_pos hrest]
        rfl

theorem length_splitOn (bytes : List UInt8) :
    (bytes.splitOn 38).length = occurrences [38] 1 bytes + 1 := by
  induction bytes with
  | nil => rfl
  | cons b bytes ih =>
      rw [List.splitOn_cons_eq_if_modifyHead, occurrences_unit_cons]
      by_cases hb : b = 38
      · rw [if_pos hb, if_pos (by simpa using hb), List.length_cons, ih]
      · rw [if_neg hb, if_neg (by simpa using hb), List.length_modifyHead, ih]

/-- The check counts a field in front of each ampersand and one behind the last. -/
theorem length_formFields (bytes : List UInt8) :
    ((formFields bytes).length : ℤ) ≤
      if bytes = [] then 0 else (countOccurrences bytes (js "&") : ℤ) + 1 := by
  split
  · next h =>
    rw [h]
    decide
  · have hle := List.length_filter_le (fun field : List UInt8 => field ≠ []) (bytes.splitOn 38)
    rw [length_splitOn] at hle
    have hcount : countOccurrences bytes (js "&") = occurrences [38] 1 bytes := rfl
    rw [hcount]
    exact_mod_cast hle

/-! ### Which headers fail closed -/

theorem exists_of_isLimit {limit : Number} (h : isLimit limit = true) :
    ∃ q : ℚ, limit = .finite q ∧ 0 ≤ q := by
  cases limit with
  | finite q => exact ⟨q, rfl, of_decide_eq_true h⟩
  | nan => cases h
  | infinity => cases h
  | negInfinity => cases h

theorem lt_of_lt_of_le {limit : Number} (hlimit : isLimit limit = true) {n : ℕ} {parts : ℤ}
    (h : limit.lt (.ofNat n) = true) (hle : (n : ℤ) ≤ parts) :
    limit.lt (.finite parts) = true := by
  obtain ⟨q, rfl, -⟩ := exists_of_isLimit hlimit
  rw [Number.ofNat, Number.lt_finite, decide_eq_true_eq] at h
  rw [Number.lt_finite, decide_eq_true_eq]
  exact h.trans_le (by exact_mod_cast hle)

theorem refused_of_readAlike (hlower : LowersLatin lower) {T : ContentType}
    (htype : T.type.map lowerUnit = js "multipart") {p : HeaderParameter}
    (hp : T.boundaryParameter = some p) (hne : p.meaning ≠ []) (hlength : p.meaning.length ≤ 1024)
    (halike : ReadAlike p.value) {limit : Number} (hlimit : isLimit limit = true)
    {body : List UInt8} {parts : List (List UInt8)}
    (hparts : SplitsInto (delimiter p.meaning) body parts)
    (hover : limit.lt (.ofNat parts.length) = true) :
    ∃ e, assertFormPartBudget lower body T.render limit = .error e ∧ e.status = 413 := by
  obtain ⟨hsought, hshort, hinfix⟩ := (readAlike_iff p hne hlength).mp halike
  obtain ⟨preamble, epilogue, rfl, -, -⟩ := hparts
  have hlatin : ∀ c ∈ unquote p.value, isLatin c = true := fun c hc =>
    p.value_latin c (unquote_mem hc)
  have hcount : parts.length + 1 ≤ countOccurrences
      (preamble ++ parts.flatMap (delimiter p.meaning ++ ·) ++ delimiter p.meaning ++
        (45 :: 45 :: epilogue)) (js "--" ++ unquote p.value) := by
    rw [countOccurrences_eq]
    exact occurrences_parts (delimiter_ne_nil hlatin) (needle_pos _) (length_delimiter hlatin)
      hinfix _ _ _
  rw [assertFormPartBudget_multipart hlower htype hp, if_neg (by simp [hsought, hshort])]
  dsimp only
  rw [if_pos (lt_of_lt_of_le hlimit hover (by omega))]
  exact ⟨_, rfl, rfl⟩

theorem passes_of_not_readAlike (hlower : LowersLatin lower) {T : ContentType}
    (htype : T.type.map lowerUnit = js "multipart") {p : HeaderParameter}
    (hp : T.boundaryParameter = some p) (hne : p.meaning ≠ []) (hlength : p.meaning.length ≤ 1024)
    (halike : ¬ReadAlike p.value) {limit : Number} (hlimit : isLimit limit = true) (n : ℕ) :
    assertFormPartBudget lower (fieldsBody (delimiter p.meaning) n ++ [45, 45]) T.render limit =
      .ok () := by
  rw [assertFormPartBudget_multipart hlower htype hp]
  split
  · rfl
  · next hsought =>
    rw [not_or, not_lt] at hsought
    have hinfix : ¬delimiter (unquote p.value) <:+: delimiter p.meaning := fun h =>
      halike ((readAlike_iff p hne hlength).mpr ⟨hsought.1, hsought.2, h⟩)
    have hcount := countOccurrences_fieldsBody
      (fun c hc => p.value_latin c (unquote_mem hc))
      (fun c hc => p.value_unbroken c (unquote_mem hc)) hinfix n
    obtain ⟨q, rfl, hq⟩ := exists_of_isLimit hlimit
    dsimp only
    rw [Number.lt_finite, if_neg]
    rw [decide_eq_true_eq, not_lt]
    refine le_trans ?_ hq
    exact_mod_cast (by omega : (countOccurrences (fieldsBody (delimiter p.meaning) n ++ [45, 45])
      (js "--" ++ unquote p.value) : ℤ) - 1 ≤ 0)

theorem failsClosed_iff (hlower : LowersLatin lower) (contentType : JsString) {limit : Number}
    (hlimit : isLimit limit = true) :
    FailsClosed lower contentType limit ↔ BoundaryReadAlike contentType := by
  constructor
  · rintro hclosed T hrender htype p hp hne hlength
    by_contra halike
    obtain ⟨q, rfl, -⟩ := exists_of_isLimit hlimit
    -- one field more than the limit lets through
    obtain ⟨n, hn⟩ : ∃ n : ℕ, q < n := ⟨⌊q⌋₊ + 1, by exact_mod_cast Nat.lt_floor_add_one q⟩
    have hboundary : T.boundary = some p.meaning := by
      rw [ContentType.boundary, hp, Option.map_some]
    have hproduces : Produces T (fieldsBody (delimiter p.meaning) n ++ [45, 45]) n := by
      have hparts := Produces.multipart htype hboundary hne
        (splitsInto_fieldsBody (delimiter p.meaning) n)
      rwa [List.length_replicate] at hparts
    have hshort : ∀ boundary ∈ T.boundary, boundary.length ≤ 1024 := by
      rw [hboundary]
      rintro boundary hb
      obtain rfl := Option.some.inj hb
      exact hlength
    obtain ⟨e, he, -⟩ := hclosed T hrender hshort _ n hproduces
      (by rw [Number.ofNat, Number.lt_finite]; exact decide_eq_true hn)
    subst hrender
    rw [passes_of_not_readAlike hlower htype hp hne hlength halike hlimit] at he
    cases he
  · rintro halike T rfl hshort body n hproduces hover
    cases hproduces with
    | multipart htype hboundary hne hparts =>
        obtain ⟨p, hp, rfl⟩ := Option.map_eq_some_iff.mp hboundary
        have hlength := hshort p.meaning hboundary
        exact refused_of_readAlike hlower htype hp hne hlength
          (halike T rfl htype p hp hne hlength) hlimit hparts hover
    | urlencoded htype =>
        obtain ⟨hother, hurlencoded⟩ := startsWith_urlencoded hlower htype
        rw [assertFormPartBudget, if_neg (by rw [hother]; exact Bool.false_ne_true),
          if_pos hurlencoded]
        dsimp only
        rw [if_pos (lt_of_lt_of_le hlimit hover (length_formFields body))]
        exact ⟨_, rfl, rfl⟩

theorem failsClosed_quoted :
    FailsClosed (List.map lowerUnit) (js "multipart/form-data; boundary=\"a;b\"")
      (.finite 1000) := by
  refine (failsClosed_iff lowersLatin_map _ (by decide)).mpr ?_
  intro T hrender _ p hp _ _
  have hparams := contentTypeParameters_params lowersLatin_map T
  rw [hrender] at hparams
  have hmem : (p.name.map lowerUnit, unquote p.value) ∈ [(js "boundary", js "a;b")] := by
    rw [show [(js "boundary", js "a;b")] = _ from hparams]
    exact List.mem_map_of_mem (List.mem_of_find?_eq_some hp)
  have hvalue : unquote p.value = js "a;b" := (Prod.mk.inj (List.mem_singleton.mp hmem)).2
  rcases p.value_formed with htoken | ⟨body, -, hquoted⟩
  · have hsemicolon : (59 : CodeUnit) ∈ unquote p.value := by
      rw [hvalue]
      decide
    exact absurd (unquote_mem hsemicolon) (not_mem_token htoken (by decide))
  · rw [hquoted, unquote_between (.inl rfl)] at hvalue
    rw [hquoted, readAlike_quoted, hvalue]
    decide

def apostropheType : ContentType where
  type := js "multipart"
  subtype := js "form-data"
  type_token := by decide
  subtype_token := by decide
  segments := [{
    before := []
    after := js " "
    param := some ⟨js "boundary", js "'abc'", by decide, .inl (by decide)⟩
    before_blank := blank_nil
    after_blank := List.all_eq_true.mp (by decide) }]

/-- Two fields get past a budget of one, for the scan seeks `--abc` where the lines begin with
`--'abc'`. -/
theorem not_failsClosed_apostrophes :
    ¬FailsClosed (List.map lowerUnit) (js "multipart/form-data; boundary='abc'") (.finite 1) := by
  intro h
  have hboundary : apostropheType.boundary = some (js "'abc'") := by decide +kernel
  have hproduces : Produces apostropheType
      (fieldsBody (delimiter (js "'abc'")) 2 ++ [45, 45]) 2 :=
    Produces.multipart (by decide +kernel) hboundary (by decide) (splitsInto_fieldsBody _ 2)
  have hshort : ∀ boundary ∈ apostropheType.boundary, boundary.length ≤ 1024 := by
    rw [hboundary]
    decide
  obtain ⟨e, he, -⟩ := h apostropheType (by decide +kernel) hshort _ 2 hproduces (by decide +kernel)
  have hpasses : assertFormPartBudget (List.map lowerUnit)
      (fieldsBody (delimiter (js "'abc'")) 2 ++ [45, 45])
      (js "multipart/form-data; boundary='abc'") (.finite 1) = .ok () := by
    decide +kernel
  rw [hpasses] at he
  cases he

end Keala.Plugins
