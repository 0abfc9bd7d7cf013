import Keala.Js.Decoding
import Keala.Js.Trim

/-!
Decoding of query texts (`decode` of `src/utils/query.ts`): the whole text at
once, and where that fails run by run, with malformed escapes left as they are.
-/

namespace Keala.Http

open Keala.Js

/-- `decodeURIComponent` over one run of escapes, the run itself on failure. -/
def decodeRun (run : JsString) : JsString := (decodeURIComponent run).getD run

/-- The recovery scan with the escapes `run` in hand. -/
def recoverFrom : JsString → JsString → JsString
  | ch :: high :: low :: s, run =>
      if ch = percent && (isHexDigit high && isHexDigit low) then
        recoverFrom s (run ++ [ch, high, low])
      else decodeRun run ++ ch :: recoverFrom (high :: low :: s) []
  | ch :: s, run => decodeRun run ++ ch :: recoverFrom s []
  | [], run => decodeRun run

def replaceUnit (old new : CodeUnit) (text : JsString) : JsString :=
  text.map fun c => if c = old then new else c

def decode (input : JsString) : JsString :=
  let s := if 43 ∈ input then replaceUnit 43 32 input else input
  if percent ∉ s then s
  else
    match decodeURIComponent s with
    | some decoded => decoded
    | none => recoverFrom s []

example : decode (js "a+%zz%41%c3%a9%") = js "a %zzA" ++ [233] ++ js "%" := by decide +kernel

variable {a b text decoded run : JsString} {c : CodeUnit}

/-! ### The scan agrees with the decoder -/

theorem replaceUnit_of_notMem {old : CodeUnit} (h : old ∉ text) (new : CodeUnit) :
    replaceUnit old new text = text := by
  have hsame : ∀ d ∈ text, (if d = old then new else d) = id d := by
    intro d hd
    refine if_neg ?_
    rintro rfl
    exact h hd
  rw [replaceUnit, List.map_congr_left hsame, List.map_id]

theorem replaceUnit_append (old new : CodeUnit) (a b : JsString) :
    replaceUnit old new (a ++ b) = replaceUnit old new a ++ replaceUnit old new b :=
  List.map_append

theorem decodeRun_of_decodes (h : Decodes run decoded) : decodeRun run = decoded := by
  rw [decodeRun, decodeURIComponent_iff.mpr h, Option.getD_some]

@[simp] theorem decodeRun_nil : decodeRun [] = [] := rfl

/-- A unit that starts no escape and yet decodes stands for itself. -/
theorem Decodes.of_noEscape (h : Decodes (c :: text) decoded) (hc : NoEscape (c :: text)) :
    ∃ more, decoded = c :: more ∧ Decodes text more := by
  generalize hwhole : c :: text = whole at h
  cases h with
  | nil => cases hwhole
  | plain _ h =>
      cases hwhole
      exact ⟨_, rfl, h⟩
  | escape hchar h =>
      rw [NoEscape, hwhole] at hc
      simp [escaped, hc] at hchar

theorem recoverFrom_of_decodes (h : Decodes (run ++ text) decoded) (hrun : Escapes run) :
    recoverFrom text run = decoded := by
  induction text, run using recoverFrom.induct generalizing decoded with
  | case1 ch high low s run hescape ih =>
      rw [recoverFrom, if_pos hescape]
      simp only [Bool.and_eq_true, decide_eq_true_eq] at hescape
      obtain ⟨rfl, hhigh, hlow⟩ := hescape
      refine ih ?_ (hrun.append (.cons hhigh hlow .nil))
      rwa [List.append_assoc]
  | case2 ch high low s run hescape ih =>
      have hno : NoEscape (ch :: high :: low :: s) := by
        rw [NoEscape, ← Option.not_isSome_iff_eq_none, octet_isSome_iff]
        exact hescape
      obtain ⟨left, right, hleft, hright, rfl⟩ := h.split_run hrun hno
      obtain ⟨more, rfl, hmore⟩ := Decodes.of_noEscape hright hno
      rw [recoverFrom, if_neg hescape, decodeRun_of_decodes hleft, ih hmore .nil]
  | case3 ch s run hshort ih =>
      have hno : NoEscape (ch :: s) := by
        rcases s with _ | ⟨high, _ | ⟨low, rest⟩⟩
        · rfl
        · rfl
        · exact absurd rfl (hshort high low rest)
      obtain ⟨left, right, hleft, hright, rfl⟩ := h.split_run hrun hno
      obtain ⟨more, rfl, hmore⟩ := Decodes.of_noEscape hright hno
      rw [recoverFrom, decodeRun_of_decodes hleft, ih hmore .nil]
      exact hshort
  | case4 run =>
      rw [List.append_nil] at h
      rw [recoverFrom, decodeRun_of_decodes h]

/-- `decode` is the recovery scan behind the replacement of `+`. -/
theorem decode_eq (input : JsString) : decode input = recoverFrom (replaceUnit 43 32 input) [] := by
  have hplus : (if 43 ∈ input then replaceUnit 43 32 input else input) =
      replaceUnit 43 32 input := by
    split
    · rfl
    · next h => rw [replaceUnit_of_notMem h]
  rw [decode, hplus]
  split
  · next hplain => exact (recoverFrom_of_decodes (decodes_of_no_percent hplain) .nil).symm
  · split
    · next decoded hwhole =>
        exact (recoverFrom_of_decodes (decodeURIComponent_iff.mp hwhole) .nil).symm
    · rfl

/-! ### Malformed escapes -/

theorem recoverFrom_escape {high low : CodeUnit} (hhigh : isHexDigit high = true)
    (hlow : isHexDigit low = true) (text run : JsString) :
    recoverFrom (percent :: high :: low :: text) run =
      recoverFrom text (run ++ [percent, high, low]) := by
  rw [recoverFrom, if_pos (by simp [hhigh, hlow])]

theorem recoverFrom_cons (h : NoEscape (c :: text)) (run : JsString) :
    recoverFrom (c :: text) run = decodeRun run ++ c :: recoverFrom text [] := by
  rcases text with _ | ⟨high, _ | ⟨low, rest⟩⟩
  · rw [recoverFrom]
    rintro _ _ _ ⟨⟩
  · rw [recoverFrom]
    rintro _ _ _ ⟨⟩
  · rw [NoEscape, ← Option.not_isSome_iff_eq_none, octet_isSome_iff] at h
    rw [recoverFrom, if_neg h]

theorem noEscape_of_ne (h : c ≠ percent) (text : JsString) : NoEscape (c :: text) := by
  rcases text with _ | ⟨high, _ | ⟨low, rest⟩⟩
  · rfl
  · rfl
  · rw [NoEscape, octet, if_neg h]

theorem noEscape_high (hc : isHexDigit c = false) (d : CodeUnit) (text : JsString) :
    NoEscape (d :: c :: text) := by
  cases text with
  | nil => rfl
  | cons low rest =>
      rw [NoEscape, ← Option.not_isSome_iff_eq_none, octet_isSome_iff, hc]
      simp

theorem noEscape_low (hc : isHexDigit c = false) (d e : CodeUnit) (text : JsString) :
    NoEscape (d :: e :: c :: text) := by
  rw [NoEscape, ← Option.not_isSome_iff_eq_none, octet_isSome_iff, hc]
  simp

/-- The scan restarts at a malformed escape. -/
theorem recoverFrom_malformed (hc : isHexDigit c = false) (hnext : NoEscape (c :: b))
    (a run : JsString) :
    recoverFrom (a ++ percent :: c :: b) run =
      recoverFrom a run ++ percent :: c :: recoverFrom b [] := by
  have hpercent : isHexDigit percent = false := rfl
  have hrest : recoverFrom (c :: b) [] = c :: recoverFrom b [] := by
    rw [recoverFrom_cons hnext, decodeRun_nil, List.nil_append]
  induction a, run using recoverFrom.induct with
  | case1 ch high low s run hescape ih =>
      simp only [Bool.and_eq_true, decide_eq_true_eq] at hescape
      obtain ⟨rfl, hhigh, hlow⟩ := hescape
      rw [List.cons_append, List.cons_append, List.cons_append, recoverFrom_escape hhigh hlow,
        recoverFrom_escape hhigh hlow, ih]
  | case2 ch high low s run hescape ih =>
      have hno : ∀ more, NoEscape (ch :: high :: low :: more) := by
        intro more
        rw [NoEscape, ← Option.not_isSome_iff_eq_none, octet_isSome_iff]
        exact hescape
      rw [recoverFrom_cons (hno s), List.cons_append, List.cons_append, List.cons_append,
        recoverFrom_cons (hno _), ← List.cons_append, ← List.cons_append, ih, List.append_assoc,
        List.cons_append]
  | case3 ch s run hshort ih =>
      have hno : NoEscape (ch :: s) ∧ NoEscape (ch :: (s ++ percent :: c :: b)) := by
        rcases s with _ | ⟨high, _ | ⟨low, rest⟩⟩
        · exact ⟨rfl, noEscape_high hpercent ch (c :: b)⟩
        · exact ⟨rfl, noEscape_low hpercent ch high (c :: b)⟩
        · exact absurd rfl (hshort high low rest)
      rw [recoverFrom_cons hno.1, List.cons_append, recoverFrom_cons hno.2, ih, List.append_assoc,
        List.cons_append]
  | case4 run =>
      rw [List.nil_append, recoverFrom_cons (noEscape_high hc percent b), hrest, recoverFrom]

/-- A `%` before a unit that is no hexadecimal digit, no `+` and not the `%` of
an escape that goes on in the text behind. -/
structure Malformed (c : CodeUnit) (behind : JsString) : Prop where
  digit : isHexDigit c = false
  plus : c ≠ 43
  escape : NoEscape (c :: behind)

theorem isHexDigit_replace (d : CodeUnit) :
    isHexDigit (if d = 43 then 32 else d) = isHexDigit d := by
  split
  · next h =>
      subst h
      rfl
  · rfl

theorem Malformed.replace (h : Malformed c b) : NoEscape (c :: replaceUnit 43 32 b) := by
  by_cases hc : c = percent
  · subst hc
    have hno := h.escape
    rcases b with _ | ⟨high, _ | ⟨low, rest⟩⟩
    · rfl
    · rfl
    · rw [NoEscape, ← Option.not_isSome_iff_eq_none, octet_isSome_iff] at hno
      rw [replaceUnit, List.map_cons, List.map_cons, NoEscape, ← Option.not_isSome_iff_eq_none,
        octet_isSome_iff, isHexDigit_replace, isHexDigit_replace]
      exact hno
  · exact noEscape_of_ne hc _

/-- Around a malformed escape the two sides are decoded on their own, and where
the whole-text decoder succeeds the recovery scan gives its answer. -/
theorem decode_malformed (a b : JsString) (c : CodeUnit) (h : Malformed c b) :
    decode (a ++ [percent, c] ++ b) = decode a ++ [percent, c] ++ decode b ∧
      ∀ text decoded, decodeURIComponent text = some decoded → recoverFrom text [] = decoded := by
  refine ⟨?_, fun text decoded hwhole =>
    recoverFrom_of_decodes (decodeURIComponent_iff.mp hwhole) .nil⟩
  have hkept : replaceUnit 43 32 [percent, c] = [percent, c] := by
    refine replaceUnit_of_notMem ?_ 32
    simp only [List.mem_cons, List.not_mem_nil, or_false, not_or]
    exact ⟨by decide, Ne.symm h.plus⟩
  rw [decode_eq, decode_eq, decode_eq, replaceUnit_append, replaceUnit_append, hkept,
    List.append_assoc, List.append_assoc]
  exact recoverFrom_malformed h.digit h.replace _ _

theorem decode_malformed_z :
    decode (js "a%4" ++ [percent, 122] ++ js "%41+") =
        decode (js "a%4") ++ [percent, 122] ++ decode (js "%41+") ∧
      ∀ text decoded, decodeURIComponent text = some decoded → recoverFrom text [] = decoded :=
  decode_malformed _ _ _ ⟨rfl, by decide, rfl⟩

/-- The second `%` of `%%` starts the escape behind it. -/
theorem decode_double_percent :
    decode (js "" ++ [percent, percent] ++ js "41") ≠
      decode (js "") ++ [percent, percent] ++ decode (js "41") := by
  decide +kernel

end Keala.Http
