import Keala.Http.Message
import Keala.Js.Trim

/-!
Field names and values: the checks of the source's `utils/text.ts`, and what
each write of a `Headers` does to the values of one name.
-/

namespace Keala.Http

open Keala.Js

variable {τ : Type}

/-! ### Checks -/

structure FieldText where
  lower : JsString → JsString
  /-- `JSON.stringify` of a text. -/
  quote : JsString → JsString

def FORBIDDEN_NAMES : List JsString := [js "__proto__", js "constructor", js "prototype"]

def isTokenChar (c : CodeUnit) : Bool :=
  (48 ≤ c && c ≤ 57) || (65 ≤ c && c ≤ 90) || (97 ≤ c && c ≤ 122) ||
    (js "!#$%&'*+-.^_`|~").contains c

def isToken (name : JsString) : Bool := decide (name ≠ []) && name.all isTokenChar

def validateHeaderName (text : FieldText) (name : JsString) : Except (Thrown τ) JsString :=
  if name ∈ FORBIDDEN_NAMES ∨ isToken name = false then
    .error (.typeError (js "Invalid header field name: " ++ text.quote name))
  else .ok (text.lower name)

def valueFault (c : CodeUnit) : Option String :=
  if c = 13 ∨ c = 10 ∨ c = 0 then some "CR/LF/NUL are not allowed"
  else if c < 32 ∧ c ≠ 9 ∨ c = 127 then some "control bytes are not field-content"
  else if 255 < c then some "values must be latin-1 (percent-encode the value instead)"
  else none

def validateHeaderValue (name value : JsString) : Except (Thrown τ) Unit :=
  match value.findSome? valueFault with
  | none => .ok ()
  | some fault =>
      .error (.typeError
        (js "Invalid character in header content of \"" ++ name ++ js "\": " ++ js fault))

def isValidCookieName (name : JsString) : Bool := isToken name

def isValidCookieValue (value : JsString) : Bool :=
  value.all fun c => !(c = 13 || c = 10 || c = 0 || (1 ≤ c && c ≤ 8) || (14 ≤ c && c ≤ 31))

/-! ### The values of one name -/

@[simp] theorem normalized_nil : normalized [] = [] := rfl

theorem normalized_normalized (value : JsString) :
    normalized (normalized value) = normalized value :=
  trimBy_trimBy isHttpSpace value

theorem mem_of_mem_normalized {c : CodeUnit} {value : JsString} (h : c ∈ normalized value) :
    c ∈ value :=
  mem_of_mem_trimBy h

/-- A value whose ends are no white space is stored as it is. -/
theorem normalized_eq_self {value : JsString} (hhead : ∀ c ∈ value.head?, isHttpSpace c = false)
    (hlast : ∀ c ∈ value.getLast?, isHttpSpace c = false) : normalized value = value :=
  trimBy_eq_self hhead hlast

namespace Headers

theorem values_append_entries (headers : Headers) (added : List (JsString × JsString))
    (n : JsString) :
    values { headers with entries := headers.entries ++ added } n =
      headers.values n ++ (added.filter fun entry => decide (entry.1 = n)).map Prod.snd := by
  rw [values, values, List.filter_append, List.map_append]

/-- Appending fails on an immutable guard only. -/
theorem append_eq (headers : Headers) (h : headers.immutable = false) (name value : JsString) :
    headers.append name value =
      (.ok { headers with entries := headers.entries ++ [(name, normalized value)] } :
        Except (Thrown τ) Headers) := by
  rw [append, h]
  rfl

theorem appendAll_eq (headers : Headers) (h : headers.immutable = false) (name : JsString)
    (added : List JsString) :
    headers.appendAll name added =
      (.ok { headers with
          entries := headers.entries ++ added.map fun value => (name, normalized value) } :
        Except (Thrown τ) Headers) := by
  induction added generalizing headers with
  | nil =>
      rw [appendAll, List.foldlM_nil, List.map_nil, List.append_nil]
      rfl
  | cons value added ih =>
      have hnext := ih { headers with entries := headers.entries ++ [(name, normalized value)] } h
      rw [List.append_assoc, List.singleton_append] at hnext
      rw [appendAll, List.foldlM_cons, append_eq headers h]
      exact hnext

theorem delete_eq (headers : Headers) (h : headers.immutable = false) (name : JsString) :
    headers.delete name =
      (.ok { headers with
          entries := headers.entries.filter fun entry => !decide (entry.1 = name) } :
        Except (Thrown τ) Headers) := by
  rw [delete, h]
  rfl

theorem set_eq (headers : Headers) (h : headers.immutable = false) (name value : JsString) :
    headers.set name value =
      (.ok { headers with entries := setEntries name (normalized value) headers.entries } :
        Except (Thrown τ) Headers) := by
  rw [set, h]
  rfl

theorem values_added (headers : Headers) (name : JsString) (added : List JsString)
    (n : JsString) :
    values
        { headers with
          entries := headers.entries ++ added.map fun value => (name, normalized value) } n =
      headers.values n ++ if name = n then added.map normalized else [] := by
  rw [values_append_entries]
  congr 1
  split
  · next heq => induction added <;> simp_all
  · next hne => simp [hne]

theorem values_deleted (headers : Headers) (name n : JsString) :
    values
        { headers with entries := headers.entries.filter fun entry => !decide (entry.1 = name) } n =
      if name = n then [] else headers.values n := by
  rw [values, List.filter_filter]
  split
  · next heq =>
      subst heq
      simp
  · next hne =>
      rw [values]
      congr 1
      apply List.filter_congr
      intro entry _
      by_cases hentry : entry.1 = n
      · simp [hentry, Ne.symm hne]
      · simp [hentry]

theorem filter_setEntries_self (name value : JsString) (entries : List (JsString × JsString)) :
    (setEntries name value entries).filter (fun entry => decide (entry.1 = name)) =
      [(name, value)] := by
  induction entries with
  | nil => simp [setEntries]
  | cons entry entries ih =>
      rw [setEntries]
      split
      · simp [List.filter_filter]
      · next hne =>
          rw [List.filter_cons_of_neg (by simpa using hne)]
          exact ih

theorem filter_setEntries_ne {name n : JsString} (h : name ≠ n) (value : JsString)
    (entries : List (JsString × JsString)) :
    (setEntries name value entries).filter (fun entry => decide (entry.1 = n)) =
      entries.filter fun entry => decide (entry.1 = n) := by
  induction entries with
  | nil => simp [setEntries, h]
  | cons entry entries ih =>
      rw [setEntries]
      split
      · next heq =>
          rw [List.filter_cons_of_neg (by simpa using h),
            List.filter_cons_of_neg (by simpa [heq] using h), List.filter_filter]
          apply List.filter_congr
          intro other _
          by_cases hother : other.1 = n
          · simp [hother, Ne.symm h]
          · simp [hother]
      · rw [List.filter_cons, List.filter_cons, ih]

theorem values_set (headers : Headers) (name value n : JsString) :
    values { headers with entries := setEntries name value headers.entries } n =
      if name = n then [value] else headers.values n := by
  rw [values]
  split
  · next heq =>
      subst heq
      rw [filter_setEntries_self]
      rfl
  · next hne => rw [filter_setEntries_ne hne, values]

end Headers

end Keala.Http
