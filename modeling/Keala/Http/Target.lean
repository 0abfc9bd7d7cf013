import Keala.Js.Text
import Mathlib.Data.List.TakeWhile

/-!
The path and the query of a request target by scanning its text
(`src/utils/url.ts` and the readers of `src/core/context/request.ts`).
-/

namespace Keala.Http

open Keala.Js

def colonSlashSlash : JsString := js "://"

def endsAuthorityPart (c : CodeUnit) : Bool := c = 47 || c = 63 || c = 35

def getPathStart (url : JsString) : ℕ :=
  if url.head? = some slash then 0
  else
    match indexOfText colonSlashSlash url with
    | none => 0
    | some scheme =>
        scheme + 3 + ((url.drop (scheme + 3)).takeWhile fun c => !endsAuthorityPart c).length

def getPath (url : JsString) : JsString :=
  let path := (url.drop (getPathStart url)).takeWhile fun c => !(c = 63 || c = 35)
  if path = [] then [slash] else path

def getSearch (url : JsString) : JsString :=
  let limit := (indexOf url 35).getD url.length
  match indexOf url 63 with
  | none => []
  | some query => if limit < query then [] else (url.take limit).drop query

def contextUrl (target : JsString) : JsString := getPath target ++ getSearch target

def contextPath (target : JsString) : JsString := getPath (contextUrl target)

def contextQuerystring (target : JsString) : JsString :=
  match indexOf target 63 with
  | none => []
  | some query =>
      match indexOf target 35 with
      | none => target.drop (query + 1)
      | some hash => if hash < query then [] else (target.take hash).drop (query + 1)

/-- A path ends before the query. -/
theorem question_not_mem_getPath (url : JsString) : 63 ∉ getPath url := by
  rw [getPath]
  split
  · decide
  · intro h
    have hkept := List.mem_takeWhile_imp h
    simp at hkept

end Keala.Http
