import Keala.Js.Number
import Keala.Js.Text

/-!
The values that `JSON.parse` returns. An object is its members, each name once.
-/

namespace Keala.Js

inductive Json
  | null
  | bool (value : Bool)
  | number (value : Number)
  | string (text : JsString)
  | array (items : List Json)
  | object (members : List (JsString × Json))

namespace Json

def text? : Json → Option JsString
  | string text => some text
  | _ => none

end Json

def memberText (members : List (JsString × Json)) (name : JsString) : Option JsString :=
  (members.lookup name).bind Json.text?

end Keala.Js
