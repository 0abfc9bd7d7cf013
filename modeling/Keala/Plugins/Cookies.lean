import Mathlib.Data.Int.Notation
import Mathlib.Data.Rat.Cast.Defs
import Keala.Http.Fields
import Keala.Js.Uri

/-!
Cookies: parsing, serialization, signing with key rotation, and the facade
behind `c.cookies`. The source's `plugins/cookies/cookies.ts`.
-/

namespace Keala.Plugins

open Keala.Js Keala.Http

/-- What the cookie code calls of its runtime. Keys are the application's own. -/
structure CookiePlatform (κ : Type) where
  /-- `createHmac("sha256", key).update(value).digest()`. -/
  hmac : κ → JsString → List UInt8
  /-- `Buffer.from(text, "base64url")`. -/
  fromBase64Url : JsString → List UInt8
  lower : JsString → JsString
  /-- `toUTCString` of a time in milliseconds. -/
  toUTCString : ℤ → JsString
  /-- `JSON.stringify` of a text. -/
  quote : JsString → JsString

inductive CookieError
  | typeError (message : JsString)
  | error (message : JsString)
  /-- A lone surrogate in a value. -/
  | uriError
  deriving DecidableEq

/-! ### Options -/

inductive MaxAge
  | notFinite
  | seconds (value : ℚ)

inductive Expires
  | notDate
  | invalidDate
  | time (milliseconds : ℤ)

inductive SameSite
  | flag (on : Bool)
  | mode (text : JsString)

/-- `none` is an option left out. -/
structure CookieOptions where
  maxAge : Option MaxAge := none
  expires : Option Expires := none
  path : Option JsString := none
  domain : Option JsString := none
  secure : Option Bool := none
  httpOnly : Option Bool := none
  sameSite : Option SameSite := none
  signed : Option Bool := none
  overwrite : Option Bool := none
  partitioned : Option Bool := none
  priority : Option JsString := none

def maxCookieAgeSeconds : ℕ := 400 * 24 * 60 * 60

def maxCookieAgeMs : ℕ := maxCookieAgeSeconds * 1000

/-! ### Signing -/

def base64Digit (n : ℕ) : CodeUnit :=
  if n < 26 then (65 + n).toUInt16
  else if n < 52 then (71 + n).toUInt16
  else if n < 62 then (n - 4).toUInt16
  else if n = 62 then 45
  else 95

/-- Without padding. -/
def base64Url : List UInt8 → JsString
  | [] => []
  | [a] => [base64Digit (a.toNat / 4), base64Digit (a.toNat % 4 * 16)]
  | [a, b] =>
      [base64Digit (a.toNat / 4), base64Digit (a.toNat % 4 * 16 + b.toNat / 16),
        base64Digit (b.toNat % 16 * 4)]
  | a :: b :: c :: rest =>
      [base64Digit (a.toNat / 4), base64Digit (a.toNat % 4 * 16 + b.toNat / 16),
        base64Digit (b.toNat % 16 * 4 + c.toNat / 64), base64Digit (c.toNat % 64)] ++
        base64Url rest

variable {κ : Type}

def sign (platform : CookiePlatform κ) (value : JsString) (key : κ) : JsString :=
  value ++ js "." ++ base64Url (platform.hmac key value)

/-- Verify against any key; `none` is `false`. -/
def unsign (platform : CookiePlatform κ) (signed : JsString) (keys : List κ) : Option JsString :=
  match lastIndexOf signed 46 with
  | none => none
  | some dot =>
      let value := signed.take dot
      let digest := platform.fromBase64Url (signed.drop (dot + 1))
      if keys.any fun key => decide (digest = platform.hmac key value) then some value else none

/-! ### Parsing -/

def isHeaderWs (c : CodeUnit) : Bool := c = 32 || c = 9 || c = 13 || c = 10

def trimHeaderWs (value : JsString) : JsString :=
  ((value.dropWhile isHeaderWs).reverse.dropWhile isHeaderWs).reverse

def tryDecode (input : JsString) : JsString :=
  if percent ∈ input then (decodeURIComponent input).getD input else input

def parsePart (part : JsString) : Option (JsString × JsString) :=
  let eq := indexOf part 61
  let name := trimHeaderWs (eq.elim part part.take)
  if !isValidCookieName name then none
  else
    let raw := eq.elim [] fun eq => trimHeaderWs (part.drop (eq + 1))
    if raw.head? = some 34 ∧ raw.getLast? = some 34 ∧ 2 ≤ raw.length then
      some (name, tryDecode raw.tail.dropLast)
    else some (name, tryDecode raw)

/-- The assignments to the record, in order. -/
def parseCookies (header : Option JsString) : List (JsString × JsString) :=
  (split 59 (header.getD [])).filterMap parsePart

/-- A property of the record: its last assignment. -/
def readJar (jar : List (JsString × JsString)) (name : JsString) : Option JsString :=
  (jar.reverse.find? fun entry => decide (entry.1 = name)).map Prod.snd

/-! ### Serializing -/

def assertHeaderSafe (platform : CookiePlatform κ) (what : String) (value : JsString) :
    Except CookieError Unit :=
  if value.any fun c => c = 13 || c = 10 || c = 0 || c = 59 then
    .error (.typeError (js "Invalid " ++ js what ++ js ": " ++ platform.quote value))
  else .ok ()

def maxAgeAttribute : Option MaxAge → Except CookieError JsString
  | none => .ok []
  | some .notFinite => .error (.typeError (js "cookie maxAge must be a finite number"))
  | some (.seconds value) =>
      if (maxCookieAgeSeconds : ℚ) < value ∨ value < -(maxCookieAgeSeconds : ℚ) then
        .error (.typeError (js "cookie maxAge cannot exceed 400 days"))
      else .ok (js "; Max-Age=" ++ js (toString (value.num.tdiv value.den)))

def expiresAttribute (platform : CookiePlatform κ) (now : ℤ) :
    Option Expires → Except CookieError JsString
  | none => .ok []
  | some .notDate => .error (.typeError (js "cookie expires must be a Date"))
  | some .invalidDate => .error (.typeError (js "cookie expires must be a valid Date"))
  | some (.time expiry) =>
      if maxCookieAgeMs < expiry - now then
        .error (.typeError (js "cookie expires cannot exceed 400 days out"))
      else .ok (js "; Expires=" ++ platform.toUTCString expiry)

def domainAttribute (platform : CookiePlatform κ) : Option JsString → Except CookieError JsString
  | none => .ok []
  | some domain => do
      assertHeaderSafe platform "cookie domain" domain
      pure (js "; Domain=" ++ domain)

/-- The path is "/" unless it is given; an empty one leaves the attribute out. -/
def pathAttribute (platform : CookiePlatform κ) (path : Option JsString) :
    Except CookieError JsString :=
  let path := path.getD (js "/")
  if path = [] then .ok []
  else do
    assertHeaderSafe platform "cookie path" path
    pure (js "; Path=" ++ path)

def capitalized : JsString → JsString
  | [] => []
  | c :: word => (c - 32) :: word

/-- An option whose lowercased text must be one of a few words. -/
def wordAttribute (platform : CookiePlatform κ) (label option : String) (words : List String)
    (given : JsString) : Except CookieError JsString :=
  let word := platform.lower given
  if (words.map js).contains word then .ok (js label ++ capitalized word)
  else
    .error (.typeError
      (js "Invalid cookie option " ++ js option ++ js ": " ++ platform.quote given))

def priorityAttribute (platform : CookiePlatform κ) : Option JsString → Except CookieError JsString
  | none => .ok []
  | some priority =>
      wordAttribute platform "; Priority=" "priority" ["low", "medium", "high"] priority

def sameSiteAttribute (platform : CookiePlatform κ) : Option SameSite → Except CookieError JsString
  | none | some (.flag false) => .ok []
  | some (.flag true) =>
      wordAttribute platform "; SameSite=" "sameSite" ["strict", "lax", "none"] (js "strict")
  | some (.mode mode) =>
      wordAttribute platform "; SameSite=" "sameSite" ["strict", "lax", "none"] mode

def partitionedAttribute (options : CookieOptions) : Except CookieError JsString :=
  if options.partitioned ≠ some true then .ok []
  else if options.secure ≠ some true then
    .error (.typeError (js "partitioned cookies require \x7b secure: true \x7d"))
  else .ok (js "; Partitioned")

def flagAttribute (label : String) (flag : Option Bool) : JsString :=
  if flag = some true then js label else []

/-- All that follows the value. -/
def cookieAttributes (platform : CookiePlatform κ) (now : ℤ) (options : CookieOptions) :
    Except CookieError JsString := do
  let maxAge ← maxAgeAttribute options.maxAge
  let expires ← expiresAttribute platform now options.expires
  let domain ← domainAttribute platform options.domain
  let path ← pathAttribute platform options.path
  let priority ← priorityAttribute platform options.priority
  let sameSite ← sameSiteAttribute platform options.sameSite
  let partitioned ← partitionedAttribute options
  pure (maxAge ++ expires ++ domain ++ path ++ priority ++ sameSite ++ partitioned ++
    flagAttribute "; Secure" options.secure ++ flagAttribute "; HttpOnly" options.httpOnly)

def serializeCookie (platform : CookiePlatform κ) (now : ℤ) (name value : JsString)
    (options : CookieOptions) : Except CookieError JsString :=
  if !isValidCookieName name then
    .error (.typeError (js "Invalid cookie name: " ++ platform.quote name))
  else if !isValidCookieValue value then
    .error (.typeError (js "Invalid cookie value for \"" ++ name ++
      js "\": CTL, comma, semicolon, quote and backslash are not allowed"))
  else
    match encodeURIComponent value with
    | none => .error .uriError
    | some encoded => do
        let attributes ← cookieAttributes platform now options
        pure (name ++ js "=" ++ encoded ++ attributes)

/-! ### The facade -/

structure CookiesHost (κ : Type) where
  cookieHeader : Option JsString
  requestSecure : Bool
  keys : Option (List κ)
  now : ℤ

def keysRequired : CookieError := .error (js ".keys required for signed cookies")

def CookiesHost.get (platform : CookiePlatform κ) (host : CookiesHost κ) (name : JsString)
    (signed : Option Bool) : Except CookieError (Option JsString) :=
  match readJar (parseCookies host.cookieHeader) name with
  | none => .ok none
  | some raw =>
      if signed = some false then .ok (some raw)
      else
        match host.keys.getD [] with
        | [] => if signed = some true then .error keysRequired else .ok (some raw)
        | keys => .ok (unsign platform raw keys)

def CookiesHost.valueToSet (platform : CookiePlatform κ) (host : CookiesHost κ) (value : JsString)
    (options : CookieOptions) : Except CookieError JsString :=
  match host.keys.getD [] with
  | [] => if options.signed = some true then .error keysRequired else .ok value
  | key :: _ =>
      if options.signed = some false then .ok value else .ok (sign platform value key)

def stageCookie (existing : Option HeaderValue) (name serialized : JsString)
    (overwrite : Bool) : HeaderValue :=
  let named (entry : JsString) := startsWith entry (name ++ js "=")
  match existing with
  | none => .many [serialized]
  | some (.many list) =>
      if overwrite then .many ((list.filter fun entry => !named entry) ++ [serialized])
      else if list.any named then .many list
      else .many (list ++ [serialized])
  | some (.one value) =>
      if overwrite then .many [value, serialized]
      else if named value then .one value
      else .many [value, serialized]

/-- `set(name, value, options)`: the staged "set-cookie" after it. -/
def CookiesHost.set (platform : CookiePlatform κ) (host : CookiesHost κ)
    (existing : Option HeaderValue) (name value : JsString) (options : CookieOptions) :
    Except CookieError HeaderValue := do
  let toSet ← host.valueToSet platform value options
  let effective :=
    if options.secure = none ∧ host.requestSecure then { options with secure := some true }
    else options
  let serialized ← serializeCookie platform host.now name toSet effective
  pure (stageCookie existing name serialized (decide (options.overwrite = some true)))

end Keala.Plugins
