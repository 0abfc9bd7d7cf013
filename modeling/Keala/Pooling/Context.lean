import Keala.Js.Text
import Keala.Lib.Objects

/-!
The request context (`src/core/context/context.ts`, `decorate.ts`): one object
per request over the prototype of its application, how it is built, and how a
recycled one is reset.
-/

namespace Keala.Pooling

open Js Objects

/-! ### Keys and values -/

inductive PropertyKey
  | name (text : JsString)
  | symbol (id : ℕ)
  deriving DecidableEq

def PropertyKey.of (text : String) : PropertyKey := .name (js text)

/-- The symbol under which the floating branches of a request are kept. -/
def branchesKey : PropertyKey := .symbol 0

/-- What a property holds; objects are told apart by a reference. -/
inductive Slot (Ref : Type)
  | undefined
  | null
  | boolean (value : Bool)
  | number (value : ℕ)
  | text (value : JsString)
  | noParamNames
  | noParamValues
  | method (name : JsString)
  | retired
  | object (ref : Ref)
  deriving DecidableEq

abbrev ContextProgram (Ref : Type) := Program PropertyKey (Slot Ref)

abbrev ContextProperty (Ref : Type) := Property PropertyKey (Slot Ref)

abbrev ContextOwn (Ref : Type) := Own PropertyKey (Slot Ref)

abbrev ContextChain (Ref : Type) := Chain PropertyKey (Slot Ref)

/-! ### The base prototype -/

def contextDefaults (Ref : Type) : List (PropertyKey × Slot Ref) :=
  [(.of "runtimeValue", .undefined), (.of "pathValue", .null), (.of "urlValue", .null),
   (.of "ipValue", .null), (.of "allowedValue", .null), (.of "paramNames", .noParamNames),
   (.of "paramValues", .noParamValues), (.of "paramOffset", .number 0),
   (.of "routePath", .text []), (.of "routeName", .undefined), (.of "querystringValue", .null),
   (.of "urlObjectValue", .null), (.of "hostValue", .null), (.of "statusValue", .number 404),
   (.of "headersRecord", .null), (.of "flags", .number 0), (.of "_res", .undefined),
   (.of "directBodyResponseValue", .undefined), (.of "stateValue", .null),
   (.of "cookiesValue", .null), (.of "bodyCache", .undefined), (.of "validValue", .undefined),
   (.of "abortValue", .undefined), (.of "deadlineAnswered", .boolean false)]

def contextSlotKeys : List PropertyKey := (contextDefaults Empty).map Prod.fst

def internalSlots : List PropertyKey :=
  contextSlotKeys ++ [.of "appValue", .of "appSettings", .of "rawRequest", .of "runtimeValue"]

section Base

variable {Ref : Type} [DecidableEq Ref]

-- What a member computes from the values it has read; none where it throws.
variable (answer : JsString → List (Slot Ref) → Option (Slot Ref))

def answered (member : String) (values : List (Slot Ref)) : ContextProgram Ref :=
  (answer (js member) values).elim .raise .done

def reading : List String → List (Slot Ref) → (List (Slot Ref) → ContextProgram Ref) →
    ContextProgram Ref
  | [], values, next => next values
  | name :: names, values, next =>
      .get (.of name) fun value => reading names (values ++ [value]) next

def derived (member : String) (names : List String) : String × ContextProgram Ref :=
  (member, reading names [] (answered answer member))

/-- Computed once: a value of the slot that is not `unset` is the answer. -/
def memo (slot : String) (unset : Slot Ref → Bool) (member : String) (names : List String) :
    ContextProgram Ref :=
  .get (.of slot) fun value =>
    if unset value then
      reading names [] fun values =>
        (answer (js member) values).elim .raise fun value => .set (.of slot) value (.done value)
    else .done value

def memoized (slot : String) (unset : Slot Ref → Bool) (member : String) (names : List String) :
    String × ContextProgram Ref :=
  (member, memo answer slot unset member names)

def isNull (value : Slot Ref) : Bool := value = .null

def isNullish (value : Slot Ref) : Bool := value = .null ∨ value = .undefined

/-- The controller is in its slot before the request and the flags are read. -/
def signal : ContextProgram Ref :=
  .get (.of "abortValue") fun existing =>
    if existing ≠ .undefined then answered answer "signal" [existing]
    else
      (answer (js "AbortController") []).elim .raise fun controller =>
        .set (.of "abortValue") controller (reading ["rawRequest", "flags"] [controller]
          (answered answer "signal"))

/-- A trusted forwarding header answers before the slot does. -/
def ip : ContextProgram Ref :=
  reading ["appSettings", "header", "rawRequest"] [] fun values =>
    match answer (js "forwarded") values with
    | none => .raise
    | some .undefined => memo answer "ipValue" isNull "ip" ["runtime", "rawRequest"]
    | some first => .done first

def status : ContextProgram Ref :=
  .get (.of "_res") fun res =>
    if res ≠ .undefined then answered answer "status" [res] else .get (.of "statusValue") .done

def contextGetters : List (String × ContextProgram Ref) :=
  [derived answer "raw" ["rawRequest"], ("signal", signal answer),
   derived answer "method" ["rawRequest"],
   memoized answer "urlValue" isNullish "url" ["rawRequest"],
   memoized answer "pathValue" isNullish "path" ["url"],
   memoized answer "querystringValue" isNull "querystring" ["urlValue", "rawRequest"],
   derived answer "search" ["querystring"],
   memoized answer "urlObjectValue" isNull "URL" ["rawRequest"],
   derived answer "headers" ["rawRequest"], derived answer "runtime" ["runtimeValue", "rawRequest"],
   memoized answer "hostValue" isNull "host" ["appSettings", "header", "rawRequest"],
   derived answer "protocol" ["appSettings", "header", "rawRequest"],
   derived answer "secure" ["protocol"], ("ip", ip answer),
   derived answer "origin" ["protocol", "host"], derived answer "href" ["url", "host", "protocol"],
   derived answer "idempotent" ["rawRequest"], derived answer "reqLength" ["rawRequest"],
   ("status", status answer), ("app", .get (.of "appValue") .done),
   memoized answer "stateValue" isNullish "state" [],
   memoized answer "allowedValue" isNullish "routerAllowed" []]

def contextMethods : List String :=
  ["query", "queries", "header", "is", "accepts", "acceptsEncodings", "redirect", "setHeader",
   "append", "remove", "has", "resHeader", "text", "json", "html", "params", "throw", "assert"]

def objectMethods : List String :=
  ["constructor", "hasOwnProperty", "isPrototypeOf", "propertyIsEnumerable", "toLocaleString",
   "toString", "valueOf", "__defineGetter__", "__defineSetter__", "__lookupGetter__",
   "__lookupSetter__", "__proto__"]

/-- The base prototype; an accessor of it takes no write. -/
def baseContextProto : ContextChain Ref := fun key =>
  ((OrderedMap.get? (contextDefaults Ref) key).map .data).or <|
    (((contextGetters answer).find? fun getter => .of getter.1 = key).map
        fun getter => .accessor getter.2 fun _ => .raise).or <|
      ((contextMethods ++ objectMethods).find? fun name => .of name = key).map
        fun name => .data (.method (js name))

end Base

/-! ### The prototype of an application -/

section Application

variable {Ref : Type}

structure ContextApp (Ref : Type) where
  value : Ref
  settings : Ref
  deriving DecidableEq

abbrev ContextProto (Ref : Type) := List (PropertyKey × ContextProperty Ref)

def flagDevChain : ℕ := 512

variable (env : Ref → JsString)

def contextProto (app : ContextApp Ref) : ContextProto Ref :=
  [(.of "appValue", .data (.object app.value)), (.of "appSettings", .data (.object app.settings)),
   (.of "flags", .data (.number (if env app.value = js "development" then flagDevChain else 0)))]

variable [DecidableEq Ref] (answer : JsString → List (Slot Ref) → Option (Slot Ref))

def liveProto (proto : ContextProto Ref) : ContextChain Ref := fun key =>
  (OrderedMap.get? proto key).or (baseContextProto answer key)

/-! ### Building and resetting -/

variable (chain : ContextChain Ref)

/-- An assignment; none where an accessor refuses it. -/
def assign (own : ContextOwn Ref) (key : PropertyKey) (value : Slot Ref) :
    Option (ContextOwn Ref) :=
  match find chain own key with
  | some (.accessor _ _) => none
  | _ => some (own.set key value)

/-- The value of a key that no accessor stands under. -/
def read (own : ContextOwn Ref) (key : PropertyKey) : Option (Slot Ref) :=
  match find chain own key with
  | some (.accessor _ _) => none
  | some (.data value) => some value
  | none => some .undefined

def inDevelopment : Slot Ref → Option Bool
  | .object ref => some (env ref = js "development")
  | _ => none

def raiseDevFlag (own : ContextOwn Ref) : Option (ContextOwn Ref) := do
  match ← read chain own (.of "flags") with
  | .number flags => assign chain own (.of "flags") (.number (flags ||| flagDevChain))
  | _ => none

def createContext (app : ContextApp Ref) (raw : Slot Ref) (runtime : Slot Ref) :
    Option (ContextOwn Ref) := do
  let c : ContextOwn Ref := .empty
  let c ← if (← read chain c (.of "appValue")) = .object app.value then pure c
    else assign chain c (.of "appValue") (.object app.value)
  let c ← assign chain c (.of "rawRequest") raw
  let c ← if (← read chain c (.of "appSettings")) = .object app.settings then pure c
    else assign chain c (.of "appSettings") (.object app.settings)
  let c ← if runtime = .undefined then pure c else assign chain c (.of "runtimeValue") runtime
  if env app.value = js "development" then raiseDevFlag chain c else pure c

def boundContext (raw : Slot Ref) (runtime : Slot Ref) : Option (ContextOwn Ref) := do
  let c ← assign chain .empty (.of "rawRequest") raw
  if runtime = .undefined then pure c else assign chain c (.of "runtimeValue") runtime

def sweepForeignKeys (c : ContextOwn Ref) : ContextOwn Ref :=
  c.keys.foldl (fun c key => if key ∈ internalSlots then c else c.delete key) c

def clearRequestSlots (c : ContextOwn Ref) : Option (ContextOwn Ref) := do
  let c ← (contextDefaults Ref).foldlM (fun c slot => assign chain c slot.1 slot.2) c
  pure (c.delete branchesKey)

def resetContext (c : ContextOwn Ref) (raw : Slot Ref) (runtime : Slot Ref) :
    Option (ContextOwn Ref) := do
  let c ← clearRequestSlots chain (sweepForeignKeys c)
  let development ← inDevelopment env (← read chain c (.of "appValue"))
  let c ← if development then raiseDevFlag chain c else pure c
  let c ← assign chain c (.of "rawRequest") raw
  if runtime = .undefined then pure c else assign chain c (.of "runtimeValue") runtime

/-! ### Decorations -/

/-- A key that is free; the error is the text of the TypeError. -/
def guardKey (app : ContextApp Ref) (proto : ContextProto Ref) (api : JsString)
    (key : PropertyKey) : Except JsString Unit := do
  let nonEmpty ← match key with
    | .name (c :: text) => pure (c :: text)
    | _ => throw (api ++ js "() requires a non-empty key")
  let probed := createContext env (liveProto answer proto) app .null .undefined
  let contextSlots := probed.elim [] Own.keys
  if key ∈ contextSlots ∨ (baseContextProto answer key).isSome ∨
      (OrderedMap.get? proto key).isSome then
    throw (api ++ js "(): \"" ++ nonEmpty ++
      js "\" is already defined on the context — pick a distinct key")

def decorate (app : ContextApp Ref) (proto : ContextProto Ref) (key : PropertyKey)
    (value : Slot Ref) : Except JsString (ContextProto Ref) := do
  guardKey env answer app proto (js "app.decorate") key
  pure (OrderedMap.set proto key (.data value))

/-- A lazy member has no setter. -/
def decorateLazy (app : ContextApp Ref) (proto : ContextProto Ref) (key : PropertyKey)
    (getter : ContextProgram Ref) : Except JsString (ContextProto Ref) := do
  guardKey env answer app proto (js "app.decorateLazy") key
  pure (OrderedMap.set proto key (.accessor getter fun _ => .raise))

end Application

end Keala.Pooling
