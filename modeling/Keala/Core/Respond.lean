import Keala.Http.Message
import Keala.Router.Router

/-!
The finalizer (`src/core/respond.ts`): converts the settled chain into a
response.
-/

namespace Keala.Core

open Keala.Js Keala.Http Keala.Router

variable {σ β τ : Type}

structure Staged (σ : Type) where
  headersRecord : Option HeaderMap
  state : σ

structure Context (σ β : Type) where
  /-- The method as the request spells it. -/
  method : JsString
  allowedValue : Option (List JsString)
  statusValue : ℕ
  staged : Staged σ
  /-- The committed response (`_res`). -/
  res : Option (Response β)

/-- The parts of an application that answering a request reads. The error
funnel, the not-found handler and the stream hook are its own code. -/
structure Application (σ β τ : Type) where
  runtime : Runtime β
  host : Host
  /-- `onStreamError` is set. -/
  observesStreams : Bool
  unknownMethodAs404 : Bool
  notFoundHandler : Context σ β → Context σ β × Except (Thrown τ) (Option (Response β))
  /-- What `src/core/error-response.ts` answers; it never throws. -/
  errorResponse : Context σ β → Thrown τ → Response β

def ALLOW_ORDER : List JsString := KNOWN_METHODS

/-- 405/501/OPTIONS for a matched path whose method has no handler. -/
def methodNotAllowed (app : Application σ β τ) (c : Context σ β) :
    Context σ β × Except (Thrown τ) (Option (Response β)) :=
  match c.allowedValue with
  | none => (c, .ok none)
  | some [] => (c, .ok none)
  | some allowed =>
      let method := app.host.toUpperCase c.method
      let allowHeader := Headers.joinValues (ALLOW_ORDER.filter fun m => decide (m ∈ allowed))
      let answer := fun status =>
        ({ c with statusValue := status },
          (construct app.runtime none status [] ⟨[(js "allow", allowHeader)], false⟩).map some)
      if method ∉ KNOWN_METHODS then
        if app.unknownMethodAs404 then (c, .ok none) else answer 501
      else if method = js "OPTIONS" then answer 200
      else if method ∉ allowed then answer 405
      else (c, .ok none)

def applyStagedHeader (headers : Headers) (entry : JsString × HeaderValue) :
    Except (Thrown τ) Headers :=
  if entry.1 = js "set-cookie" then
    match entry.2 with
    | .one value => headers.append entry.1 value
    | .many values => headers.appendAll entry.1 (values.filter fun value => !value.isEmpty)
  else do
    let headers ← headers.delete entry.1
    match entry.2 with
    | .one value => headers.set entry.1 value
    | .many values => headers.appendAll entry.1 (values.filter fun value => !value.isEmpty)

def headersWithEntry (headers : Headers) (entry : JsString × HeaderValue) :
    Except (Thrown τ) Headers :=
  if entry.1 = js "set-cookie" then
    match entry.2 with
    | .one value => headers.append entry.1 value
    | .many values => headers.appendAll entry.1 values
  else do
    let headers ← headers.delete entry.1
    match entry.2 with
    | .one value => headers.set entry.1 value
    | .many values => headers.appendAll entry.1 values

/-- Copy one header map onto a fresh `Headers`, set-cookie joined additively. -/
def headersWith (res : Response β) (record : HeaderMap) : Except (Thrown τ) Headers := do
  let headers ← res.headers.combined.foldlM (fun headers entry => headers.set entry.1 entry.2)
    Headers.empty
  let headers ← headers.appendAll (js "set-cookie") res.headers.getSetCookie
  record.foldlM headersWithEntry headers

/-- Merge the staged headers onto a response, in place or by a rebuild where its
guard is immutable (the only `TypeError` that validated headers raise). -/
def applyStagedHeaders (runtime : Runtime β) (res : Response β) (record : HeaderMap) :
    Except (Thrown τ) (Response β) :=
  match (record.foldlM applyStagedHeader res.headers : Except (Thrown τ) Headers) with
  | .ok headers => .ok { res with headers }
  | .error _ => do
      let headers ← headersWith res record
      construct runtime res.body res.status res.statusText headers.copy

/-- The merge of `finalize` and `finishCommitted`, skipped without a record or
with an empty one. -/
def mergeStaged (runtime : Runtime β) (res : Response β) (record : Option HeaderMap) :
    Except (Thrown τ) (Response β) :=
  match record with
  | none => .ok res
  | some [] => .ok res
  | some record => applyStagedHeaders runtime res record

def stripBody (runtime : Runtime β) (res : Response β) : Except (Thrown τ) (Response β) :=
  construct runtime none res.status res.statusText res.headers.copy

def CONTENT_HEADERS : List JsString :=
  [js "content-type", js "content-length", js "transfer-encoding"]

def withoutContentHeaders (headers : Headers) : Headers :=
  ⟨headers.copy.entries.filter fun entry => !decide (entry.1 ∈ CONTENT_HEADERS), false⟩

def sanitizeEmptyStatus (runtime : Runtime β) (res : Response β) :
    Except (Thrown τ) (Response β) :=
  construct runtime none res.status res.statusText (withoutContentHeaders res.headers).copy

/-- `repumpStream`, which refuses a locked body. -/
def repumpStream (body : Body β) : Except (Thrown τ) (Body β) :=
  if body.locked then .error .lockedBody else .ok { body with locked := false }

def describesContent (headers : Headers) : Bool := CONTENT_HEADERS.any headers.has

def finishCommitted (app : Application σ β τ) (c : Context σ β) (committed : Response β) :
    Except (Thrown τ) (Response β) := do
  let merged ← mergeStaged app.runtime committed c.staged.headersRecord
  if isEmptyStatus merged.status && (merged.body.isSome || describesContent merged.headers) then
    sanitizeEmptyStatus app.runtime merged
  else if c.method = js "HEAD" ∧ merged.body.isSome then stripBody app.runtime merged
  else
    match app.observesStreams, merged.body with
    | true, some body => do
        let observed ← repumpStream body
        construct app.runtime (some observed) merged.status merged.statusText merged.headers.copy
    | _, _ => pure merged

def fromState (app : Application σ β τ) (c : Context σ β) (head : Bool) :
    Except (Thrown τ) (Response β) := do
  let base ← constructText app.runtime (js "Not Found") 404
  let merged ← mergeStaged app.runtime base c.staged.headersRecord
  if head && merged.body.isSome then stripBody app.runtime merged else pure merged

/-- The end of `finalize`, where nothing is committed and no method refused:
what the not-found handler answers, or the default 404. -/
def finalizeNotFound (app : Application σ β τ) (c : Context σ β) :
    Context σ β × Except (Thrown τ) (Response β) :=
  let head := decide (c.method = js "HEAD")
  match app.notFoundHandler c with
  | (c, .error e) => (c, .error e)
  | (after, .ok (some notFound)) =>
      -- Whether headers are staged is read before the handler runs.
      (after, do
        let merged ← match c.staged.headersRecord with
          | none | some [] => pure notFound
          | some _ => mergeStaged app.runtime notFound after.staged.headersRecord
        if head && merged.body.isSome then stripBody app.runtime merged else pure merged)
  | (c, .ok none) => (c, fromState app c head)

def finalize (app : Application σ β τ) (c : Context σ β) :
    Context σ β × Except (Thrown τ) (Response β) :=
  match c.res with
  | some committed => (c, finishCommitted app c committed)
  | none =>
      match methodNotAllowed app c with
      | (c, .error e) => (c, .error e)
      | (c, .ok (some rejected)) =>
          (c, do
            let merged ← mergeStaged app.runtime rejected c.staged.headersRecord
            if c.method = js "HEAD" then stripBody app.runtime merged else pure merged)
      | (c, .ok none) => finalizeNotFound app c

def Application.guard (app : Application σ β τ) :
    Context σ β × Except (Thrown τ) (Response β) → Response β
  | (_, .ok res) => res
  | (c, .error e) => app.errorResponse c e

def finalizeGuarded (app : Application σ β τ) (c : Context σ β) : Response β :=
  app.guard (finalize app c)

end Keala.Core
