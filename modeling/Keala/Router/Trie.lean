import Keala.Lib.OrderedMap
import Keala.Lib.Backtrack
import Keala.Router.Pattern

/-!
The route pattern trie (`src/router/trie.ts`), the source of truth for dynamic
matching. Nodes are values; a reference to a node is its address, the edges
from the root, and a `RouteTarget` is a reference into the router's table of
targets.
-/

namespace Keala.Router

open Keala.Js

abbrev TargetRef := ℕ

structure ParamChild (ν : Type) where
  name : JsString
  pattern : Option RegExp
  node : ν
  /-- Reached by skipping an optional param; only patterns that declare the
  position optional ever populate it. -/
  skipNode : Option ν

inductive TrieNode
  | mk (children : List (JsString × TrieNode)) (param : Option (ParamChild TrieNode))
      (paramMore : List (ParamChild TrieNode)) (wildcard : Option (ParamChild TrieNode))
      (target : Option TargetRef) (matchNames : Option (List JsString))

namespace TrieNode

def children : TrieNode → List (JsString × TrieNode) | mk c _ _ _ _ _ => c

/-- First-registered param variant at this position. -/
def param : TrieNode → Option (ParamChild TrieNode) | mk _ p _ _ _ _ => p

/-- Further variants of the same name, in registration order (`null` in the
source is the empty list). -/
def paramMore : TrieNode → List (ParamChild TrieNode) | mk _ _ m _ _ _ => m

def wildcard : TrieNode → Option (ParamChild TrieNode) | mk _ _ _ w _ _ => w

def target : TrieNode → Option TargetRef | mk _ _ _ _ t _ => t

def matchNames : TrieNode → Option (List JsString) | mk _ _ _ _ _ n => n

def setChild (n : TrieNode) (value : JsString) (child : TrieNode) : TrieNode :=
  mk (OrderedMap.set n.children value child) n.param n.paramMore n.wildcard n.target n.matchNames

def setWildcard (n : TrieNode) (w : ParamChild TrieNode) : TrieNode :=
  mk n.children n.param n.paramMore (some w) n.target n.matchNames

def setTarget (n : TrieNode) (t : TargetRef) : TrieNode :=
  mk n.children n.param n.paramMore n.wildcard (some t) n.matchNames

def setMatchNames (n : TrieNode) (names : List JsString) : TrieNode :=
  mk n.children n.param n.paramMore n.wildcard n.target (some names)

def variants (n : TrieNode) : List (ParamChild TrieNode) := n.param.toList ++ n.paramMore

def setVariants (n : TrieNode) (vs : List (ParamChild TrieNode)) : TrieNode :=
  mk n.children vs.head? vs.tail n.wildcard n.target n.matchNames

end TrieNode

def createNode : TrieNode := .mk [] none [] none none none

/-- An edge of the trie; a list of them is the address of a node. -/
inductive Edge
  | static (value : JsString)
  | consume (name : JsString) (pattern : Option RegExp)
  | skip (name : JsString) (pattern : Option RegExp)
  | wildcard
  deriving DecidableEq, Repr

/-- The product of a match. An unset `values` entry is `undefined`. -/
structure RouteMatch where
  target : TargetRef
  names : List JsString
  values : List (Option JsString)
  offset : ℕ
  deriving DecidableEq, Repr

/-- `c.params(name)`: the latest capture of a repeated name. -/
def RouteMatch.params (m : RouteMatch) (name : JsString) : Option JsString :=
  match m.names.reverse.findIdx? (· == name) with
  | none => none
  | some i => (m.values[m.names.length - 1 - i + m.offset]?).join

/-! ### Matching -/

structure Frame where
  node : TrieNode
  /-- Next segment to consume. -/
  index : ℕ
  /-- Params along the path, newest first. -/
  params : List (JsString × JsString)

/-- Same-name captures after the first one met (the latest) are dropped. -/
def latest : List JsString → List (JsString × JsString) → List (JsString × JsString)
  | _, [] => []
  | seen, (name, value) :: link =>
      if name ∈ seen then latest seen link
      else (name, value) :: latest (name :: seen) link

def matchOf (target : TargetRef) (link : List (JsString × JsString)) : RouteMatch :=
  { target
    names := (latest [] link).map Prod.fst
    values := (latest [] link).map fun p => some p.2
    offset := 0 }

/-- The product at a terminal: the registered names, with the captures filled
in from the back. -/
def matchAt (target : TargetRef) (matchNames : Option (List JsString))
    (params : List (JsString × JsString)) : RouteMatch :=
  match matchNames with
  | none => matchOf target params
  | some names =>
      if names.length = 0 then { target, names := [], values := [], offset := 0 }
      -- An empty mid-path wildcard rest leaves the chain one link short.
      else if params.length ≠ names.length then matchOf target params
      else { target, names, values := params.reverse.map fun p => some p.2, offset := 0 }

def satisfies (host : Host) (pattern : Option RegExp) (text : JsString) : Bool :=
  match pattern with
  | none => true
  | some r => host.test r text

/-- Push every param transition of `variant` (skip first, then consume). -/
def pushVariant (host : Host) (variant : ParamChild TrieNode) (index : ℕ)
    (segment decoded : JsString) (params : List (JsString × JsString)) (stack : List Frame) :
    List Frame :=
  let stack := match variant.skipNode with
    | none => stack
    | some skip => { node := skip, index, params } :: stack
  if segment ≠ [] ∧ satisfies host variant.pattern decoded then
    { node := variant.node, index := index + 1, params := (variant.name, decoded) :: params } ::
      stack
  else stack

def pushSkip (variant : ParamChild TrieNode) (index : ℕ) (params : List (JsString × JsString))
    (stack : List Frame) : List Frame :=
  match variant.skipNode with
  | none => stack
  | some skip => { node := skip, index, params } :: stack

def pushAtEnd (path : JsString) (frame : Frame) : List Frame :=
  let { node, index, params } := frame
  let stack := match node.wildcard with
    | none => []
    | some wild =>
        if wild.node.target.isSome ∧ path.getLast? = some slash then
          [{ node := wild.node, index, params := (wild.name, []) :: params }]
        else []
  let stack := node.paramMore.foldr (fun v stack => pushSkip v index params stack) stack
  match node.param with
  | none => stack
  | some head => pushSkip head index params stack

def pushInside (host : Host) (segments : List JsString) (frame : Frame) (segment : JsString) :
    List Frame :=
  let { node, index, params } := frame
  let stack := match node.wildcard with
    | none => []
    | some wild =>
        if wild.node.target.isSome then
          let rest := join slash ((segments.drop index).map decodeSegment)
          [{ node := wild.node, index := segments.length
             params := if rest ≠ [] then (wild.name, rest) :: params else params }]
        else []
  let stack := match node.param with
    | none => stack
    | some head =>
        let decoded := decodeSegment segment
        let stack := node.paramMore.foldr
          (fun v stack => pushVariant host v index segment decoded params stack) stack
        pushVariant host head index segment decoded params stack
  match OrderedMap.get? node.children (decodeSegment segment) with
  | none => stack
  | some child => { node := child, index := index + 1, params } :: stack

def expandFrame (host : Host) (path : JsString) (segments : List JsString) (frame : Frame) :
    RouteMatch ⊕ List Frame :=
  match segments[frame.index]? with
  | none =>
      match frame.node.target with
      | some target => .inl (matchAt target frame.node.matchNames frame.params)
      | none => .inr (pushAtEnd path frame)
  | some segment => .inr (pushInside host segments frame segment)

mutual

/-- The number of nodes, which bounds the rounds of the loop. -/
def TrieNode.size : TrieNode → ℕ
  | .mk children param paramMore wildcard _ _ =>
      1 + childrenSize children + paramSize param + variantsSize paramMore + paramSize wildcard

def childrenSize : List (JsString × TrieNode) → ℕ
  | [] => 0
  | (_, child) :: rest => child.size + childrenSize rest

def paramSize : Option (ParamChild TrieNode) → ℕ
  | none => 0
  | some v => variantSize v

def variantsSize : List (ParamChild TrieNode) → ℕ
  | [] => 0
  | v :: rest => variantSize v + variantsSize rest

def variantSize : ParamChild TrieNode → ℕ
  | ⟨_, _, node, skipNode⟩ => node.size + skipSize skipNode

def skipSize : Option TrieNode → ℕ
  | none => 0
  | some node => node.size

end

def matchPattern (host : Host) (root : TrieNode) (path : JsString) : Option RouteMatch :=
  Backtrack.run (expandFrame host path (splitSegments path)) root.size
    [{ node := root, index := 0, params := [] }]

/-! ### Insertion

An insertion that throws leaves the nodes it already made, so the new root is
returned next to the outcome. -/

def variantFor (n : TrieNode) (pattern : Option RegExp) : Option (ParamChild TrieNode) :=
  n.variants.find? fun v => v.pattern == pattern

def setVariant (n : TrieNode) (variant : ParamChild TrieNode) : TrieNode :=
  n.setVariants (n.variants.map fun v => if v.pattern = variant.pattern then variant else v)

/-- Make sure a variant for `pattern` exists; a different name at the position
is refused. -/
def ensureVariant (n : TrieNode) (name : JsString) (pattern : Option RegExp) :
    Except RouteError TrieNode :=
  let created : ParamChild TrieNode := { name, pattern, node := createNode, skipNode := none }
  match n.param with
  | none => .ok (n.setVariants [created])
  | some head =>
      if head.name ≠ name then .error (.conflictingNames head.name name)
      else
        match variantFor n pattern with
        | none => .ok (n.setVariants (n.variants ++ [created]))
        | some _ => .ok n

/-- The recursive `insert` of `insertPattern`: `names` is the chain of param
names on the way to `n`. The addresses returned are relative to `n`. -/
def insertSegments : List CompiledSegment → List JsString → TrieNode →
    TrieNode × Except RouteError (List (List Edge))
  | [], names, n =>
      (if n.matchNames.isNone then n.setMatchNames names else n, .ok [[]])
  | .wildcard :: rest, names, n =>
      let w := n.wildcard.getD
        { name := wildcardName, pattern := none, node := createNode, skipNode := none }
      let (node, terminals) := insertSegments rest (names ++ [wildcardName]) w.node
      (n.setWildcard { w with node }, terminals.map (·.map (.wildcard :: ·)))
  | .static value :: rest, names, n =>
      let child := (OrderedMap.get? n.children value).getD createNode
      let (child, terminals) := insertSegments rest names child
      (n.setChild value child, terminals.map (·.map (.static value :: ·)))
  | .param name pattern optional :: rest, names, n =>
      match ensureVariant n name pattern with
      | .error e => (n, .error e)
      | .ok n =>
          match variantFor n pattern with
          | none => (n, .error .unreachableVariant)
          | some variant =>
              let (node, consumed) := insertSegments rest (names ++ [name]) variant.node
              let variant := { variant with node }
              let n := setVariant n variant
              match consumed with
              | .error e => (n, .error e)
              | .ok consumed =>
                  let consumed := consumed.map (.consume name pattern :: ·)
                  if optional = false then (n, .ok consumed)
                  else
                    let (skip, skipped) :=
                      insertSegments rest names (variant.skipNode.getD createNode)
                    (setVariant n { variant with skipNode := some skip },
                      skipped.map fun skipped => consumed ++ skipped.map (.skip name pattern :: ·))

/-- Insert a compiled pattern; on success, the addresses of every terminal it
has (one for each skip/consume combination). -/
def insertPattern (root : TrieNode) (segments : List CompiledSegment) :
    TrieNode × Except RouteError (List (List Edge)) :=
  insertSegments segments [] root

/-! ### Terminals

The caller of `insertPattern` holds references to the terminals and writes
their targets; here it goes down the address again. -/

def TrieNode.step (n : TrieNode) : Edge → Option TrieNode
  | .static value => OrderedMap.get? n.children value
  | .consume name pattern =>
      (variantFor n pattern).bind fun v => if v.name = name then some v.node else none
  | .skip name pattern =>
      (variantFor n pattern).bind fun v => if v.name = name then v.skipNode else none
  | .wildcard => n.wildcard.map ParamChild.node

def TrieNode.setStep (n : TrieNode) (e : Edge) (m : TrieNode) : TrieNode :=
  match e with
  | .static value => n.setChild value m
  | .consume _ pattern =>
      match variantFor n pattern with
      | none => n
      | some v => setVariant n { v with node := m }
  | .skip _ pattern =>
      match variantFor n pattern with
      | none => n
      | some v => setVariant n { v with skipNode := some m }
  | .wildcard =>
      match n.wildcard with
      | none => n
      | some w => n.setWildcard { w with node := m }

def TrieNode.at? : TrieNode → List Edge → Option TrieNode
  | n, [] => some n
  | n, e :: edges => (n.step e).bind fun m => m.at? edges

def TrieNode.assign : TrieNode → List Edge → TargetRef → TrieNode
  | n, [], t => n.setTarget t
  | n, e :: edges, t =>
      match n.step e with
      | none => n
      | some m => n.setStep e (m.assign edges t)

/-- `terminal.target ??= createTarget()` for every terminal; `next` is the
reference of the next target created. -/
def assignTargets : List (List Edge) → TrieNode → TargetRef →
    TrieNode × List TargetRef × TargetRef
  | [], root, next => (root, [], next)
  | σ :: addresses, root, next =>
      match (root.at? σ).bind TrieNode.target with
      | some t =>
          let (root, targets, next) := assignTargets addresses root next
          (root, t :: targets, next)
      | none =>
          let (root, targets, last) := assignTargets addresses (root.assign σ next) (next + 1)
          (root, next :: targets, last)

def insertAll : List (List CompiledSegment) → TrieNode → TargetRef →
    Except RouteError (TrieNode × List (List TargetRef) × TargetRef)
  | [], root, next => .ok (root, [], next)
  | segments :: patterns, root, next =>
      match insertPattern root segments with
      | (_, .error e) => .error e
      | (root, .ok addresses) =>
          let (root, targets, next) := assignTargets addresses root next
          match insertAll patterns root next with
          | .error e => .error e
          | .ok (root, rest, next) => .ok (root, targets :: rest, next)

end Keala.Router
