import Keala.Middleware.IpAddress

/-!
The gate by client address (`src/middleware/ip-restriction.ts`): rules are
compiled to masked networks, and the address of a request is tested against
them.
-/

namespace Keala.Middleware

open Keala.Js

structure IpRestrictionOptions where
  allow : Option (List JsString)
  deny : Option (List JsString)

structure CompiledRule where
  v4 : Bool
  network : ℕ
  mask : ℕ
  deriving DecidableEq

structure IpAddress where
  v4 : Bool
  bits : ℕ
  deriving DecidableEq

def PREFIX_RE (text : JsString) : Bool :=
  1 ≤ text.length && text.length ≤ 3 && text.all isDigit

def prefixMask (length bits : ℕ) : ℕ :=
  if length = 0 then 0 else ((1 <<< length) - 1) <<< (bits - length)

/-- The message about a rule; `quote` is `JSON.stringify`. -/
def invalidRule (quote : JsString → JsString) (rule : JsString) (fault : String) : JsString :=
  js "ipRestriction: invalid rule " ++ quote rule ++ js fault

/-- `throw` is a `TypeError` with its message. -/
def compileRule (quote : JsString → JsString) (rule : JsString) : Except JsString CompiledRule :=
  if trim rule = [] then .error (invalidRule quote rule "")
  else
    let segments := split 47 (trim rule)
    if 2 < segments.length then
      .error (invalidRule quote rule " (multiple \"/\" separators)")
    else
      let address := segments.getD 0 []
      let isV6 := address.contains 58
      match if isV6 then ipv6ToBits address else ipToInt address with
      | none => .error (invalidRule quote rule " (unparseable address)")
      | some bits =>
          -- A mapped address is one of IPv4, under a network 96 bits shorter.
          let mapped := isV6 && bits >>> 32 = 0xffff
          let v4 := !isV6 || mapped
          let bits := if mapped then bits &&& 0xffffffff else bits
          let prefixAdjust : ℤ := if mapped then 96 else 0
          let width := if v4 then 32 else 128
          match segments[1]? with
          | none => .ok ⟨v4, bits, (1 <<< width) - 1⟩
          | some prefixText =>
              if !PREFIX_RE prefixText then .error (invalidRule quote rule " (bad prefix)")
              else
                let length : ℤ := decimalValue prefixText -
                  if v4 && isV6 then prefixAdjust else 0
                if length < 0 ∨ width < length then
                  .error (invalidRule quote rule
                    (if v4 then " (prefix > /32)" else " (prefix > /128)"))
                else
                  let mask := prefixMask length.toNat width
                  .ok ⟨v4, bits &&& mask, mask⟩

def compileRules (quote : JsString → JsString) (rules : Option (List JsString)) :
    Except JsString (List CompiledRule) :=
  (rules.getD []).mapM (compileRule quote)

def collapse (bits : ℕ) : IpAddress :=
  if bits >>> 32 = 0xffff then ⟨true, bits &&& 0xffffffff⟩ else ⟨false, bits⟩

def parseAddress (ip : JsString) : Option IpAddress :=
  if ip = [] then none
  else if 58 ∈ ip then
    let unbracketed :=
      if startsWith ip [91] && endsWith ip [93] then (ip.drop 1).dropLast else ip
    (ipv6ToBits unbracketed).map collapse
  else (ipToInt ip).map fun bits => ⟨true, bits⟩

def matchesAny (rules : List CompiledRule) (address : IpAddress) : Bool :=
  rules.any fun rule => rule.v4 = address.v4 && address.bits &&& rule.mask = rule.network

inductive IpVerdict
  | next
  | text (body : JsString) (status : ℕ)
  deriving DecidableEq

def ipRestriction (quote : JsString → JsString) (options : IpRestrictionOptions) :
    Except JsString (JsString → IpVerdict) := do
  let allow ← compileRules quote options.allow
  let deny ← compileRules quote options.deny
  if allow = [] ∧ deny = [] then
    .error (js "ipRestriction() requires at least one allow or deny rule")
  else
    let forbidden := IpVerdict.text (js "Forbidden") 403
    .ok fun ip =>
      match parseAddress ip with
      | none => forbidden
      | some address =>
          if matchesAny deny address then forbidden
          else if allow = [] ∨ matchesAny allow address then .next
          else forbidden

example : (ipRestriction id ⟨none, some [js "10.0.0.1/8"]⟩).toOption.map (· (js "::ffff:a01:203")) =
    some (.text (js "Forbidden") 403) := by decide +kernel

/-! ### Networks -/

structure Network where
  v4 : Bool
  bits : ℕ
  length : ℕ

def addressWidth (v4 : Bool) : ℕ := if v4 then 32 else 128

def InNetwork (network : Network) (address : IpAddress) : Prop :=
  network.v4 = address.v4 ∧
    ∀ i < network.length, address.bits.testBit (addressWidth network.v4 - 1 - i) =
      network.bits.testBit (addressWidth network.v4 - 1 - i)

/-- The address of a rule, and by how much its network is shorter than its text says. -/
inductive RuleAddress (address : JsString) : IpAddress → ℕ → Prop
  | dotted {bits : ℕ} (h : DottedQuad address bits) : RuleAddress address ⟨true, bits⟩ 0
  | groups {bits : ℕ} (hcolon : 58 ∈ address) (h : ipv6ToBits address = some bits)
      (hmapped : bits >>> 32 ≠ 0xffff) : RuleAddress address ⟨false, bits⟩ 0
  | mapped {bits : ℕ} (hcolon : 58 ∈ address) (h : ipv6ToBits address = some bits)
      (hmapped : bits >>> 32 = 0xffff) : RuleAddress address ⟨true, bits &&& 0xffffffff⟩ 96

/-- The network of a rule: an address alone, or with the length of its network. -/
inductive RuleDenotes (rule : JsString) : Network → Prop
  | bare {address : IpAddress} {shorter : ℕ} (hslash : 47 ∉ trim rule)
      (h : RuleAddress (trim rule) address shorter) :
      RuleDenotes rule ⟨address.v4, address.bits, addressWidth address.v4⟩
  | sized {text sizeText : JsString} {address : IpAddress} {shorter length : ℕ}
      (htext : trim rule = text ++ 47 :: sizeText) (hslash : 47 ∉ text ∧ 47 ∉ sizeText)
      (h : RuleAddress text address shorter) (hsize : PREFIX_RE sizeText = true)
      (hlength : decimalValue sizeText = length + shorter)
      (hwidth : length ≤ addressWidth address.v4) :
      RuleDenotes rule ⟨address.v4, address.bits, length⟩

def InRule (rule : JsString) (address : IpAddress) : Prop :=
  ∃ network, RuleDenotes rule network ∧ InNetwork network address

/-- The address is in no network of the deny list, and in one of the allow list,
if there is any. -/
def IpRestrictionOptions.Admits (options : IpRestrictionOptions) (address : IpAddress) : Prop :=
  (∀ rule ∈ options.deny.getD [], ¬InRule rule address) ∧
    (options.allow.getD [] = [] ∨ ∃ rule ∈ options.allow.getD [], InRule rule address)

/-- The text forms of an address. -/
inductive Spells : JsString → IpAddress → Prop
  | dotted {text : JsString} {n : ℕ} (h : DottedQuad text n) : Spells text ⟨true, n⟩
  | groups {text : JsString} {n : ℕ} (h : Denotes text n) : Spells text (collapse n)
  | bracketed {text : JsString} {n : ℕ} (h : Denotes text n) :
      Spells (91 :: text ++ [93]) (collapse n)

end Keala.Middleware
