import Keala.Lib.Except
import Keala.Middleware.IpGrammar
import Keala.Middleware.IpRestriction

/-!
The gate decides by membership in networks, for every way to write an address.
-/

namespace Keala.Middleware

open Keala.Js

/-! ### Masks -/

theorem testBit_prefixMask {length width : ℕ} (h : length ≤ width) (i : ℕ) :
    (prefixMask length width).testBit i = decide (width - length ≤ i ∧ i < width) := by
  rw [prefixMask]
  split
  · next hzero =>
      have hnot : ¬ (width - length ≤ i ∧ i < width) := by omega
      rw [Nat.zero_testBit, decide_eq_false hnot]
  · rw [Nat.testBit_shiftLeft, Nat.one_shiftLeft, Nat.testBit_two_pow_sub_one,
      ← Bool.decide_and]
    apply decide_eq_decide.mpr
    omega

theorem fullMask {width : ℕ} (h : 0 < width) : (1 <<< width) - 1 = prefixMask width width := by
  rw [prefixMask, if_neg (Nat.ne_of_gt h), Nat.sub_self, Nat.shiftLeft_zero]

/-- Under a mask two addresses are equal when their leading bits are. -/
theorem masked_eq_iff {length width : ℕ} (h : length ≤ width) (a b : ℕ) :
    a &&& prefixMask length width = b &&& prefixMask length width ↔
      ∀ i < length, a.testBit (width - 1 - i) = b.testBit (width - 1 - i) := by
  constructor
  · intro heq i hi
    have hbit := congrArg (fun n => n.testBit (width - 1 - i)) heq
    have hmask : width - length ≤ width - 1 - i ∧ width - 1 - i < width := by omega
    simpa [Nat.testBit_and, testBit_prefixMask h, hmask] using hbit
  · intro hbits
    apply Nat.eq_of_testBit_eq
    intro j
    rw [Nat.testBit_and, Nat.testBit_and, testBit_prefixMask h]
    by_cases hmask : width - length ≤ j ∧ j < width
    · have hbit := hbits (width - 1 - j) (by omega)
      rw [show width - 1 - (width - 1 - j) = j by omega] at hbit
      rw [hbit]
    · rw [decide_eq_false hmask, Bool.and_false, Bool.and_false]

theorem masked_eq_self {width n : ℕ} (h : n < 2 ^ width) : n &&& prefixMask width width = n := by
  apply Nat.eq_of_testBit_eq
  intro j
  rw [Nat.testBit_and, testBit_prefixMask (le_refl width)]
  by_cases hj : j < width
  · simp [hj]
  · have hle : 2 ^ width ≤ 2 ^ j := Nat.pow_le_pow_right (by decide) (not_lt.mp hj)
    rw [Nat.testBit_lt_two_pow (lt_of_lt_of_le h hle)]
    rfl

/-! ### Reading -/

/-- Eight groups make 128 bits. -/
theorem bitsOf_lt {values : List ℕ} (h : ∀ value ∈ values, value < 2 ^ 16) :
    bitsOf values < (2 ^ 16) ^ values.length := by
  have hlt : Nat.ofDigits (2 ^ 16) values.reverse < (2 ^ 16) ^ values.reverse.length :=
    Nat.ofDigits_lt_base_pow_length (by decide)
      fun value hvalue => h value (List.mem_reverse.mp hvalue)
  rwa [List.length_reverse] at hlt

theorem ipv6ToBits_lt {ip : JsString} {n : ℕ} (h : ipv6ToBits ip = some n) : n < 2 ^ 128 := by
  rw [ipv6ToBits] at h
  split at h
  · cases h
  · obtain ⟨text, -, h⟩ := Option.bind_eq_some_iff.mp h
    obtain ⟨groups, hgroups, h⟩ := Option.bind_eq_some_iff.mp h
    rw [groupsToBits_iff, Nat.mul_zero, Nat.zero_add] at h
    have hvalues : ∀ value ∈ groups.map hexadecimalValue, value < 2 ^ 16 := by
      intro value hvalue
      obtain ⟨group, hgroup, rfl⟩ := List.mem_map.mp hvalue
      exact (h.1 group hgroup).value_lt
    have hlt := bitsOf_lt hvalues
    rw [List.length_map, ipv6Groups_length hgroups, ← h.2] at hlt
    exact hlt

theorem RuleAddress.lt {text : JsString} {address : IpAddress} {shorter : ℕ}
    (h : RuleAddress text address shorter) : address.bits < 2 ^ addressWidth address.v4 := by
  cases h with
  | dotted h => exact h.lt
  | groups hcolon h hmapped => exact ipv6ToBits_lt h
  | mapped hcolon h hmapped =>
      have hmask : 0xffffffff < 2 ^ 32 := by decide
      exact Nat.lt_of_le_of_lt Nat.and_le_right hmask

theorem RuleAddress.ne_nil {text : JsString} {address : IpAddress} {shorter : ℕ}
    (h : RuleAddress text address shorter) : text ≠ [] := by
  rintro rfl
  cases h with
  | dotted h => exact absurd h.dot_mem List.not_mem_nil
  | groups hcolon h hmapped => exact absurd hcolon List.not_mem_nil
  | mapped hcolon h hmapped => exact absurd hcolon List.not_mem_nil

/-! ### Rules -/

def Network.compiled (network : Network) : CompiledRule :=
  let mask := prefixMask network.length (addressWidth network.v4)
  ⟨network.v4, network.bits &&& mask, mask⟩

theorem addressWidth_pos (v4 : Bool) : 0 < addressWidth v4 := by
  cases v4 <;> decide

variable {quote : JsString → JsString} {rule : JsString}

theorem compileRule_bare {address : IpAddress} {shorter : ℕ} (hslash : 47 ∉ trim rule)
    (h : RuleAddress (trim rule) address shorter) :
    compileRule quote rule =
      .ok (Network.mk address.v4 address.bits (addressWidth address.v4)).compiled := by
  have hsplit : split 47 (trim rule) = [trim rule] := by
    have hjoin : split 47 (join 47 [trim rule]) = [trim rule] :=
      split_join (by simpa using hslash) (by simp)
    rwa [join_singleton] at hjoin
  rw [Network.compiled, masked_eq_self h.lt, ← fullMask (addressWidth_pos _), compileRule,
    if_neg h.ne_nil, hsplit]
  cases h with
  | dotted h => simp [h.colon_not_mem, (ipToInt_iff _ _).mpr h, addressWidth]
  | groups hcolon h hmapped => simp [hcolon, h, hmapped, addressWidth]
  | mapped hcolon h hmapped => simp [hcolon, h, hmapped, addressWidth]

theorem compileRule_sized {text sizeText : JsString} {address : IpAddress} {shorter : ℕ}
    (htext : trim rule = text ++ 47 :: sizeText) (hslash : 47 ∉ text ∧ 47 ∉ sizeText)
    (h : RuleAddress text address shorter) :
    compileRule quote rule =
      if !PREFIX_RE sizeText then .error (invalidRule quote rule " (bad prefix)")
      else if (decimalValue sizeText : ℤ) - shorter < 0 ∨
          (addressWidth address.v4 : ℤ) < decimalValue sizeText - shorter then
        .error (invalidRule quote rule
          (if address.v4 then " (prefix > /32)" else " (prefix > /128)"))
      else .ok (Network.mk address.v4 address.bits
        ((decimalValue sizeText : ℤ) - shorter).toNat).compiled := by
  have hsplit : split 47 (trim rule) = [text, sizeText] := by
    have hjoin : split 47 (join 47 [text, sizeText]) = [text, sizeText] :=
      split_join (by simpa using hslash) (by simp)
    rw [join_cons_cons, join_singleton] at hjoin
    rw [htext, hjoin]
  have hne : trim rule ≠ [] := by
    rw [htext]
    simp
  rw [compileRule, if_neg hne, hsplit]
  cases h with
  | dotted h =>
      simp [h.colon_not_mem, (ipToInt_iff _ _).mpr h, addressWidth, Network.compiled]
  | groups hcolon h hmapped => simp [hcolon, h, hmapped, addressWidth, Network.compiled]
  | mapped hcolon h hmapped => simp [hcolon, h, hmapped, addressWidth, Network.compiled]

theorem compileRule_of_denotes {network : Network} (h : RuleDenotes rule network) :
    compileRule quote rule = .ok network.compiled := by
  cases h with
  | bare hslash h => exact compileRule_bare hslash h
  | @sized text sizeText address shorter length htext hslash h hsize hlength hwidth =>
      have hsum : ((decimalValue sizeText : ℕ) : ℤ) - shorter = length := by omega
      rw [compileRule_sized htext hslash h, hsize, hsum, if_neg (by decide), if_neg (by omega),
        Int.toNat_natCast]

/-- An address that is read is the one of a rule. -/
theorem ruleAddress_of_read {text : JsString} {bits : ℕ}
    (h : (if text.contains 58 then ipv6ToBits text else ipToInt text) = some bits) :
    ∃ address shorter, RuleAddress text address shorter := by
  split at h
  · next hcolon =>
      have hmem : 58 ∈ text := by simpa using hcolon
      by_cases hmapped : bits >>> 32 = 0xffff
      · exact ⟨_, _, .mapped hmem h hmapped⟩
      · exact ⟨_, _, .groups hmem h hmapped⟩
  · exact ⟨_, _, .dotted ((ipToInt_iff _ _).mp h)⟩

theorem denotes_of_compileRule {compiled : CompiledRule}
    (h : compileRule quote rule = .ok compiled) : ∃ network, RuleDenotes rule network := by
  have hread : ∃ bits, (if ((split 47 (trim rule)).getD 0 []).contains 58 then
      ipv6ToBits ((split 47 (trim rule)).getD 0 [])
        else ipToInt ((split 47 (trim rule)).getD 0 [])) = some bits ∧
      (split 47 (trim rule)).length ≤ 2 := by
    rw [compileRule] at h
    split at h
    · cases h
    · dsimp only at h
      split at h
      · cases h
      · next hsegments =>
          split at h
          · cases h
          · next bits hbits => exact ⟨bits, hbits, not_lt.mp hsegments⟩
  obtain ⟨bits, hbits, hlength⟩ := hread
  have hjoin := join_split 47 (trim rule)
  have hslash : ∀ part ∈ split 47 (trim rule), 47 ∉ part := fun _ => not_mem_of_mem_split
  match hsegments : split 47 (trim rule), hlength with
  | [], _ => exact absurd hsegments (split_ne_nil 47 (trim rule))
  | [text], _ =>
      rw [hsegments, join_singleton] at hjoin
      rw [hsegments] at hbits hslash
      subst hjoin
      obtain ⟨address, shorter, haddress⟩ := ruleAddress_of_read hbits
      exact ⟨_, .bare (hslash _ List.mem_cons_self) haddress⟩
  | [text, sizeText], _ =>
      rw [hsegments, join_cons_cons, join_singleton] at hjoin
      rw [hsegments] at hbits hslash
      obtain ⟨address, shorter, haddress⟩ := ruleAddress_of_read hbits
      have htext : 47 ∉ text ∧ 47 ∉ sizeText := by simpa using hslash
      rw [compileRule_sized hjoin.symm htext haddress] at h
      split at h
      · cases h
      · next hsize =>
          split at h
          · cases h
          · next hbounds =>
              rw [not_or] at hbounds
              refine ⟨⟨address.v4, address.bits, ((decimalValue sizeText : ℤ) - shorter).toNat⟩,
                .sized hjoin.symm htext haddress (by simpa using hsize) ?_ ?_⟩
              · omega
              · omega

/-- A compiled rule matches the addresses of its network. -/
theorem compiled_matches_iff (network : Network)
    (hlength : network.length ≤ addressWidth network.v4) (address : IpAddress) :
    (decide (network.compiled.v4 = address.v4) &&
      decide (address.bits &&& network.compiled.mask = network.compiled.network)) = true ↔
        InNetwork network address := by
  rw [Bool.and_eq_true, decide_eq_true_iff, decide_eq_true_iff, InNetwork]
  exact and_congr_right fun _ => masked_eq_iff hlength _ _

theorem RuleDenotes.length_le {network : Network} (h : RuleDenotes rule network) :
    network.length ≤ addressWidth network.v4 := by
  cases h with
  | bare hslash h => exact le_refl _
  | sized htext hslash h hsize hlength hwidth => exact hwidth

theorem matches_iff_inRule {compiled : CompiledRule} (h : compileRule quote rule = .ok compiled)
    (address : IpAddress) :
    (decide (compiled.v4 = address.v4) &&
      decide (address.bits &&& compiled.mask = compiled.network)) = true ↔
        InRule rule address := by
  have hcompiled : ∀ network, RuleDenotes rule network → compiled = network.compiled := by
    intro network hnetwork
    rw [compileRule_of_denotes hnetwork] at h
    exact (Except.ok.inj h).symm
  constructor
  · intro hmatch
    obtain ⟨network, hnetwork⟩ := denotes_of_compileRule h
    rw [hcompiled network hnetwork, compiled_matches_iff network hnetwork.length_le] at hmatch
    exact ⟨network, hnetwork, hmatch⟩
  · rintro ⟨network, hnetwork, hin⟩
    rw [hcompiled network hnetwork, compiled_matches_iff network hnetwork.length_le]
    exact hin

theorem matchesAny_iff {rules : List JsString} {compiled : List CompiledRule}
    (h : List.Forall₂ (fun rule c => compileRule quote rule = .ok c) rules compiled)
    (address : IpAddress) :
    matchesAny compiled address = true ↔ ∃ rule ∈ rules, InRule rule address := by
  induction h with
  | nil => simp [matchesAny]
  | @cons rule c rules compiled hrule _ ih =>
      rw [matchesAny] at ih ⊢
      rw [List.any_cons, Bool.or_eq_true, matches_iff_inRule hrule, ih, List.exists_mem_cons_iff]

/-! ### Addresses -/

def isAddressChar (c : CodeUnit) : Bool := isHexDigit c || c = 58 || c = 46

theorem isAddressChar_of_digit {c : CodeUnit} (h : isDigit c = true) : isAddressChar c = true := by
  have hdigit : 48 ≤ c ∧ c ≤ 57 := by simpa [isDigit] using h
  rw [isAddressChar, isHexDigit, hexValue, if_pos hdigit]
  rfl

theorem DottedQuad.chars {text : JsString} {n : ℕ} (h : DottedQuad text n) :
    ∀ c ∈ text, isAddressChar c = true := by
  obtain ⟨parts, -, hoctets, rfl, -⟩ := h
  exact forall_mem_join (p := fun c => isAddressChar c = true) rfl fun part hpart c hc =>
    isAddressChar_of_digit ((hoctets part hpart).digits c hc)

theorem IsGroup.chars {text : JsString} (h : IsGroup text) :
    ∀ c ∈ text, isAddressChar c = true := by
  intro c hc
  rw [isAddressChar, h.digits c hc]
  rfl

theorem GroupTail.chars {text : JsString} {values : List ℕ} (h : GroupTail text values) :
    ∀ c ∈ text, isAddressChar c = true := by
  rcases h with ⟨parts, -, hgroups, rfl, -⟩ | ⟨parts, quad, n, hgroups, hquad, rfl, -⟩
  · exact forall_mem_join (p := fun c => isAddressChar c = true) rfl
      fun part hpart => (hgroups part hpart).chars
  · refine forall_mem_join (p := fun c => isAddressChar c = true) rfl fun part hpart => ?_
    rcases List.mem_append.mp hpart with hpart | hpart
    · exact (hgroups part hpart).chars
    · rw [List.mem_singleton.mp hpart]
      exact hquad.chars

theorem Denotes.chars {text : JsString} {n : ℕ} (h : Denotes text n) :
    ∀ c ∈ text, isAddressChar c = true := by
  rcases h with ⟨values, htail, -⟩ | ⟨before, behind, ⟨left, right, rfl, hleft, hright⟩, -⟩
  · exact htail.chars
  · intro c hc
    simp only [List.mem_append, List.mem_cons] at hc
    rcases hc with hc | rfl | rfl | hc
    · rcases hleft with ⟨rfl, -⟩ | hlist
      · exact absurd hc List.not_mem_nil
      · exact GroupTail.chars (.inl hlist) c hc
    · rfl
    · rfl
    · rcases hright with ⟨rfl, -⟩ | htail
      · exact absurd hc List.not_mem_nil
      · exact htail.chars c hc

theorem Denotes.colon_mem {text : JsString} {n : ℕ} (h : Denotes text n) : 58 ∈ text := by
  rcases h with ⟨values, htail, hlength, -⟩ | ⟨before, behind, ⟨left, right, rfl, -⟩, -⟩
  · rcases htail with ⟨parts, -, -, rfl, rfl⟩ | ⟨parts, quad, n, -, -, rfl, rfl⟩
    · rw [List.length_map] at hlength
      exact sep_mem_join (by omega)
    · rw [List.length_append, List.length_map] at hlength
      apply sep_mem_join
      rw [List.length_append]
      simp only [List.length_cons, List.length_nil] at hlength ⊢
      omega
  · simp

/-- What the grammar has is read, to the number it denotes. -/
theorem Denotes.read {text : JsString} {n : ℕ} (h : Denotes text n) :
    ipv6ToBits text = some n := by
  have hzone : 37 ∉ text := fun hmem => absurd (h.chars 37 hmem) (by decide)
  rw [ipv6ToBits_iff hzone]
  refine h.imp_right ?_
  rintro ⟨before, behind, hcompresses, hcount, hn⟩
  exact ⟨before, behind, hcompresses, by omega, hn⟩

theorem parseAddress_of_spells {ip : JsString} {address : IpAddress} (h : Spells ip address) :
    parseAddress ip = some address := by
  cases h with
  | dotted h =>
      have hne : ip ≠ [] := List.ne_nil_of_mem h.dot_mem
      rw [parseAddress, if_neg hne, if_neg h.colon_not_mem, (ipToInt_iff _ _).mpr h]
      rfl
  | groups h =>
      have hne : ip ≠ [] := List.ne_nil_of_mem h.colon_mem
      have hbracket : startsWith ip [91] = false := by
        obtain ⟨c, rest, rfl⟩ := List.exists_cons_of_ne_nil hne
        have hc := h.chars c List.mem_cons_self
        have hne : c ≠ 91 := by
          rintro rfl
          exact absurd hc (by decide)
        simp [startsWith, List.isPrefixOf, Ne.symm hne]
      rw [parseAddress, if_neg hne, if_pos h.colon_mem, hbracket]
      simp [h.read]
  | @bracketed text n h =>
      have hcolon : 58 ∈ 91 :: text ++ [93] := by simp [h.colon_mem]
      have hstart : startsWith (91 :: text ++ [93]) [91] = true := by
        simp [startsWith]
      have hend : endsWith (91 :: text ++ [93]) [93] = true := by
        rw [endsWith, List.isSuffixOf_iff_suffix]
        exact List.suffix_append _ _
      have hinner : ((91 :: text ++ [93]).drop 1).dropLast = text := by simp
      rw [parseAddress, if_neg (by simp), if_pos hcolon, hstart, hend, hinner]
      simp [h.read]

/-! ### The gate -/

/-- The gate passes a request on exactly when its address parses and the lists admit it.
A text form of an address is decided by that address, so all of its text forms have one
verdict. -/
theorem ip_restriction_decides {options : IpRestrictionOptions} {gate : JsString → IpVerdict}
    (h : ipRestriction quote options = .ok gate) (ip : JsString) :
    (gate ip = .next ↔ ∃ address, parseAddress ip = some address ∧ options.Admits address) ∧
    (∀ address, Spells ip address → (gate ip = .next ↔ options.Admits address)) ∧
    ∀ other address, Spells ip address → Spells other address → gate ip = gate other := by
  obtain ⟨allow, hallow, h⟩ := Except.ok_of_bind h
  obtain ⟨deny, hdeny, h⟩ := Except.ok_of_bind h
  have hallow := Except.forall₂_of_mapM hallow
  have hdeny := Except.forall₂_of_mapM hdeny
  split at h
  · cases h
  · have hgate := fun ip => (congrFun (Except.ok.inj h) ip).symm
    have hdecides : gate ip = .next ↔
        ∃ address, parseAddress ip = some address ∧ options.Admits address := by
      rw [hgate]
      cases hparse : parseAddress ip with
      | none => simp
      | some address =>
          have hempty : allow = [] ↔ options.allow.getD [] = [] := by
            rw [← List.length_eq_zero_iff, ← hallow.length_eq, List.length_eq_zero_iff]
          have hdenied := matchesAny_iff hdeny address
          have hallowed := matchesAny_iff hallow address
          simp only [Option.some.injEq, exists_eq_left', IpRestrictionOptions.Admits]
          rw [← hempty, ← hallowed]
          by_cases hhit : matchesAny deny address = true
          · rw [if_pos hhit]
            obtain ⟨rule, hrule, hin⟩ := hdenied.mp hhit
            exact ⟨fun heq => absurd heq (by simp), fun hpass => absurd hin (hpass.1 rule hrule)⟩
          · have hclear : ∀ rule ∈ options.deny.getD [], ¬InRule rule address :=
              fun rule hrule hin => hhit (hdenied.mpr ⟨rule, hrule, hin⟩)
            rw [if_neg hhit]
            split
            · next hpass => exact ⟨fun _ => ⟨hclear, hpass⟩, fun _ => rfl⟩
            · next hpass =>
              exact ⟨fun heq => absurd heq (by simp), fun hboth => absurd hboth.2 hpass⟩
    refine ⟨hdecides, ?_, ?_⟩
    · intro address hip
      rw [hdecides, parseAddress_of_spells hip]
      simp
    · intro other address hip hother
      rw [hgate, hgate, parseAddress_of_spells hip, parseAddress_of_spells hother]

theorem ip_restriction_decides_mapped :
    ∃ gate, ipRestriction id ⟨some [js "10.0.0.0/8"], none⟩ = .ok gate ∧
      gate (js "::FFFF:10.1.2.3") = .next ∧
      gate (js "::FFFF:10.1.2.3") = gate (js "10.1.2.3") := by
  have hquad : DottedQuad (js "10.1.2.3") 0x0a010203 := (ipToInt_iff _ _).mp (by decide +kernel)
  have hdenotes : Denotes (js "::FFFF:10.1.2.3") 0xffff0a010203 := by
    refine .inr ⟨[], [0xffff, 0x0a01, 0x0203], ⟨[], js "FFFF:10.1.2.3", rfl, .inl ⟨rfl, rfl⟩,
      .inr (.inr ⟨[js "FFFF"], js "10.1.2.3", 0x0a010203, ?_, hquad, by decide, by decide⟩)⟩,
      by decide, by decide⟩
    intro part hpart
    rw [List.mem_singleton.mp hpart]
    exact (groupRe_iff _).mp (by decide)
  have hspells : Spells (js "::FFFF:10.1.2.3") ⟨true, 0x0a010203⟩ := .groups hdenotes
  have hrule : InRule (js "10.0.0.0/8") ⟨true, 0x0a010203⟩ := by
    have hnetwork : DottedQuad (js "10.0.0.0") 0x0a000000 :=
      (ipToInt_iff _ _).mp (by decide +kernel)
    have hlength : decimalValue (js "8") = 8 + 0 := by decide
    have hdenoted : RuleDenotes (js "10.0.0.0/8") ⟨true, 0x0a000000, 8⟩ :=
      .sized (show trim (js "10.0.0.0/8") = js "10.0.0.0" ++ 47 :: js "8" by decide) (by decide)
        (.dotted hnetwork) (by decide) hlength (by decide)
    exact ⟨_, hdenoted, rfl, by decide⟩
  obtain ⟨gate, hgate⟩ : ∃ gate, ipRestriction id ⟨some [js "10.0.0.0/8"], none⟩ = .ok gate := by
    have hcompiled : compileRules id (some [js "10.0.0.0/8"]) =
        .ok [⟨true, 0x0a000000, 0xff000000⟩] := by decide +kernel
    rw [ipRestriction, hcompiled]
    exact ⟨_, rfl⟩
  obtain ⟨-, hdecides, hsame⟩ := ip_restriction_decides hgate (js "::FFFF:10.1.2.3")
  refine ⟨gate, hgate, (hdecides _ hspells).mpr ?_, hsame _ _ hspells (.dotted hquad)⟩
  exact ⟨fun rule hmem => absurd hmem List.not_mem_nil,
    .inr ⟨_, List.mem_cons_self, hrule⟩⟩

end Keala.Middleware
