import Keala.Js.Text

/-!
`toLowerCase` on the texts of a header, whose code units are below 256.
-/

namespace Keala.Js

def lowerUnit (c : CodeUnit) : CodeUnit :=
  if (65 ≤ c ∧ c ≤ 90) ∨ (0xC0 ≤ c ∧ c ≤ 0xDE ∧ c ≠ 0xD7) then c + 32 else c

def isLatin (c : CodeUnit) : Bool := c ≤ 0xFF

/-- `toLowerCase` as far as Latin-1 texts go: unit by unit. -/
def LowersLatin (lower : JsString → JsString) : Prop :=
  ∀ text : JsString, (∀ c ∈ text, isLatin c = true) → lower text = text.map lowerUnit

theorem lowersLatin_map : LowersLatin (List.map lowerUnit) := fun _ _ => rfl

end Keala.Js
