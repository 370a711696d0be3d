import ApiTypes.Text.CaseMap

/-!
Characters that count as equal when case is ignored. Most of them come in pairs of a small letter
and a capital; the orbits that are not such a pair are listed.
-/

namespace ApiTypes.Text

/-- The orbits that differ from the character with its two cases. The dotted capital and the dotless
small letter are equal to nothing else. -/
def unpairedOrbits : List (List Nat) := [
  [0x4B, 0x6B, 0x212A], [0x53, 0x73, 0x17F], [0xB5, 0x39C, 0x3BC], [0xC5, 0xE5, 0x212B],
  [0xDF, 0x1E9E], [0x130], [0x131], [0x1C4, 0x1C5, 0x1C6], [0x1C7, 0x1C8, 0x1C9],
  [0x1CA, 0x1CB, 0x1CC], [0x1F1, 0x1F2, 0x1F3], [0x345, 0x399, 0x3B9, 0x1FBE], [0x390, 0x1FD3],
  [0x392, 0x3B2, 0x3D0], [0x395, 0x3B5, 0x3F5], [0x398, 0x3B8, 0x3D1, 0x3F4],
  [0x39A, 0x3BA, 0x3F0], [0x3A0, 0x3C0, 0x3D6], [0x3A1, 0x3C1, 0x3F1], [0x3A3, 0x3C2, 0x3C3],
  [0x3A6, 0x3C6, 0x3D5], [0x3A9, 0x3C9, 0x2126], [0x3B0, 0x1FE3], [0x412, 0x432, 0x1C80],
  [0x414, 0x434, 0x1C81], [0x41E, 0x43E, 0x1C82], [0x421, 0x441, 0x1C83],
  [0x422, 0x442, 0x1C84, 0x1C85], [0x42A, 0x44A, 0x1C86], [0x462, 0x463, 0x1C87],
  [0x1C88, 0xA64A, 0xA64B], [0x1E60, 0x1E61, 0x1E9B], [0xFB05, 0xFB06]]

/-- All characters that are equal to `c` when case is ignored, by number. -/
def orbit (c : Char) : List Nat :=
  (unpairedOrbits.find? (·.contains c.toNat)).getD
    [c.toNat, (lowerChar c).toNat, (upperChar c).toNat]

/-- Whether two texts are equal when case is ignored. -/
def equalIgnoringCase (s t : String) : Bool :=
  s.length = t.length && (s.toList.zip t.toList).all fun (a, b) => (orbit a).contains b.toNat

end ApiTypes.Text
