import Hcc.Literal.Theorems.Escape
import Hcc.Parser.Theorems.Printing

-- The concatenation of string literals.
namespace Hcc.Parser

variable {value : Int} {bytes : List Int}

theorem hexEscape_mod : hexEscape (value % 256) = hexEscape value := by
  have h₁ : value % 256 / 16 % 16 = value / 16 % 16 := by omega
  have h₂ : value % 256 % 16 = value % 16 := by omega
  rw [hexEscape, hexEscape, hexPair, hexPair, h₁, h₂]

theorem flatMap_hexEscape : bytes.flatMap hexEscape = (bytes.map (· % 256)).flatMap hexEscape := by
  simp only [List.flatMap_map, hexEscape_mod]

-- The bytes of each literal are kept, whatever the literals next to it are.
theorem joinStrings_bytes (texts : List (List Char)) :
    (∀ text ∈ texts, stringBytes text = literalContentBytes text ++ [0]) ∧
    stringBytes (joinStrings texts) =
      texts.flatMap (fun text => (literalContentBytes text).map (· % 256)) ++ [0] := by
  refine ⟨fun _ _ => stringBytesFrom_last, ?_⟩
  have hb : ∀ byte ∈ (texts.flatMap literalContentBytes).map (· % 256), 0 ≤ byte ∧ byte < 256 := by
    intro byte hm
    have ⟨value, _, he⟩ := List.mem_map.mp hm
    omega
  rw [joinStrings, ←stringOf, stringBytes_stringOf, flatMap_hexEscape, stringBytesFrom_hexEscape hb, List.map_flatMap]

end Hcc.Parser
