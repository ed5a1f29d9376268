import Hcc.ConstExpr.Basic
import Hcc.Literal.Theorems.Constant
import Hcc.Literal.Theorems.Escape
import Hcc.Lower.Theorems.Items

open CInteger Stateful

-- The values of character literals.
namespace Hcc

variable {body text : List Char} {v : Int} {n : Nat}

-- The value of a character literal in executed code, in constant expressions, and in those that are read from
-- tokens, like that of `#if`.
structure CharValue (text : List Char) (v : Int) : Prop where
  executed : ∀ fuel scope st, Run ((lowering (fuel + 1)).lowerExpr (.char text) scope) st ([], .imm v) st
  folded   : ∀ fuel live scope st, ∃ c, c.value = v ∧
             Run ((typing (fuel + 1)).constExprTyped live (.char text) scope) st c st
  tokens   : ∀ pp span env rest, ∃ c, c.value = v ∧
             constLeaf pp ⟨span, .char (String.ofList text)⟩ env rest = some (.unconsumed (.ok c env rest))

-- The type `char` is signed.
def plainChar : IntType where
  size     := 1
  unsigned := false

-- A string literal is the address of its bytes. The first one is loaded as a `char`.
structure ElementValue (text : List Char) (v : Int) : Prop where
  bytes : ∀ fuel scope st, ∃ st',
          Run ((lowering (fuel + 1)).lowerExpr (.string text) scope) st ([], .global (st.dataLabel st.nextLabel)) st' ∧
          ⟨st.dataLabel st.nextLabel, (stringBytes text).map .byte⟩ ∈ st'.dataItems
  load  : ∀ fuel out addr scope st,
          Run ((typing (fuel + 1)).loadInstr out .char addr scope) st (.loadS8 out addr) st
  value : (stringBytes text).head?.map plainChar.wrap = some v

theorem value_constantInt (hn : 4 ≤ n) (h₀ : 0 ≤ v) (h : v < 256) : (constantInt n v).value = v := by
  have hp : (256 : Int) ^ 4 ≤ 256 ^ n := pow_le_pow_right₀ (by decide) hn
  have hm : ((constantInt n v).type.modulus : Int) = 256 ^ n := by
    simp [Constant.type, IntType.modulus, constantInt]
  have hd : Digits.value 256 (constantInt n v).bytes = v := by
    rw [constantInt, value_intBytes, Int.emod_eq_of_lt h₀ (by omega)]
  rw [Constant.value, hd, IntType.wrap_eq_self_iff, if_neg (by simp [Constant.type, constantInt]), hm]
  omega

theorem charValue_value (h₀ : 0 ≤ charValue text) (h : charValue text < 256) : CharValue text (charValue text) where
  executed _ _ _   := rfl
  folded _ _ _ _   := ⟨_, value_constantInt (by decide) h₀ h, rfl⟩
  tokens pp _ _ _  := by
    refine ⟨constInt pp (charValue text), value_constantInt (by cases pp <;> decide) h₀ h, ?_⟩
    show (pure (constInt pp (charValue (String.ofList text).toList)) : ConstParser Constant) _ _ = _
    rw [String.toList_ofList]
    rfl

theorem plainChar_wrap (h₀ : 0 ≤ v) (h : v < 256) : v = plainChar.wrap v ↔ ¬128 ≤ v := by
  have hm : plainChar.modulus = 256 := rfl
  rw [IntType.wrap, if_neg (by decide), hm, Int.bmod_def]
  split <;> omega

-- A character literal has the value of the element of a string, unless its byte is negative as a `char`.
theorem charLiteral_element_iff (body : List Char) (hv : validCharBody body)
    (h₀ : 0 ≤ charValue (charOf body)) (h : charValue (charOf body) < 256) :
    CharValue (charOf body) (charValue (charOf body)) ∧
    ElementValue (stringOf body) (plainChar.wrap (charValue (charOf body))) ∧
    (charValue (charOf body) = plainChar.wrap (charValue (charOf body)) ↔ ¬HighByte body) := by
  refine ⟨charValue_value h₀ h, ?_, (plainChar_wrap h₀ h).trans <| not_congr <| charValue_high hv⟩
  exact ⟨fun _ _ _ => ⟨_, rfl, List.mem_cons_self⟩, fun _ _ _ _ _ => rfl, by
    rw [stringBytes_stringOf, head_stringBytesFrom hv, Option.map_some]⟩

theorem charLiteral_element_newline :
    CharValue ['\'', '\\', 'n', '\''] 10 ∧ ElementValue ['"', '\\', 'n', '"'] 10 := by
  have ⟨hc, he, _⟩ := charLiteral_element_iff ['\\', 'n'] (by decide) (by decide) (by decide)
  exact ⟨hc, he⟩

-- '\xff' is 255, but "\xff"[0] is -1.
theorem not_charLiteral_element :
    ¬∀ body v, validCharBody body → 0 ≤ v → v < 256 → CharValue (charOf body) v →
      ElementValue (stringOf body) v := by
  intro h
  have hc : CharValue (charOf ['\\', 'x', 'f', 'f']) 255 := charValue_value (by decide) (by decide)
  have he := (h _ 255 (by decide) (by decide) (by decide) hc).value
  rw [stringBytes_stringOf, head_stringBytesFrom (by decide)] at he
  exact absurd he (by decide)

end Hcc
