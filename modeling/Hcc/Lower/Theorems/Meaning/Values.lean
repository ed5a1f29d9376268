import Hcc.Lower.Meaning
import Hcc.Lower.Theorems.Meaning.Types

open CInteger

-- The values of integer expressions are values of their types.
namespace Hcc

variable {word : Nat} {Γ : String → Option CType} {ρ : String → Int} {e : Expr} {ty : CType} {s t : IntType} {x y : Int}

theorem unaryPromote_size_le (hw : word = 4 ∨ word = 8) (h : t.size ≤ word) : t.promote.size ≤ word := by
  unfold IntType.promote
  split
  case isTrue  => show 4 ≤ word; omega
  case isFalse => exact h

theorem resultType_size_le {op : BinaryOp} (hw : word = 4 ∨ word = 8) (hs : s.size ≤ word) (ht : t.size ≤ word) :
    (op.resultType s t).size ≤ word := by
  unfold BinaryOp.resultType
  split_ifs
  · exact hs
  · show 4 ≤ word
    omega
  · rw [IntType.size_common]
    exact max_le hs ht

-- The types of expressions fit into words.
theorem Expr.Typed.size_le (hw : word = 4 ∨ word = 8) (h : Expr.Typed word Γ e t) : t.size ≤ word := by
  induction h
  case int hl           => exact hl
  case char             => show 4 ≤ word; omega
  case var ht           => exact ht.right
  case sizeofType       => exact le_rfl
  case sizeofExpr       => exact le_rfl
  case cast ht _ _      => exact ht.right
  case plus hi          => exact unaryPromote_size_le hw hi
  case unary hi         => exact unaryPromote_size_le hw hi
  case not              => show 4 ≤ word; omega
  case binary hi hi'    => exact resultType_size_le hw (unaryPromote_size_le hw hi) (unaryPromote_size_le hw hi')
  case comma hi         => exact hi
  case cond hi hi'      =>
    rw [IntType.size_common]
    exact max_le (unaryPromote_size_le hw hi) (unaryPromote_size_le hw hi')

theorem Expr.Evaluates.typed (h : Expr.Evaluates word Γ ρ e t x) : Expr.Typed word Γ e t := by
  have ho : binaryOp? "&&" = some .logicalAnd := rfl
  have ho' : binaryOp? "||" = some .logicalOr := rfl
  induction h
  case int hi hx hl         => exact .int hi hx hl
  case char                 => exact .char
  case var hn ht            => exact .var hn ht
  case sizeofType ht        => exact .sizeofType ht
  case sizeofExpr he        => exact .sizeofExpr he
  case cast ht _ hi         => exact .cast ht hi
  case plus hi              => exact .plus hi
  case unary ho _ hi        => exact .unary ho hi
  case not hi               => exact .not hi
  case binary ho _ _ _ _ _ hi hi' => exact .binary ho hi hi'
  case and hi hi'           => exact .binary ho hi hi'
  case andFalse ht hi       => exact .binary ho hi ht
  case or hi hi'            => exact .binary ho' hi hi'
  case orTrue ht hi         => exact .binary ho' hi ht
  case comma hi hi'         => exact .comma hi hi'
  case condTrue ht hi hi'   => exact .cond hi hi' ht
  case condFalse ht _ hi hi' => exact .cond hi ht hi'

theorem CType.Integer.wrap_convert (h : ty.Integer word t) : t.wrap (ty.convert word x) = ty.convert word x := by
  unfold CType.convert
  split
  case h_1 =>
    obtain rfl := Option.some.inj h.left
    exact IntType.wrap_ofBool Nat.one_pos
  case h_2 =>
    rw [h.left]
    exact IntType.wrap_wrap

-- The values of variables are values of their types.
def Ranged (word : Nat) (Γ : String → Option CType) (ρ : String → Int) : Prop :=
  ∀ {name ty t}, Γ name = some ty → ty.Integer word t → t.wrap (ρ name) = ρ name

theorem Expr.Evaluates.wrap (hw : word = 4 ∨ word = 8) (hρ : Ranged word Γ ρ) (h : Expr.Evaluates word Γ ρ e t x) :
    t.wrap x = x := by
  have hsize {n : Nat} (h : n ≤ word) : IntType.wrap ⟨word, true⟩ n = n := by
    rw [IntType.wrap_eq_self_iff, if_pos rfl]
    have hm : (8 : Int) < (IntType.mk word true).modulus := by
      rcases hw with rfl | rfl <;> decide
    omega
  have hbool {b : Bool} : IntType.int.wrap (BinaryOp.ofBool b) = BinaryOp.ofBool b :=
    IntType.wrap_ofBool (by decide)
  induction h
  case int hi hx hl        => exact firstType_wrap hi.nonneg hx
  case char hx             => exact hx
  case var hn ht           => exact hρ hn ht
  case sizeofType ht       => exact hsize ht.right
  case sizeofExpr he       => exact hsize <| he.size_le hw
  case cast ht _ _         => exact ht.wrap_convert
  case plus hi             => exact IntType.promote_wrap hi
  case unary               => exact IntType.wrap_wrap
  case not                 => exact hbool
  case binary              => exact IntType.wrap_wrap
  case and                 => exact hbool
  case andFalse            => exact IntType.wrap_zero
  case or                  => exact hbool
  case orTrue              => rfl
  case comma hi            => exact hi
  case condTrue            => exact IntType.wrap_wrap
  case condFalse           => exact IntType.wrap_wrap

end Hcc
