import Hcc.Library.CWords
import Hcc.Literal.Constant
import Hcc.Literal.Theorems.Integer
import Hcc.Lower.Types

open CInteger

-- What integer expressions mean, independently of the code that is emitted for them.
namespace Hcc

-- The integer types of a target whose words have this number of bytes.
def CType.integerType (word : Nat) : CType → Option IntType
  | .bool             => some ⟨1, true⟩
  | .char             => some ⟨1, false⟩
  | .unsignedChar     => some ⟨1, true⟩
  | .short            => some ⟨2, false⟩
  | .unsignedShort    => some ⟨2, true⟩
  | .int              => some ⟨4, false⟩
  | .unsigned         => some ⟨4, true⟩
  | .enum _           => some ⟨4, false⟩
  | .long             => some ⟨word, false⟩
  | .unsignedLong     => some ⟨word, true⟩
  | .longLong         => some ⟨8, false⟩
  | .unsignedLongLong => some ⟨8, true⟩
  | .named name       => (namedIntegerSize name).map fun size =>
    ⟨if name ∈ targetWordSizedNames then word else size.toNat, !isSignedNamedInteger name⟩
  | _                 => none

-- The values of the type fit into words.
def CType.Integer (word : Nat) (ty : CType) (t : IntType) : Prop :=
  ty.integerType word = some t ∧ t.size ≤ word

def CType.convert (word : Nat) : CType → Int → Int
  | .bool, x => BinaryOp.ofBool (x ≠ 0)
  | ty,    x => (ty.integerType word).elim x (·.wrap x)

namespace Expr

-- The types of expressions over variables of the types that are given by `Γ`.
inductive Typed (word : Nat) (Γ : String → Option CType) : Expr → IntType → Prop
  | int {base digits suffix text} : IntegerText base digits suffix text → digitsValue base 0 digits < 256 ^ 8 →
    (literalType word (firstType word (digitsValue base 0 digits) (suffixTypes base suffix))).size ≤ word →
    Typed word Γ (.int text) (literalType word (firstType word (digitsValue base 0 digits) (suffixTypes base suffix)))
  | char {text} : Typed word Γ (.char text) .int
  | var {name ty t} : Γ name = some ty → ty.Integer word t → Typed word Γ (.var name) t
  | sizeofType {ty t} : ty.Integer word t → Typed word Γ (.sizeofType ty) ⟨word, true⟩
  | sizeofExpr {e t} : Typed word Γ e t → Typed word Γ (.sizeofExpr e) ⟨word, true⟩
  | cast {ty t e s} : ty.Integer word t → Typed word Γ e s → Typed word Γ (.cast ty e) t
  | plus {e t} : Typed word Γ e t → Typed word Γ (.unary "+" e) t.promote
  | unary {name op e t} : unaryOp? name = some op → Typed word Γ e t → Typed word Γ (.unary name e) t.promote
  | not {e t} : Typed word Γ e t → Typed word Γ (.unary "!" e) .int
  | binary {name op a b s t} : binaryOp? name = some op → Typed word Γ a s → Typed word Γ b t →
    Typed word Γ (.binary name a b) (op.resultType s.promote t.promote)
  | comma {a b s t} : Typed word Γ a s → Typed word Γ b t → Typed word Γ (.binary "," a b) t
  | cond {c a b r s t} : Typed word Γ c r → Typed word Γ a s → Typed word Γ b t →
    Typed word Γ (.cond c a b) (s.promote.common t.promote)

-- The values of expressions whose behavior is defined, if `ρ` gives the values of the variables. Arms that are not
-- evaluated only have a type.
inductive Evaluates (word : Nat) (Γ : String → Option CType) (ρ : String → Int) : Expr → IntType → Int → Prop
  | int {base digits suffix text} : IntegerText base digits suffix text → digitsValue base 0 digits < 256 ^ 8 →
    (literalType word (firstType word (digitsValue base 0 digits) (suffixTypes base suffix))).size ≤ word →
    Evaluates word Γ ρ (.int text)
      (literalType word (firstType word (digitsValue base 0 digits) (suffixTypes base suffix)))
      (digitsValue base 0 digits)
  | char {text} : IntType.int.wrap (charValue text) = charValue text →
    Evaluates word Γ ρ (.char text) .int (charValue text)
  | var {name ty t} : Γ name = some ty → ty.Integer word t → Evaluates word Γ ρ (.var name) t (ρ name)
  | sizeofType {ty t} : ty.Integer word t → Evaluates word Γ ρ (.sizeofType ty) ⟨word, true⟩ t.size
  | sizeofExpr {e t} : Typed word Γ e t → Evaluates word Γ ρ (.sizeofExpr e) ⟨word, true⟩ t.size
  | cast {ty t e s x} : ty.Integer word t → Evaluates word Γ ρ e s x →
    Evaluates word Γ ρ (.cast ty e) t (ty.convert word x)
  | plus {e t x} : Evaluates word Γ ρ e t x → Evaluates word Γ ρ (.unary "+" e) t.promote x
  | unary {name op e t x} : unaryOp? name = some op → Evaluates word Γ ρ e t x →
    Evaluates word Γ ρ (.unary name e) t.promote (t.promote.wrap (op.eval x))
  | not {e t x} : Evaluates word Γ ρ e t x → Evaluates word Γ ρ (.unary "!" e) .int (BinaryOp.ofBool (x = 0))
  | binary {name op a b s t x y} : binaryOp? name = some op → op.Strict → Evaluates word Γ ρ a s x →
    Evaluates word Γ ρ b t y → op.Defined s.promote y →
    (op = .div ∨ op = .mod → (s.promote.common t.promote).Divides ((s.promote.common t.promote).wrap x)
      ((s.promote.common t.promote).wrap y)) →
    Evaluates word Γ ρ (.binary name a b) (op.resultType s.promote t.promote) (op.value s.promote t.promote x y)
  | and {a b s t x y} : Evaluates word Γ ρ a s x → x ≠ 0 → Evaluates word Γ ρ b t y →
    Evaluates word Γ ρ (.binary "&&" a b) .int (BinaryOp.ofBool (y ≠ 0))
  | andFalse {a b s t} : Evaluates word Γ ρ a s 0 → Typed word Γ b t → Evaluates word Γ ρ (.binary "&&" a b) .int 0
  | or {a b s t y} : Evaluates word Γ ρ a s 0 → Evaluates word Γ ρ b t y →
    Evaluates word Γ ρ (.binary "||" a b) .int (BinaryOp.ofBool (y ≠ 0))
  | orTrue {a b s t x} : Evaluates word Γ ρ a s x → x ≠ 0 → Typed word Γ b t →
    Evaluates word Γ ρ (.binary "||" a b) .int 1
  | comma {a b s t x y} : Evaluates word Γ ρ a s x → Evaluates word Γ ρ b t y →
    Evaluates word Γ ρ (.binary "," a b) t y
  | condTrue {c a b r s t z x} : Evaluates word Γ ρ c r z → z ≠ 0 → Evaluates word Γ ρ a s x → Typed word Γ b t →
    Evaluates word Γ ρ (.cond c a b) (s.promote.common t.promote) ((s.promote.common t.promote).wrap x)
  | condFalse {c a b r s t y} : Evaluates word Γ ρ c r 0 → Typed word Γ a s → Evaluates word Γ ρ b t y →
    Evaluates word Γ ρ (.cond c a b) (s.promote.common t.promote) ((s.promote.common t.promote).wrap y)

end Expr
end Hcc
