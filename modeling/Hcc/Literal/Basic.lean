import Mathlib.Algebra.Group.Int.Defs
import Mathlib.Data.List.Basic

namespace Hcc

def boolToInt : Bool → Int
  | true  => 1
  | false => 0

def pow2 (n : Int) : Int :=
  2 ^ n.toNat

-- Stops at the sign extension of the arguments instead of at a fixed bit.
def bitFoldInt (op : Bool → Bool → Bool) (lhs rhs : Int) : Int :=
  if (lhs = 0 ∨ lhs = -1) ∧ (rhs = 0 ∨ rhs = -1) then
    if op (lhs = -1) (rhs = -1) then -1 else 0
  else
    2 * bitFoldInt op (lhs / 2) (rhs / 2) + boolToInt (op (lhs % 2 ≠ 0) (rhs % 2 ≠ 0))
termination_by lhs.natAbs + rhs.natAbs
decreasing_by omega

def bitAndInt (lhs rhs : Int) : Int :=
  bitFoldInt (· && ·) lhs rhs

def bitOrInt (lhs rhs : Int) : Int :=
  bitFoldInt (· || ·) lhs rhs

def bitXorInt (lhs rhs : Int) : Int :=
  bitFoldInt (· != ·) lhs rhs

def isDecimalDigit (c : Char) : Bool :=
  '0' ≤ c && c ≤ '9'

def isOctalDigit (c : Char) : Bool :=
  '0' ≤ c && c ≤ '7'

def isHexDigit (c : Char) : Bool :=
  isDecimalDigit c || ('a' ≤ c && c ≤ 'f') || ('A' ≤ c && c ≤ 'F')

def decimalDigit (c : Char) : Int :=
  c.toNat - '0'.toNat

def hexDigit (c : Char) : Int :=
  if isDecimalDigit c then decimalDigit c
  else if 'a' ≤ c && c ≤ 'f' then 10 + c.toNat - 'a'.toNat
  else if 'A' ≤ c && c ≤ 'F' then 10 + c.toNat - 'A'.toNat
  else 0

def digitValue (c : Char) : Int :=
  if isDecimalDigit c then decimalDigit c
  else if 'a' ≤ c && c ≤ 'f' then 10 + c.toNat - 'a'.toNat
  else if 'A' ≤ c && c ≤ 'F' then 10 + c.toNat - 'A'.toNat
  else 99

def isIntSuffix (c : Char) : Bool :=
  c ∈ ['u', 'U', 'l', 'L']

def intLiteralIsUnsigned (text : List Char) : Bool :=
  text.any (· ∈ ['u', 'U'])

def stripIntSuffix (text : List Char) : List Char :=
  (text.reverse.dropWhile isIntSuffix).reverse

def readDecimalPrefixFrom (acc : Int) : List Char → Int
  | []        => acc
  | c :: rest =>
    if isDecimalDigit c then readDecimalPrefixFrom (acc * 10 + decimalDigit c) rest else acc

def readOctalFrom (n : Int) : List Char → Int
  | []        => n
  | c :: rest => if isOctalDigit c then readOctalFrom (n * 8 + decimalDigit c) rest else n

def readHexFrom (n : Int) : List Char → Int
  | []        => n
  | c :: rest => readHexFrom (n * 16 + hexDigit c) rest

def parseInt (text : List Char) : Int :=
  let clean := stripIntSuffix text
  match clean with
  | '0' :: 'x' :: xs => readHexFrom 0 xs
  | '0' :: 'X' :: xs => readHexFrom 0 xs
  | '0' :: xs        => readOctalFrom 0 xs
  | _                => readDecimalPrefixFrom 0 clean

def byteWordMulSmallCarry (factor carry : Int) : List Int → List Int
  | []           => []
  | byte :: rest =>
    let total := byte * factor + carry
    total % 256 :: byteWordMulSmallCarry factor (total / 256) rest

def byteWordMulSmall (factor : Int) (bytes : List Int) : List Int :=
  byteWordMulSmallCarry factor 0 bytes

def byteWordAddSmallCarry (carry : Int) : List Int → List Int
  | []           => []
  | byte :: rest =>
    let total := byte + carry
    total % 256 :: byteWordAddSmallCarry (total / 256) rest

def byteWordMulAdd (base digit : Int) (bytes : List Int) : List Int :=
  (byteWordAddSmallCarry digit (byteWordMulSmall base bytes)).take 8

def zeroByteWord : List Int :=
  [0, 0, 0, 0, 0, 0, 0, 0]

def readBaseBytesFrom (base : Int) (bytes : List Int) : List Char → List Int
  | []        => bytes
  | c :: rest =>
    if digitValue c < base then
      readBaseBytesFrom base (byteWordMulAdd base (digitValue c) bytes) rest
    else bytes

def readBaseBytes (base : Int) (text : List Char) : List Int :=
  readBaseBytesFrom base zeroByteWord text

def naturalLiteralBytes (text : List Char) : List Int :=
  match text with
  | '0' :: 'x' :: xs => readBaseBytes 16 xs
  | '0' :: 'X' :: xs => readBaseBytes 16 xs
  | '0' :: xs        => readBaseBytes 8 xs
  | _                => readBaseBytes 10 text

def isFloatLiteralSuffix (c : Char) : Bool :=
  c ∈ ['f', 'F', 'l', 'L']

def stripFloatSuffix (text : List Char) : List Char :=
  (text.reverse.dropWhile isFloatLiteralSuffix).reverse

def endsWithFloatSuffix (suffixes text : List Char) : Bool :=
  match text.reverse with
  | c :: _ => c ∈ suffixes
  | []     => false

def floatLiteralSize (text : List Char) : Nat :=
  if endsWithFloatSuffix ['f', 'F'] text then 4
  else if endsWithFloatSuffix ['l', 'L'] text then 16
  else 8

def floatLiteralByteWord (text : List Char) : List Int :=
  match stripFloatSuffix text with
  | '0' :: 'x' :: rest => readBaseBytes 16 rest
  | '0' :: 'X' :: rest => readBaseBytes 16 rest
  | rest               => readBaseBytes 10 rest

def floatLiteralBytes (size : Nat) (text : List Char) : List Int :=
  (floatLiteralByteWord text).take size

-- The first `size` bytes of the infinite two's complement expansion of `value`.
def intBytes : (size : Nat) → (value : Int) → List Int
  | 0,        _     => []
  | size + 1, value => value % 256 :: intBytes size (value / 256)

def readOctalEscape : (count : Nat) → (value : Int) → List Char → Int × List Char
  | _,     value, []        => (value, [])
  | count, value, c :: rest =>
    if count ≥ 3 then (value, c :: rest)
    else if isOctalDigit c then readOctalEscape (count + 1) (value * 8 + decimalDigit c) rest
    else (value, c :: rest)

def readHexEscapeFrom (value : Int) : List Char → Int × List Char × Bool
  | []        => (value, [], false)
  | c :: rest =>
    if isHexDigit c then
      let (v, r, _) := readHexEscapeFrom (value * 16 + hexDigit c) rest
      (v, r, true)
    else (value, c :: rest, false)

def readHexEscape (text : List Char) : Int × List Char :=
  match readHexEscapeFrom 0 text with
  | (value, rest, consumed) => if consumed then (value, rest) else ('x'.toNat, text)

def decodeEscape : List Char → Int × List Char
  | 'n' :: rest  => (10, rest)
  | 't' :: rest  => (9, rest)
  | 'r' :: rest  => (13, rest)
  | 'f' :: rest  => (12, rest)
  | 'v' :: rest  => (11, rest)
  | 'a' :: rest  => (7, rest)
  | 'b' :: rest  => (8, rest)
  | '\\' :: rest => (92, rest)
  | '\'' :: rest => (39, rest)
  | '"' :: rest  => (34, rest)
  | 'x' :: rest  => readHexEscape rest
  | c :: rest    => if isOctalDigit c then readOctalEscape 0 0 (c :: rest) else (c.toNat, rest)
  | []           => (0, [])

def dropClosingQuote (text : List Char) : List Char :=
  match text.reverse with
  | '\'' :: rest => rest.reverse
  | _            => text

def charValue : List Char → Int
  | '\'' :: '\\' :: rest => (decodeEscape (dropClosingQuote rest)).1
  | ['\'', c, '\'']      => c.toNat
  | _                    => 0

def stripLeadingQuote : List Char → List Char
  | '"' :: rest => rest
  | text        => text

def stripTrailingQuote (text : List Char) : List Char :=
  (stripLeadingQuote text.reverse).reverse

theorem readOctalEscape_length (count value text) :
    (readOctalEscape count value text).2.length ≤ text.length := by
  fun_induction readOctalEscape
  case case3 hi => exact Nat.le_trans hi (by simp)
  all_goals simp

theorem readHexEscapeFrom_length (value text) :
    (readHexEscapeFrom value text).2.1.length ≤ text.length := by
  fun_induction readHexEscapeFrom
  case case2 h hi => simp_all; omega
  all_goals simp

theorem readHexEscape_length (text) : (readHexEscape text).2.length ≤ text.length := by
  have := readHexEscapeFrom_length 0 text
  rcases h : readHexEscapeFrom 0 text with ⟨value, rest, consumed⟩
  cases consumed <;> simp_all [readHexEscape]

theorem decodeEscape_length (text) : (decodeEscape text).2.length ≤ text.length := by
  unfold decodeEscape
  split <;> simp
  case h_11 rest => exact Nat.le_trans (readHexEscape_length rest) (by simp)
  case h_12 c rest _ _ _ _ _ _ _ _ _ _ _ =>
    split
    · exact readOctalEscape_length 0 0 (c :: rest)
    · simp

def stringBytesFrom : List Char → List Int
  | []           => [0]
  | '\\' :: rest =>
    let decoded := decodeEscape rest
    decoded.1 :: stringBytesFrom decoded.2
  | c :: rest    => c.toNat :: stringBytesFrom rest
termination_by text => text.length
decreasing_by all_goals simp; try have := decodeEscape_length rest; omega

def stringBytes (text : List Char) : List Int :=
  stringBytesFrom (stripTrailingQuote (stripLeadingQuote text))

-- A target integer by its width in bytes, its signedness and its little-endian bytes.
@[ext]
structure Constant where
  size     : Nat
  unsigned : Bool
  bytes    : List Int
deriving DecidableEq, Repr

def constWordNegative (bytes : List Int) : Bool :=
  match bytes.reverse with
  | byte :: _ => byte ≥ 128
  | []        => false

def constNegative (value : Constant) : Bool :=
  !value.unsigned && constWordNegative value.bytes

def constWordAdd.add (carry : Int) : List Int → List Int → List Int
  | a :: ar, b :: br =>
    let n := a + b + carry
    n % 256 :: constWordAdd.add (n / 256) ar br
  | _, _             => []

def constWordAdd : List Int → List Int → List Int :=
  constWordAdd.add 0

def constWordNegate (bytes : List Int) : List Int :=
  byteWordAddSmallCarry 1 (bytes.map (255 - ·))

def constWordCompare (a b : List Int) : Int :=
  if a.reverse < b.reverse then -1 else if a = b then 0 else 1

def constWordMultiply.go (a shifted : List Int) : List Int → List Int → List Int
  | [],           acc => acc
  | byte :: more, acc =>
    go a ((0 :: shifted).take a.length) more (constWordAdd acc (byteWordMulSmall byte shifted))

def constWordMultiply (a b : List Int) : List Int :=
  constWordMultiply.go a a b (a.map fun _ => 0)

def constWordRight.go (carry : Int) : List Int → List Int
  | []           => []
  | byte :: more => (byte / 2 + carry) :: go ((byte % 2) * 128) more

def constWordRight (fill : Int) (bytes : List Int) : List Int :=
  (constWordRight.go fill bytes.reverse).reverse

def constWordDivide.byteBits : (count : Nat) → Int → List Int
  | 0,         _ => []
  | count + 1, n => n % 2 :: byteBits count (n / 2)

def constWordDivide.go (a divisor : List Int) :
    List Int → (quotient remainder : List Int) → List Int × List Int
  | [],          quotient, remainder => (quotient, remainder.take a.length)
  | bit :: more, quotient, remainder =>
    let trial := byteWordAddSmallCarry bit (byteWordMulSmall 2 remainder)
    let fits := decide (constWordCompare trial divisor ≥ 0)
    let remainder' := if fits then constWordAdd trial (constWordNegate divisor) else trial
    let quotient' := byteWordAddSmallCarry (boolToInt fits) (byteWordMulSmall 2 quotient)
    go a divisor more quotient' remainder'

def constWordDivide (a b : List Int) : List Int × List Int :=
  let zero := a.map fun _ => 0
  constWordDivide.go a (b ++ [0]) (a.flatMap (constWordDivide.byteBits 8)).reverse zero (zero ++ [0])

def constConvert (size : Nat) (unsigned : Bool) (value : Constant) : Constant where
  size     := size
  unsigned := unsigned
  bytes    :=
    (value.bytes ++ List.replicate (size - value.bytes.length)
      (if constNegative value then 255 else 0)).take size

def constantConvert : (size : Nat) → (unsigned : Bool) → Constant → Constant :=
  constConvert

def constantPromote (value : Constant) : Constant :=
  if value.size < 4 then constConvert 4 false value else value

def constantInt (size : Nat) (value : Int) : Constant :=
  ⟨size, false, intBytes size value⟩

def constantToInt (value : Constant) : Int :=
  let negative := !value.unsigned && constWordNegative value.bytes
  let magnitude := if negative then constWordNegate value.bytes else value.bytes
  let total := magnitude.foldr (fun byte acc => byte + 256 * acc) 0
  if negative then -total else total

def constantTrue (value : Constant) : Bool :=
  value.bytes.any (· ≠ 0)

-- Enumerators and layout counts use a 32 bit representation and must not be silently truncated.
def constantToIntChecked (value : Constant) : Option Int :=
  let bytes := (constConvert 8 false value).bytes
  let narrowed := constConvert 4 false value
  let restored := (constConvert 8 false narrowed).bytes
  if bytes = restored ∧ constNegative value = constNegative narrowed then
    some (constantToInt narrowed)
  else none

def constantCommon (a b : Constant) : Constant × Constant :=
  let size := max a.size b.size
  let unsigned :=
    if a.size = b.size then a.unsigned || b.unsigned
    else if a.size > b.size then a.unsigned
    else b.unsigned
  (constConvert size unsigned a, constConvert size unsigned b)

def constantUnary (op : String) (value : Constant) : Constant :=
  match op with
  | "-" => ⟨value.size, value.unsigned, constWordNegate value.bytes⟩
  | "~" => ⟨value.size, value.unsigned, value.bytes.map (255 - ·)⟩
  | "!" => constantInt value.size (boolToInt (!constantTrue value))
  | _   => value

def constShift.shift (right : Bool) (fill : Int) : Nat → List Int → List Int
  | 0,     word => word
  | n + 1, word => shift right fill n (if right then constWordRight fill word else byteWordMulSmall 2 word)

def constShift (right : Bool) (value count : Constant) : Except String Constant :=
  if constNegative count ∨
      constWordCompare count.bytes (intBytes count.bytes.length (value.size * 8)) ≥ 0 then
    .error "invalid shift count in constant expression"
  else
    .ok ⟨value.size, value.unsigned,
      constShift.shift right (if constNegative value then 128 else 0) (constantToInt count).toNat
        value.bytes⟩

def constantBinary (op : String) (left right : Constant) : Except String Constant :=
  let (a, b) := constantCommon left right
  let result bytes : Except String Constant := .ok ⟨a.size, a.unsigned, bytes⟩
  let boolean truth : Except String Constant := .ok (constantInt (min 4 a.size) (boolToInt truth))
  let cmp : Int :=
    if constNegative a ≠ constNegative b then (if constNegative a then -1 else 1)
    else constWordCompare a.bytes b.bytes
  let divide (remainder : Bool) : Except String Constant :=
    if !constantTrue b then .error "division by zero in constant expression"
    else
      let am := if constNegative a then constWordNegate a.bytes else a.bytes
      let bm := if constNegative b then constWordNegate b.bytes else b.bytes
      let (q, r) := constWordDivide am bm
      let negative := if remainder then constNegative a else constNegative a != constNegative b
      let bytes := if remainder then r else q
      result (if negative then constWordNegate bytes else bytes)
  match op with
  | "+"  => result (constWordAdd a.bytes b.bytes)
  | "-"  => result (constWordAdd a.bytes (constWordNegate b.bytes))
  | "*"  => result (constWordMultiply a.bytes b.bytes)
  | "/"  => divide false
  | "%"  => divide true
  | "&"  => result (List.zipWith bitAndInt a.bytes b.bytes)
  | "|"  => result (List.zipWith bitOrInt a.bytes b.bytes)
  | "^"  => result (List.zipWith bitXorInt a.bytes b.bytes)
  | "<<" => constShift false left right
  | ">>" => constShift true left right
  | "==" => boolean (cmp = 0)
  | "!=" => boolean (cmp ≠ 0)
  | "<"  => boolean (cmp < 0)
  | "<=" => boolean (cmp ≤ 0)
  | ">"  => boolean (cmp > 0)
  | ">=" => boolean (cmp ≥ 0)
  | "&&" => boolean (constantTrue a && constantTrue b)
  | "||" => boolean (constantTrue a || constantTrue b)
  | _    => .error ("unhandled operator in constant expression: " ++ op)

-- The rank of a literal's type (`int` 1, `long` 2, `long long` 3) matters even where two types have
-- the same width.
def constantLiteralRanked (longSize : Nat) (preprocessing : Bool) (text : List Char) :
    Int × Constant :=
  let bytes := naturalLiteralBytes (stripIntSuffix text)
  let unsigned := intLiteralIsUnsigned text
  let longs := (text.filter (· ∈ ['l', 'L'])).length
  let nonDecimal := match text with
    | '0' :: _ :: _ => true
    | _             => false
  let sizes : List (Int × Nat) :=
    if preprocessing then [(3, 8)]
    else if longs ≥ 2 then [(3, 8)]
    else if longs = 1 then [(2, longSize), (3, 8)]
    else [(1, 4), (2, longSize), (3, 8)]
  let candidates := sizes.flatMap fun (rank, size) =>
    if unsigned then [(rank, size, true)]
    else if nonDecimal then [(rank, size, false), (rank, size, true)]
    else [(rank, size, false)]
  choose bytes candidates
where
  choose (bytes : List Int) : List (Int × Nat × Bool) → Int × Constant
    | []                        => (3, ⟨8, true, bytes⟩)
    | (rank, size, u) :: rest   =>
      let limit := List.replicate (size - 1) 255 ++ [if u then 255 else 127] ++
        List.replicate (8 - size) 0
      if constWordCompare bytes limit ≤ 0 then (rank, ⟨size, u, bytes.take size⟩)
      else choose bytes rest

-- Rejects a literal before the eight byte reader could truncate it.
def constantLiteralRankedChecked (longSize : Nat) (preprocessing : Bool) (text : List Char) :
    Except String (Int × Constant) :=
  let clean := stripIntSuffix text
  let (base, digits) : Int × List Char := match clean with
    | '0' :: 'x' :: rest => (16, rest)
    | '0' :: 'X' :: rest => (16, rest)
    | '0' :: rest        => (8, rest)
    | _                  => (10, clean)
  if fits base (List.replicate 9 0) digits then .ok (constantLiteralRanked longSize preprocessing text)
  else .error "integer literal exceeds supported 64-bit range"
where
  fits (base : Int) (bytes : List Int) : List Char → Bool
    | []        => true
    | c :: rest =>
      if digitValue c ≥ base then true
      else
        let next := byteWordAddSmallCarry (digitValue c) (byteWordMulSmall base bytes)
        next.getLast? = some 0 && fits base next rest

def constantLiteralChecked (longSize : Nat) (preprocessing : Bool) (text : List Char) :
    Except String Constant :=
  Prod.snd <$> constantLiteralRankedChecked longSize preprocessing text

end Hcc
