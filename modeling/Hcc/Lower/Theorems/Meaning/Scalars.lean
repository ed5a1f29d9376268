import Hcc.Ir.Bytewise
import Hcc.Ir.Instruction
import Hcc.Lower.Object
import Hcc.Lower.Theorems.Copies
import Hcc.Lower.Theorems.Meaning.Types

open Stateful CInteger Digits

-- Operands that stand for integers, and their conversions.
namespace Hcc

variable {w word fuel : Nat} {World : Type} {m : Machine w World} {s s' : Frame w World} {st st' : ValueState}
variable {scope : Scope} {op op' : Operand} {is : List Instr} {ty : CType} {t : IntType} {x y : Int} {bytes : List Int}

-- The machine computes the operators where C defines them.
structure Machine.Standard (m : Machine w World) : Prop where
  arithmetic     : ∀ {op a b}, BinOp.condition op = none → op.Defined a b → m.arithmetic op a b = some (op.eval a b)
  immediateBytes : ∀ bytes, m.immediateBytes bytes = .ofInt w (value 256 bytes)

-- The number that is written in the operand fits into 32 bits or, as a list of bytes, into a word.
structure Operand.Small (w : Nat) (op : Operand) : Prop where
  imm   : ∀ {v}, op = .imm v → -2 ^ 31 ≤ v ∧ v < 2 ^ 31
  bytes : ∀ {bytes}, op = .immBytes bytes → 0 ≤ value 256 bytes ∧ value 256 bytes < 2 ^ w

-- The word of the operand stands for the integer.
structure Denotes (m : Machine w World) (st : ValueState) (s : Frame w World) (op : Operand) (x : Int) : Prop where
  word  : m.operand 0 s op = some (.ofInt w x)
  small : op.Small w
  below : op.Below st.nextTemp

-- The code leaves the integer in the operand, and the world alone.
def Realizes (m : Machine w World) (st st' : ValueState) (s : Frame w World) (is : List Instr) (op : Operand)
    (x : Int) : Prop :=
  ∃ s', Performs m st st' is s s' ∧ s'.world = s.world ∧ Denotes m st' s' op x

section Operands

theorem Operand.small_temp {temp : Temp} : (Operand.temp temp).Small w :=
  ⟨nofun, nofun⟩

theorem Operand.small_imm {v : Int} (hl : -2 ^ 31 ≤ v) (hu : v < 2 ^ 31) : (Operand.imm v).Small w where
  imm h   := Operand.imm.inj h ▸ ⟨hl, hu⟩
  bytes h := nomatch h

theorem Denotes.imm {v : Int} (hl : -2 ^ 31 ≤ v) (hu : v < 2 ^ 31) (h : BitVec.ofInt w v = .ofInt w x) :
    Denotes m st s (.imm v) x :=
  ⟨congrArg some h, Operand.small_imm hl hu, Operand.below_imm⟩

theorem Denotes.congr (h : Denotes m st s op x) (he : BitVec.ofInt w x = .ofInt w y) : Denotes m st s op y :=
  ⟨he ▸ h.word, h.small, h.below⟩

-- The operand stands for the same integer after other code.
theorem Denotes.after (h : Denotes m st s op x) (hp : Performs m st st' is s s') : Denotes m st' s' op x :=
  ⟨(hp.operand h.below).trans h.word, h.small, h.below.mono hp.next⟩

theorem Denotes.realizes (h : Denotes m st s op x) : Realizes m st st s [] op x :=
  ⟨s, .nil, rfl, h⟩

theorem Denotes.immediate (hm : m.Standard) (hw : 32 ≤ w) (h : Denotes m st s op x)
    (hi : immediateScalarValue op = some y) :
    BitVec.ofInt w y = .ofInt w x ∧ (y = 0 ↔ BitVec.ofInt w x = 0) := by
  have hp : 2 ^ 32 ≤ 2 ^ w := Nat.pow_le_pow_right Nat.two_pos hw
  have hb : BitVec.ofInt w y = .ofInt w x ∧ |y| < (2 ^ w : Nat) := by
    cases op
    case imm v =>
      cases hi
      have hs := h.small.imm rfl
      exact ⟨Option.some.inj h.word, by rw [abs_lt]; omega⟩
    case immBytes bytes =>
      cases hi
      have hs := h.small.bytes rfl
      have he : littleEndianValue 0 bytes = value 256 bytes := by
        simpa using @littleEndianValue_eq bytes 0
      rw [he, abs_of_nonneg hs.left]
      exact ⟨(hm.immediateBytes bytes).symm.trans <| Option.some.inj h.word, by exact_mod_cast hs.right⟩
    all_goals cases hi
  refine ⟨hb.left, ?_⟩
  rw [←hb.left]
  constructor
  case mp => rintro rfl; rfl
  case mpr =>
    intro hz
    have hz : BitVec.ofInt w y = .ofInt w 0 := hz
    have hd := Int.modEq_zero_iff_dvd.mp <| ofInt_eq_iff.mp hz
    exact Int.eq_zero_of_abs_lt_dvd hd <| by exact_mod_cast hb.right

-- The value of an instruction is put into a new temporary.
theorem fresh_realizes {i : Instr} (h : m.exec 0 i s = some (m.set 0 s ⟨st.nextTemp⟩ (.ofInt w x))) :
    Realizes m st { st with nextTemp := st.nextTemp + 1 } s [i] (.temp ⟨st.nextTemp⟩) x := by
  obtain ⟨s', hp, hw, hv⟩ := fresh_performs h
  exact ⟨s', hp, hw, hv, Operand.small_temp, Operand.below_temp <| Nat.lt_succ_self _⟩

end Operands

section Conversions

theorem coerceBool_realizes (hm : m.Standard) (hw : 32 ≤ w) (hr : Run (coerceBool op scope) st (is, op') st')
    (h : Denotes m st s op x) (hx : BitVec.ofInt w x = 0 ↔ x = 0) :
    Realizes m st st' s is op' (BinaryOp.ofBool (x ≠ 0)) := by
  unfold coerceBool at hr
  generalize hi : immediateScalarValue op = immediate at hr
  cases immediate
  case some v =>
    obtain ⟨he, rfl⟩ := run_pure_iff.mp hr
    obtain ⟨rfl, rfl⟩ := Prod.mk.inj he
    have hz := (h.immediate hm hw hi).right.trans hx
    refine Denotes.realizes ?_
    by_cases hx : x = 0
    case pos =>
      rw [if_pos (hz.mpr hx), hx]
      exact .imm (by decide) (by decide) rfl
    case neg =>
      rw [if_neg (mt hz.mp hx), BinaryOp.ofBool, decide_eq_true hx]
      exact .imm (by decide) (by decide) rfl
  case none =>
    obtain ⟨out, _, hf, hr⟩ := run_value_bind_iff.mp hr
    obtain ⟨rfl, rfl⟩ := run_freshTemp_iff.mp hf
    obtain ⟨he, rfl⟩ := run_pure_iff.mp hr
    obtain ⟨rfl, rfl⟩ := Prod.mk.inj he
    refine fresh_realizes ?_
    have he : truth w (BitVec.ofInt w x ≠ 0) = .ofInt w (BinaryOp.ofBool (x ≠ 0)) :=
      (congrArg (truth w) <| decide_eq_decide.mpr <| not_congr hx).trans truth_eq_ofInt
    rw [Machine.exec, h.word, ←he]
    rfl

-- The low bytes of a number are those of the word that stands for it.
theorem immediate_wrap (h : 8 * t.size ≤ w) (he : BitVec.ofInt w y = .ofInt w x) : t.wrap y = t.wrap x := by
  have hd : (t.modulus : Int) ∣ 2 ^ w := by
    rw [IntType.modulus_eq]
    exact_mod_cast Nat.pow_dvd_pow 2 h
  exact IntType.wrap_congr <| (ofInt_eq_iff.mp he).of_dvd hd

-- The low bytes of a number that is written in an operand.
theorem maskedValue_eq (h : t.size = 1 ∨ t.size = 2) :
    (let modulus := pow2 (t.size * 8)
     let masked := positiveMod x modulus
     if !t.unsigned && masked ≥ pow2 (t.size * 8 - 1) then masked - modulus else masked) = t.wrap x ∧
      -2 ^ 31 ≤ t.wrap x ∧ t.wrap x < 2 ^ 31 := by
  obtain ⟨size, unsigned⟩ := t
  dsimp only at h
  rcases h with rfl | rfl <;> cases unsigned <;>
    simp [positiveMod, pow2, IntType.wrap, IntType.modulus, Int.bmod_def] <;> omega

theorem coerceImmediateScalar_denotes (hm : m.Standard) (hw : 32 ≤ w) (hs : t.size ∈ [1, 2, 4])
    (h : Denotes m st s op x) (hc : coerceImmediateScalar (!t.unsigned) t.size op = some op') :
    Denotes m st s op' (t.wrap x) := by
  have hl : 8 * t.size ≤ w := by
    simp only [List.mem_cons, List.not_mem_nil, or_false] at hs
    omega
  unfold coerceImmediateScalar at hc
  split at hc
  case isTrue h4 =>
    have h4 : t.size = 4 := by
      simp only [List.mem_cons, List.not_mem_nil, or_false] at hs
      omega
    unfold coerceWordImmediateScalar at hc
    split at hc
    case h_1 v =>
      have hv := h.small.imm rfl
      have he : BitVec.ofInt w v = .ofInt w x := Option.some.inj h.word
      have hm : t.modulus = 2 ^ 32 := by rw [IntType.modulus_eq, h4]
      split at hc
      case isFalse => cases hc
      case isTrue hn =>
        cases hc
        refine .imm hv.left hv.right <| congrArg _ ?_
        rw [←immediate_wrap hl he, eq_comm, IntType.wrap_eq_self_iff, hm]
        cases hu : t.unsigned
        case false => rw [if_neg (by decide)]; omega
        case true =>
          rw [if_pos rfl]
          have hn : v ≥ 0 := by simpa [hu] using hn
          omega
    case h_2 => cases hc
  case isFalse h4 =>
    generalize hi : immediateScalarValue op = immediate at hc
    cases immediate
    case none => cases hc
    case some v =>
      have he := (h.immediate hm hw hi).left
      have hs : t.size = 1 ∨ t.size = 2 := by
        simp only [List.mem_cons, List.not_mem_nil, or_false] at hs
        omega
      obtain ⟨hv, hb⟩ := maskedValue_eq (t := t) (x := v) hs
      obtain rfl : op' = .imm (t.wrap v) := (Option.some.inj hc).symm.trans <| congrArg Operand.imm hv
      exact .imm hb.left hb.right <| congrArg _ <| immediate_wrap hl he

theorem coerceScalar_realizes (hm : m.Standard) (hw : word = 4 ∨ word = 8) (hww : w = 8 * word)
    (ht : ty.Integer word t) (hst : targetLongSize st = word)
    (hr : Run ((typing fuel).coerceScalar ty op scope) st (is, op') st') (h : Denotes m st s op x)
    (hx : ty = .bool → (BitVec.ofInt w x = 0 ↔ x = 0)) : Realizes m st st' s is op' (ty.convert word x) := by
  by_cases hb : ty = .bool
  case pos =>
    subst hb
    exact coerceBool_realizes hm (by omega) hr h <| hx rfl
  case neg =>
    have hc : ty.convert word x = t.wrap x := by
      unfold CType.convert
      split
      case h_1 => exact absurd rfl hb
      case h_2 => rw [ht.left]; rfl
    rw [hc]
    unfold Typing.coerceScalar at hr
    split at hr
    case h_1 => exact absurd rfl hb
    obtain ⟨i, _, hi, hr₁⟩ := run_value_bind_iff.mp hr
    obtain ⟨rfl, rfl⟩ := run_pure_iff.mp hi
    rw [ht.isIntegerType] at hr₁
    obtain ⟨size, st₁, hsize, hr₂⟩ := run_value_bind_iff.mp hr₁
    obtain ⟨rfl, rfl⟩ := typeSize_answers ht hst rfl hsize
    rw [ht.isSignedIntegerType] at hr₂
    clear hr hr₁
    have hm' := ht.size_mem hw
    have hl := ht.right
    simp only [List.mem_cons, List.not_mem_nil, or_false] at hm'
    by_cases h8 : (t.size : Int) ≥ 8
    case pos =>
      rw [if_pos h8] at hr₂
      obtain ⟨he, rfl⟩ := run_pure_iff.mp hr₂
      obtain ⟨rfl, rfl⟩ := Prod.mk.inj he
      exact (h.congr (IntType.ofInt_wrap (by omega)).symm).realizes
    case neg =>
      rw [if_neg h8] at hr₂
      have hs : t.size ∈ [1, 2, 4] := by
        simp only [List.mem_cons, List.not_mem_nil, or_false]
        omega
      generalize hi : coerceImmediateScalar (!t.unsigned) t.size op = immediate at hr₂
      cases immediate
      case some coerced =>
        obtain ⟨he, rfl⟩ := run_pure_iff.mp hr₂
        obtain ⟨rfl, rfl⟩ := Prod.mk.inj he
        exact (coerceImmediateScalar_denotes hm (by omega) hs h hi).realizes
      case none =>
        have hr : Run ((if !t.unsigned then signExtendScalar t.size op else maskScalar t.size op) scope) _ (is, op') st' :=
          hr₂
        have hl : 8 * t.size ≤ w := by omega
        cases hu : t.unsigned
        case false =>
          rw [hu] at hr
          obtain ⟨out, _, hf, hr⟩ := run_value_bind_iff.mp hr
          obtain ⟨rfl, rfl⟩ := run_freshTemp_iff.mp hf
          obtain ⟨he, rfl⟩ := run_pure_iff.mp hr
          obtain ⟨rfl, rfl⟩ := Prod.mk.inj he
          refine fresh_realizes ?_
          rw [Machine.exec, Machine.convert, h.word, ←IntType.signExtend_ofInt hl hu]
          rfl
        case true =>
          rw [hu] at hr
          obtain ⟨out, _, hf, hr⟩ := run_value_bind_iff.mp hr
          obtain ⟨rfl, rfl⟩ := run_freshTemp_iff.mp hf
          obtain ⟨he, rfl⟩ := run_pure_iff.mp hr
          obtain ⟨rfl, rfl⟩ := Prod.mk.inj he
          refine fresh_realizes ?_
          rw [Machine.exec, Machine.convert, h.word, ←IntType.zeroExtend_ofInt hl hu]
          rfl

end Conversions
end Hcc
