import Hcc.Compile.Basic
import Hcc.Ir.Execution
import Hcc.Library.ByteRanges
import Hcc.Library.Digits

-- Machines with a memory of bytes, and the code that is emitted for them.
namespace Hcc

open ByteMemory

variable {w k : Nat} {World : Type} {m : Machine w World} {memory : World → Memory w} {s s' s₁ s₂ : Frame w World}
variable {op : Operand} {is js : List Instr} {t : Temp} {a : BitVec w} {st st' st₁ : ValueState}

-- Words are loaded and stored in little-endian order.
structure Machine.Bytewise (m : Machine w World) (memory : World → Memory w) : Prop where
  load  : ∀ size world addr, m.loadBytes size world addr = some (.ofNat w (read (memory world) addr size))
  store : ∀ size world addr value, ∃ world', m.storeBytes size world addr value = some world' ∧
          memory world' = write (memory world) addr size value.toNat
  add   : ∀ left right, m.arithmetic .add left right = some (left + right)

-- The machine whose world is a memory.
def byteMachine (w : Nat) (pos : 0 < w) : Machine w (Memory w) where
  pos                            := pos
  readVar _ _                    := none
  writeVar world _ _             := world
  slotOf _ _                     := 0
  loadBytes size world addr      := some <| .ofNat w <| read world addr size
  storeBytes size world addr x   := some <| write world addr size x.toNat
  allocate _ _                   := none
  argument _ _                   := none
  callName _ _ _                 := none
  callAddress _ _ _              := none
  arithmetic op a b              := some <| op.eval a b
  immediateBytes bytes           := .ofInt w <| Digits.value 256 bytes
  globalAddress _                := 0
  functionAddress _              := 0

theorem byteMachine_bytewise {pos : 0 < w} : (byteMachine w pos).Bytewise id where
  load _ _ _    := rfl
  store _ _ _ _ := ⟨_, rfl, rfl⟩
  add _ _       := rfl

-- The operand is none of the temporaries that are still to be allocated.
def Operand.Below (k : Nat) (op : Operand) : Prop :=
  ∀ t, op = .temp t → t.index < k

theorem Operand.Below.mono {l : Nat} (h : op.Below k) (hl : k ≤ l) : op.Below l :=
  fun t ht => (h t ht).trans_le hl

theorem Operand.below_temp (h : t.index < k) : (Operand.temp t).Below k := by
  rintro _ ⟨⟩
  exact h

theorem Operand.below_imm {value : Int} : (Operand.imm value).Below k := by
  rintro _ ⟨⟩

namespace Machine

-- Here all temporaries are registers.
theorem get_zero : m.get 0 s t = s.temps t := rfl

theorem set_zero : m.set 0 s t a = { s with temps := Function.update s.temps t (some a) } := rfl

theorem execs_append : m.execs 0 (is ++ js) s = m.execs 0 is s >>= m.execs 0 js := by
  induction is generalizing s
  case nil => rfl
  case cons i is hi =>
    rw [List.cons_append, execs, execs]
    cases m.exec 0 i s
    case none => rfl
    case some => exact hi

theorem execs_singleton {i : Instr} : m.execs 0 [i] s = m.exec 0 i s := by
  rw [execs]
  cases m.exec 0 i s <;> rfl

theorem operand_congr (h : ∀ t, t.index < k → s'.temps t = s.temps t) (hb : op.Below k) :
    m.operand 0 s' op = m.operand 0 s op := by
  cases op
  case temp t => exact h t <| hb t rfl
  all_goals rfl

end Machine

-- The code that is emitted between two states ends in the second frame. The temporaries that had been allocated before
-- are not changed.
structure Performs (m : Machine w World) (st st' : ValueState) (is : List Instr) (s s' : Frame w World) : Prop where
  runs      : m.execs 0 is s = some s'
  temps     : ∀ t, t.index < st.nextTemp → s'.temps t = s.temps t
  next      : st.nextTemp ≤ st'.nextTemp
  bits      : st'.targetBits = st.targetBits
  constants : st'.constants = st.constants

namespace Performs

theorem nil : Performs m st st [] s s :=
  ⟨rfl, fun _ _ => rfl, le_rfl, rfl, rfl⟩

theorem append (h : Performs m st st₁ is s s₁) (h' : Performs m st₁ st' js s₁ s₂) :
    Performs m st st' (is ++ js) s s₂ where
  runs      := by
    rw [Machine.execs_append, h.runs]
    exact h'.runs
  temps t k := (h'.temps t <| k.trans_le h.next).trans <| h.temps t k
  next      := h.next.trans h'.next
  bits      := h'.bits.trans h.bits
  constants := h'.constants.trans h.constants

theorem operand (h : Performs m st st' is s s') (hb : op.Below st.nextTemp) :
    m.operand 0 s' op = m.operand 0 s op :=
  Machine.operand_congr h.temps hb

end Performs
end Hcc
