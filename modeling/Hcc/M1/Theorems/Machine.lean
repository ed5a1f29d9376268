import Hcc.M1.Machine
import Mathlib.Tactic.Linarith

open ByteMemory

namespace Hcc.M1.Machine

variable {t : Target} {m : Machine t} {r r' : Reg} {a v v' : Word t} {labels : String → Word t}
         {code code₁ code₂ : List Insn} {size : Nat} {signed : Bool}

-- The registers other than the zero register.
def Writable (t : Target) (r : Reg) : Prop :=
  t = .riscv64 → r ≠ 0

theorem get_eq (h : Writable t r) : m.get r = m.regs r :=
  if_neg fun ⟨ht, hr⟩ => h ht hr

theorem get_set (h : Writable t r) : (m.set r v).get r = v := by
  rw [get_eq h]
  exact Function.update_self ..

theorem get_set_of_ne (h : r' ≠ r) : (m.set r v).get r' = m.get r' := by
  simp only [get, set, Function.update_of_ne h]

@[simp]
theorem set_mem : (m.set r v).mem = m.mem := rfl

@[simp]
theorem load_set : (m.set r v).load size signed a = m.load size signed a := rfl

@[simp]
theorem get_store : (m.store size a v).get r = m.get r := rfl

theorem store_set : (m.set r v').store size a v = (m.store size a v).set r v' := rfl

@[simp]
theorem set_set : (m.set r v).set r v' = m.set r v' := by
  simp only [set, Function.update_idem]

theorem set_get (h : Writable t r) : m.set r (m.get r) = m := by
  simp only [get_eq h, set, Function.update_eq_self]

theorem get_set_get (h : Writable t r') : (m.set r (m.get r')).get r' = m.get r' := by
  by_cases he : r' = r
  case pos => rw [←he, get_set h]
  case neg => exact get_set_of_ne he

theorem load_congr {m' : Machine t} (h : m'.mem = m.mem) :
    m'.load size signed a = m.load size signed a := by
  simp only [load, h]

@[simp]
theorem run_nil : m.run labels [] = m := rfl

@[simp]
theorem run_cons {insn : Insn} : m.run labels (insn :: code) = (m.exec labels insn).run labels code :=
  rfl

theorem run_append : m.run labels (code₁ ++ code₂) = (m.run labels code₁).run labels code₂ :=
  List.foldl_append

section Calls

@[simp]
def Insn.isCall : Insn → Bool
  | .call _ | .callReg _ => true
  | _                    => false

def CallFree (code : List Insn) : Prop :=
  ∀ insn ∈ code, Insn.isCall insn = false

@[simp]
theorem callFree_nil : CallFree [] := nofun

@[simp]
theorem callFree_cons {insn : Insn} :
    CallFree (insn :: code) ↔ Insn.isCall insn = false ∧ CallFree code :=
  List.forall_mem_cons

@[simp]
theorem callFree_append : CallFree (code₁ ++ code₂) ↔ CallFree code₁ ∧ CallFree code₂ :=
  List.forall_mem_append

theorem runToCall_append (h : CallFree code) :
    m.runToCall labels (code ++ rest) = (m.run labels code).runToCall labels rest := by
  induction code generalizing m
  case nil => rfl
  case cons insn code hi =>
    have ⟨hc, h⟩ := List.forall_mem_cons.mp h
    rw [List.cons_append, run_cons, ←hi h]
    cases insn <;> first | rfl | contradiction

end Calls

section Words

variable {base : Word t} {k k' : Int}

-- The words in memory, relative to an address.
def wordAddress (base : Word t) (k : Int) : Word t :=
  base + .ofInt _ (t.wordBytes * k)

def word (m : Machine t) (base : Word t) (k : Int) : Word t :=
  m.load t.wordBytes false (wordAddress base k)

def storeWord (m : Machine t) (base : Word t) (k : Int) (v : Word t) : Machine t :=
  m.store t.wordBytes (wordAddress base k) v

theorem wordBytes_le : (t.wordBytes : Int) ≤ 8 := by
  cases t <;> decide

theorem wordBytes_pos : (0 : Int) < t.wordBytes := by
  cases t <;> decide

theorem wordBytes_le_pow : t.wordBytes ≤ 2 ^ t.bits := by
  cases t <;> decide

theorem wordBytes_mul_pow : (t.wordBytes : Int) * 2 ^ 30 ≤ 2 ^ t.bits := by
  cases t <;> decide

theorem word_congr {m' : Machine t} (h : m'.mem = m.mem) : m'.word base k = m.word base k :=
  load_congr h

theorem word_set : (m.set r v).word base k = m.word base k := rfl

theorem get_storeWord : (m.storeWord base k v).get r = m.get r := rfl

theorem word_storeWord : (m.storeWord base k v).word base k = v := by
  have hp : 256 ^ t.wordBytes = 2 ^ t.bits := by cases t <;> rfl
  simp only [word, storeWord, load, store, read_write wordBytes_le_pow, hp,
    Nat.mod_eq_of_lt v.isLt, Bool.false_eq_true, if_false, BitVec.ofNat_toNat, BitVec.setWidth_eq]

-- Different words do not overlap if they are close enough for their addresses not to wrap around.
theorem wordAddress_apart (hk : k ≠ k') (hd : |k - k'| < 2 ^ 30) :
    Apart (wordAddress base k) t.wordBytes (wordAddress base k') t.wordBytes := by
  have hw := wordBytes_mul_pow (t := t)
  have hp := wordBytes_pos (t := t)
  have ⟨hl, hu⟩ := abs_lt.mp hd
  cases Int.lt_or_gt_of_ne hk
  case inl h => exact apart_of_distance (by nlinarith) (by nlinarith)
  case inr h => exact Apart.symm <| apart_of_distance (by nlinarith) (by nlinarith)

theorem word_storeWord_of_ne (hk : k ≠ k') (hd : |k - k'| < 2 ^ 30) :
    (m.storeWord base k v).word base k' = m.word base k' := by
  simp only [word, storeWord, load, store, read_write_of_apart (wordAddress_apart hk hd),
    Bool.false_eq_true, if_false]

theorem wordAddress_injective (h : wordAddress base k = wordAddress base k') (hd : |k - k'| < 2 ^ 30) :
    k = k' := by
  have hp : 0 < t.wordBytes := by cases t <;> decide
  exact by_contra fun hk => wordAddress_apart hk hd 0 hp 0 hp <| by rw [h]

theorem wordAddress_add : wordAddress (wordAddress base k) k' = wordAddress base (k + k') := by
  rw [wordAddress, wordAddress, wordAddress, BitVec.add_assoc, ←BitVec.ofInt_add, Int.mul_add]

theorem word_wordAddress : m.word (wordAddress base k) k' = m.word base (k + k') := by
  rw [word, wordAddress_add, word]

theorem storeWord_wordAddress : m.storeWord (wordAddress base k) k' v = m.storeWord base (k + k') v := by
  rw [storeWord, wordAddress_add, storeWord]

@[simp]
theorem wordAddress_zero : wordAddress base 0 = base := by
  rw [wordAddress, Int.mul_zero]
  exact BitVec.add_zero base

theorem wordAddress_neg_one : wordAddress base (-1) = base - .ofNat _ t.wordBytes := by
  rw [wordAddress, Int.mul_neg_one, BitVec.ofInt_neg, BitVec.ofInt_natCast, BitVec.sub_eq_add_neg]

theorem wordAddress_one : wordAddress base 1 = base + .ofNat _ t.wordBytes := by
  rw [wordAddress, Int.mul_one, BitVec.ofInt_natCast]

end Words

-- A machine differs from another one in at most the given registers.
structure Keeps (m m' : Machine t) (clobbered : Reg → Prop) : Prop where
  mem  : m'.mem = m.mem
  regs : ∀ r, ¬clobbered r → m'.get r = m.get r

namespace Keeps

variable {m m' m₁ m₂ m₃ : Machine t} {c c' : Reg → Prop}

theorem refl : Keeps m m c where
  mem  := rfl
  regs := fun _ _ => rfl

theorem trans (h₁ : Keeps m₁ m₂ c) (h₂ : Keeps m₂ m₃ c) : Keeps m₁ m₃ c where
  mem  := h₂.mem.trans h₁.mem
  regs := fun r hr => (h₂.regs r hr).trans (h₁.regs r hr)

theorem mono (h : Keeps m m' c) (hc : ∀ r, c r → c' r) : Keeps m m' c' where
  mem  := h.mem
  regs := fun r hr => h.regs r fun h => hr <| hc r h

theorem set (h : c r) : Keeps m (m.set r v) c where
  mem  := rfl
  regs := fun _ hr => get_set_of_ne fun he => hr <| he ▸ h

theorem store (h : Keeps m m' c) : Keeps (m.store size a v) (m'.store size a v) c where
  mem  := congrArg (write · a size v.toNat) h.mem
  regs := h.regs

theorem word (h : Keeps m m' c) : m'.word base k = m.word base k :=
  word_congr h.mem

end Keeps
end Hcc.M1.Machine
