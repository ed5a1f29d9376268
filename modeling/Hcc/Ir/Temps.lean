import Hcc.Ir.Basic
import Mathlib.Data.List.Count
import Mathlib.Tactic.SplitIfs

-- The temporaries that instructions define and use.
namespace Hcc

section Definitions

-- A copy assigns to a temporary, all other instructions with a result create it.
def Instr.created : Instr → Option Temp
  | .param t _ | .alloca t _ | .const t _ | .addrOf t _ | .load64 t _ | .load32 t _ | .loadS32 t _
  | .load16 t _ | .loadS16 t _ | .load8 t _ | .loadS8 t _ | .sext t _ _ | .zext t _ _
  | .trunc t _ _ | .bin t _ _ _ | .cond t _ _ _ _ _ _             => some t
  | .copy .. | .store64 .. | .store32 .. | .store16 .. | .store8 .. => none
  | .call result _ _ | .callIndirect result _ _                   => result

def Instr.operands : Instr → List Operand
  | .param .. | .alloca .. | .const ..                            => []
  | .copy _ op | .load64 _ op | .load32 _ op | .loadS32 _ op | .load16 _ op | .loadS16 _ op
  | .load8 _ op | .loadS8 _ op | .sext _ _ op | .zext _ _ op | .trunc _ _ op => [op]
  | .addrOf _ source                                              => [.temp source]
  | .store64 a b | .store32 a b | .store16 a b | .store8 a b | .bin _ _ a b => [a, b]
  | .call _ _ args                                                => args
  | .callIndirect _ callee args                                   => callee :: args
  | .cond _ _ condOp _ trueOp _ falseOp                           => [condOp, trueOp, falseOp]

def Terminator.operands : Terminator → List Operand
  | .ret (some op)       => [op]
  | .branch op _ _       => [op]
  | .branchCmp _ a b _ _ => [a, b]
  | _                    => []

-- The instructions that are nested in an instruction.
mutual

def Instr.inner : Instr → List Instr
  | .cond _ condInstrs _ trueInstrs _ falseInstrs _ =>
    allInstrs condInstrs ++ allInstrs trueInstrs ++ allInstrs falseInstrs
  | .param .. | .alloca .. | .const .. | .copy .. | .addrOf .. | .load64 .. | .load32 .. | .loadS32 ..
  | .load16 .. | .loadS16 .. | .load8 .. | .loadS8 .. | .store64 .. | .store32 .. | .store16 ..
  | .store8 .. | .sext .. | .zext .. | .trunc .. | .bin .. | .call .. | .callIndirect .. => []

def allInstrs : List Instr → List Instr
  | []              => []
  | instr :: instrs => instr :: (instr.inner ++ allInstrs instrs)

end

def Instr.nested : Instr → List Instr
  | .cond _ condInstrs _ trueInstrs _ falseInstrs _ => condInstrs ++ trueInstrs ++ falseInstrs
  | .param .. | .alloca .. | .const .. | .copy .. | .addrOf .. | .load64 .. | .load32 .. | .loadS32 ..
  | .load16 .. | .loadS16 .. | .load8 .. | .loadS8 .. | .store64 .. | .store32 .. | .store16 ..
  | .store8 .. | .sext .. | .zext .. | .trunc .. | .bin .. | .call .. | .callIndirect .. => []

-- The temporary that an instruction assigns to.
def Instr.assigned : Instr → Option Temp
  | .copy t _ => some t
  | .param .. | .alloca .. | .const .. | .addrOf .. | .load64 .. | .load32 .. | .loadS32 .. | .load16 ..
  | .loadS16 .. | .load8 .. | .loadS8 .. | .store64 .. | .store32 .. | .store16 .. | .store8 ..
  | .sext .. | .zext .. | .trunc .. | .bin .. | .cond .. | .call .. | .callIndirect .. => none

variable (t : Temp)

def creations (instrs : List Instr) : Nat :=
  (allInstrs instrs).countP (·.created = some t)

-- The temporary is not created.
def Absent (instrs : List Instr) : Prop :=
  ∀ i ∈ allInstrs instrs, i.created ≠ some t

-- The temporary is not assigned to.
def Unassigned (instrs : List Instr) : Prop :=
  ∀ i ∈ allInstrs instrs, i.assigned ≠ some t

def Spares (ops : List Operand) : Prop :=
  ∀ op ∈ ops, op ≠ .temp t

def Unused (instrs : List Instr) : Prop :=
  ∀ i ∈ allInstrs instrs, Spares t i.operands

-- The temporary that an instruction stores its result to, which is not the case for a stack object.
def Instr.result : Instr → Option Temp
  | .alloca ..    => none
  | .copy t _     => some t
  | instr         => instr.created

def Instr.object : Instr → Option Temp
  | .alloca t _ => some t
  | _           => none

def blockInstrs (blocks : List BasicBlock) : List Instr :=
  blocks.flatMap (·.instrs)

def blockOperands (blocks : List BasicBlock) : List Operand :=
  blocks.flatMap (·.term.operands)

-- The instructions of a function, including nested ones.
def FunctionIr.instrs (fn : FunctionIr) : List Instr :=
  allInstrs (blockInstrs fn.blocks)

-- The temporary is an operand of an instruction or of a terminator.
def FunctionIr.Uses (fn : FunctionIr) (t : Temp) : Prop :=
  (∃ i ∈ fn.instrs, .temp t ∈ i.operands) ∨ .temp t ∈ blockOperands fn.blocks

-- The temporary is the result of an instruction or a stack object.
def FunctionIr.Defines (fn : FunctionIr) (t : Temp) : Prop :=
  ∃ i ∈ fn.instrs, i.result = some t ∨ i.object = some t

end Definitions

variable {t : Temp} {is js : List Instr} {i : Instr} {op : Operand} {ops : List Operand}

@[simp]
theorem allInstrs_append : allInstrs (is ++ js) = allInstrs is ++ allInstrs js := by
  induction is <;> simp [allInstrs, *]

theorem inner_eq : i.inner = allInstrs i.nested := by
  cases i <;> simp [Instr.inner, Instr.nested, allInstrs]

@[simp]
theorem allInstrs_cons : allInstrs (i :: is) = i :: (allInstrs i.nested ++ allInstrs is) := by
  rw [allInstrs, inner_eq]

theorem allInstrs_eq_flatMap : allInstrs is = is.flatMap fun i => i :: allInstrs i.nested := by
  induction is <;> simp [allInstrs, inner_eq, *]

theorem allInstrs_perm (h : is.Perm js) : (allInstrs is).Perm (allInstrs js) := by
  rw [allInstrs_eq_flatMap, allInstrs_eq_flatMap]
  exact h.flatMap_right _

section Creations

@[simp, grind =]
theorem creations_nil : creations t [] = 0 := rfl

@[simp, grind =]
theorem creations_append : creations t (is ++ js) = creations t is + creations t js := by
  simp [creations]

@[simp, grind =]
theorem creations_cons : creations t (i :: is) =
    (if i.created = some t then 1 else 0) + creations t i.nested + creations t is := by
  simp [creations, List.countP_cons]
  omega

theorem absent_iff : Absent t is ↔ creations t is = 0 := by
  simp [Absent, creations, List.countP_eq_zero]

@[simp]
theorem absent_nil : Absent t [] := by
  simp [Absent, allInstrs]

@[simp]
theorem absent_append : Absent t (is ++ js) ↔ Absent t is ∧ Absent t js := by
  simp [Absent, or_imp, forall_and]

@[simp]
theorem absent_cons : Absent t (i :: is) ↔ i.created ≠ some t ∧ Absent t i.nested ∧ Absent t is := by
  simp [Absent, or_imp, forall_and]

-- The creations by several lists of instructions.
def allCreations (t : Temp) : List (List Instr) → Nat
  | []        => 0
  | is :: iss => creations t is + allCreations t iss

def AllAbsent (t : Temp) : List (List Instr) → Prop
  | []        => True
  | is :: iss => Absent t is ∧ AllAbsent t iss

attribute [simp, grind =] allCreations
attribute [simp] AllAbsent

end Creations

section Uses

@[simp]
theorem spares_nil : Spares t [] :=
  nofun

@[simp]
theorem spares_cons : Spares t (op :: ops) ↔ op ≠ .temp t ∧ Spares t ops := by
  simp [Spares]

@[simp]
theorem unused_nil : Unused t [] := by
  simp [Unused, allInstrs]

@[simp]
theorem unused_append : Unused t (is ++ js) ↔ Unused t is ∧ Unused t js := by
  simp [Unused, or_imp, forall_and]

@[simp]
theorem unused_cons : Unused t (i :: is) ↔ Spares t i.operands ∧ Unused t i.nested ∧ Unused t is := by
  simp [Unused, or_imp, forall_and]

@[simp]
theorem unassigned_nil : Unassigned t [] := by
  simp [Unassigned, allInstrs]

@[simp]
theorem unassigned_append : Unassigned t (is ++ js) ↔ Unassigned t is ∧ Unassigned t js := by
  simp [Unassigned, or_imp, forall_and]

@[simp]
theorem unassigned_cons :
    Unassigned t (i :: is) ↔ i.assigned ≠ some t ∧ Unassigned t i.nested ∧ Unassigned t is := by
  simp [Unassigned, or_imp, forall_and]

end Uses

section Results

theorem result_iff : i.result = some t ↔ i.assigned = some t ∨ i.created = some t ∧ i.object = none := by
  cases i <;> simp [Instr.result, Instr.assigned, Instr.created, Instr.object]

theorem created_of_object (h : i.object = some t) : i.created = some t := by
  cases i <;> simp_all [Instr.object, Instr.created]

-- What satisfies a predicate that holds once is unique.
theorem eq_of_countP_le_one {p : Instr → Bool} (h : is.countP p ≤ 1) (hi : i ∈ is) (hj : j ∈ is) (hp : p i)
    (hp' : p j) : i = j := by
  rw [List.countP_eq_length_filter] at h
  have hi : i ∈ is.filter p := List.mem_filter.mpr ⟨hi, hp⟩
  have hj : j ∈ is.filter p := List.mem_filter.mpr ⟨hj, hp'⟩
  match hf : is.filter p with
  | []          => exact absurd (hf ▸ hi) List.not_mem_nil
  | [k]         => exact (List.mem_singleton.mp (hf ▸ hi)).trans (List.mem_singleton.mp (hf ▸ hj)).symm
  | _ :: _ :: _ => simp [hf] at h

theorem mem_instrs_iff {fn : FunctionIr} :
    i ∈ fn.instrs ↔ ∃ block ∈ fn.blocks, i ∈ allInstrs block.instrs := by
  rw [FunctionIr.instrs, blockInstrs, allInstrs_eq_flatMap, List.flatMap_assoc, List.mem_flatMap]
  simp only [←allInstrs_eq_flatMap]

end Results

attribute [grind =] Instr.nested Instr.created Instr.assigned Instr.operands
attribute [grind ←] absent_nil spares_nil unused_nil unassigned_nil

-- The directions of the equivalences, for proofs that do not split cases.
section Directions

@[grind →]
theorem Absent.of_append (h : Absent t (is ++ js)) : Absent t is ∧ Absent t js :=
  absent_append.mp h

@[grind →]
theorem Absent.of_cons (h : Absent t (i :: is)) :
    i.created ≠ some t ∧ Absent t i.nested ∧ Absent t is :=
  absent_cons.mp h

@[grind ←]
theorem allAbsent_nil : AllAbsent t [] :=
  trivial

@[grind ←]
theorem AllAbsent.cons {iss : List (List Instr)} (h : Absent t is) (hs : AllAbsent t iss) :
    AllAbsent t (is :: iss) :=
  ⟨h, hs⟩

@[grind →]
theorem AllAbsent.of_cons {iss : List (List Instr)} (h : AllAbsent t (is :: iss)) :
    Absent t is ∧ AllAbsent t iss :=
  h

@[grind ←]
theorem Spares.cons (h : op ≠ .temp t) (hs : Spares t ops) : Spares t (op :: ops) :=
  spares_cons.mpr ⟨h, hs⟩

@[grind ←]
theorem Spares.single (h : op ≠ .temp t) : Spares t [op] :=
  spares_cons.mpr ⟨h, spares_nil⟩

@[grind ←]
theorem Spares.pair {left right : Operand} (h₁ : left ≠ .temp t) (h₂ : right ≠ .temp t) :
    Spares t [left, right] :=
  spares_cons.mpr ⟨h₁, spares_cons.mpr ⟨h₂, spares_nil⟩⟩

@[grind →]
theorem Spares.of_cons (h : Spares t (op :: ops)) : op ≠ .temp t ∧ Spares t ops :=
  spares_cons.mp h

@[grind ←]
theorem Unused.append (h₁ : Unused t is) (h₂ : Unused t js) : Unused t (is ++ js) :=
  unused_append.mpr ⟨h₁, h₂⟩

@[grind ←]
theorem Unused.cons (h₁ : Spares t i.operands) (h₂ : Unused t i.nested) (h₃ : Unused t is) :
    Unused t (i :: is) :=
  unused_cons.mpr ⟨h₁, h₂, h₃⟩

@[grind ←]
theorem Unassigned.append (h₁ : Unassigned t is) (h₂ : Unassigned t js) : Unassigned t (is ++ js) :=
  unassigned_append.mpr ⟨h₁, h₂⟩

@[grind ←]
theorem Unassigned.cons (h₁ : i.assigned ≠ some t) (h₂ : Unassigned t i.nested)
    (h₃ : Unassigned t is) : Unassigned t (i :: is) :=
  unassigned_cons.mpr ⟨h₁, h₂, h₃⟩

end Directions

end Hcc
