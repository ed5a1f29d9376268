import Hcc.Ir.Temps

-- The temporaries that have values where instructions use them.
namespace Hcc

section Definitions

variable (A : Temp → Prop)

-- The operand does not refer to other temporaries.
def Operand.Within (op : Operand) : Prop :=
  ∀ t, op = .temp t → A t

def extend (created : Option Temp) : Temp → Prop :=
  fun t => A t ∨ created = some t

-- The temporaries that have values after the instructions.
def available (is : List Instr) : Temp → Prop :=
  fun t => A t ∨ ∃ i ∈ is, i.created = some t

end Definitions

mutual

-- Only temporaries that have values are used.
def Instr.Ready : (A : Temp → Prop) → Instr → Prop
  | A, .cond _ condInstrs condOp trueInstrs trueOp falseInstrs falseOp =>
    AllReady A condInstrs ∧ condOp.Within (available A condInstrs) ∧
    AllReady (available A condInstrs) trueInstrs ∧
    trueOp.Within (available (available A condInstrs) trueInstrs) ∧
    AllReady (available A condInstrs) falseInstrs ∧
    falseOp.Within (available (available A condInstrs) falseInstrs)
  | _, .param .. | _, .alloca .. | _, .const ..                                         => True
  | A, .addrOf _ source                                                                 =>
    (Operand.temp source).Within A
  | A, .copy _ op | A, .load64 _ op | A, .load32 _ op | A, .loadS32 _ op | A, .load16 _ op
  | A, .loadS16 _ op | A, .load8 _ op | A, .loadS8 _ op | A, .sext _ _ op | A, .zext _ _ op
  | A, .trunc _ _ op                                                                    => op.Within A
  | A, .store64 a b | A, .store32 a b | A, .store16 a b | A, .store8 a b | A, .bin _ _ a b =>
    a.Within A ∧ b.Within A
  | A, .call _ _ args                                                                   => ∀ op ∈ args, op.Within A
  | A, .callIndirect _ callee args                                                      =>
    callee.Within A ∧ ∀ op ∈ args, op.Within A

def AllReady : (A : Temp → Prop) → List Instr → Prop
  | _, []      => True
  | A, i :: is => i.Ready A ∧ AllReady (extend A i.created) is

end

variable {A B : Temp → Prop} {is js : List Instr} {i : Instr} {op : Operand} {ops : List Operand} {t : Temp}

attribute [simp, grind =] Instr.Ready

section Availability

@[simp, grind =]
theorem extend_none : extend A none = A := by
  funext u
  simp [extend]


@[simp, grind =]
theorem available_nil : available A [] = A := by
  funext t
  simp [available]

@[simp, grind =]
theorem available_cons : available A (i :: is) = available (extend A i.created) is := by
  funext t
  simp [available, extend, or_assoc]

@[simp, grind =]
theorem available_append : available A (is ++ js) = available (available A is) js := by
  funext t
  simp [available, or_assoc, or_and_right, exists_or]

end Availability

section Readiness

@[simp, grind ←]
theorem allReady_nil : AllReady A [] := by
  simp [AllReady]

@[simp, grind =]
theorem allReady_cons : AllReady A (i :: is) ↔ i.Ready A ∧ AllReady (extend A i.created) is := by
  rw [AllReady]

@[simp, grind =]
theorem allReady_append : AllReady A (is ++ js) ↔ AllReady A is ∧ AllReady (available A is) js := by
  induction is generalizing A <;> simp [and_assoc, *]

end Readiness

section Operands

theorem within_temp : (Operand.temp t).Within A ↔ A t := by
  simp [Operand.Within]

-- The result of an instruction has a value after it.
@[simp, grind ←]
theorem within_extend : (Operand.temp t).Within (extend A (some t)) :=
  within_temp.mpr <| .inr rfl

@[simp, grind ←]
theorem within_imm {value : Int} : (Operand.imm value).Within A :=
  nofun

@[simp, grind ←]
theorem within_immBytes {bytes : List Int} : (Operand.immBytes bytes).Within A :=
  nofun

@[simp, grind ←]
theorem within_global {name : String} : (Operand.global name).Within A :=
  nofun

@[simp, grind ←]
theorem within_function {name : String} : (Operand.function name).Within A :=
  nofun

theorem Operand.Within.mono (h : op.Within A) (hA : ∀ t, A t → B t) : op.Within B :=
  fun t ht => hA t <| h t ht

-- What has a value keeps having one.
@[simp, grind ←]
theorem Operand.Within.available (h : op.Within A) : op.Within (available A is) :=
  h.mono fun _ => .inl

@[simp, grind ←]
theorem Operand.Within.extend {created : Option Temp} (h : op.Within A) : op.Within (extend A created) :=
  h.mono fun _ => .inl

end Operands
end Hcc
