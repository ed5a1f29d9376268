import Hcc.Ir.Temps

-- Instructions over other temporaries.
namespace Hcc

section Definitions

variable (f : Temp → Temp)

def Operand.rename : Operand → Operand
  | .temp t => .temp (f t)
  | op      => op

mutual

def Instr.rename : Instr → Instr
  | .param t index        => .param (f t) index
  | .alloca t size        => .alloca (f t) size
  | .const t value        => .const (f t) value
  | .copy t op            => .copy (f t) (op.rename f)
  | .addrOf t source      => .addrOf (f t) (f source)
  | .load64 t addr        => .load64 (f t) (addr.rename f)
  | .load32 t addr        => .load32 (f t) (addr.rename f)
  | .loadS32 t addr       => .loadS32 (f t) (addr.rename f)
  | .load16 t addr        => .load16 (f t) (addr.rename f)
  | .loadS16 t addr       => .loadS16 (f t) (addr.rename f)
  | .load8 t addr         => .load8 (f t) (addr.rename f)
  | .loadS8 t addr        => .loadS8 (f t) (addr.rename f)
  | .store64 addr value   => .store64 (addr.rename f) (value.rename f)
  | .store32 addr value   => .store32 (addr.rename f) (value.rename f)
  | .store16 addr value   => .store16 (addr.rename f) (value.rename f)
  | .store8 addr value    => .store8 (addr.rename f) (value.rename f)
  | .sext t size op       => .sext (f t) size (op.rename f)
  | .zext t size op       => .zext (f t) size (op.rename f)
  | .trunc t size op      => .trunc (f t) size (op.rename f)
  | .bin t op left right  => .bin (f t) op (left.rename f) (right.rename f)
  | .cond t condInstrs condOp trueInstrs trueOp falseInstrs falseOp =>
    .cond (f t) (renameInstrs condInstrs) (condOp.rename f) (renameInstrs trueInstrs) (trueOp.rename f)
      (renameInstrs falseInstrs) (falseOp.rename f)
  | .call result name args => .call (result.map f) name (args.map (·.rename f))
  | .callIndirect result callee args =>
    .callIndirect (result.map f) (callee.rename f) (args.map (·.rename f))

def renameInstrs : List Instr → List Instr
  | []              => []
  | instr :: instrs => instr.rename :: renameInstrs instrs

end

end Definitions

theorem renameInstrs_eq_map {f : Temp → Temp} {is : List Instr} :
    renameInstrs f is = is.map (Instr.rename f) := by
  induction is <;> simp [renameInstrs, *]

end Hcc
