import Hcc.M1.Theorems.Fields

open CInteger Fields
open Hcc (BinOp Temp BlockId)

namespace Hcc.M1

-- A parser that results in `a` if `p` holds, and in an error otherwise.
def Accepts (r : Parse α) (p : Prop) (a : α) : Prop :=
  (p → r = .ok a) ∧ (¬p → ∃ e, r = .error e)

theorem Accepts.of_ok {r : Parse α} (h : r = .ok a) : Accepts r True a :=
  ⟨fun _ => h, fun hn => absurd trivial hn⟩

theorem Accepts.map {r : Parse α} (h : Accepts r p a) (f : α → β) :
    Accepts (do return f (← r)) p (f a) := by
  constructor
  · intro hp
    rw [h.left hp, ok_bind, pure_eq_ok]
  · intro hp
    have ⟨e, he⟩ := h.right hp
    exact ⟨e, by rw [he, error_bind]⟩

theorem Accepts.decides {r : Parse α} (h : Accepts r p a) :
    Fueled.Decides (fun _ => Fueled.done r) p a :=
  ⟨fun hp => .const <| by rw [h.left hp], fun hp => (h.right hp).imp fun _ he => .const <| by rw [he]⟩

section Instr

def instrKind : Hcc.Instr → Int
  | .param ..        => 1
  | .alloca ..       => 2
  | .const ..        => 3
  | .copy ..         => 5
  | .addrOf ..       => 6
  | .load64 ..       => 7
  | .load32 ..       => 8
  | .loadS32 ..      => 9
  | .load16 ..       => 10
  | .loadS16 ..      => 11
  | .load8 ..        => 12
  | .loadS8 ..       => 13
  | .store64 ..      => 14
  | .store32 ..      => 15
  | .store16 ..      => 16
  | .store8 ..       => 17
  | .bin ..          => 18
  | .call ..         => 19
  | .callIndirect .. => 20
  | .cond ..         => IK_COND
  | .sext ..         => 22
  | .zext ..         => 23
  | .trunc ..        => 24

def resultField : Option Temp → List Char
  | none   => ['-']
  | some t => digits t.index

def argsFields (args : List Hcc.Operand) : List (List Char) :=
  digits args.length :: args.flatMap operandFields

-- The fields that follow the kind of an instruction on its first line.
def instrFields : Hcc.Instr → List (List Char)
  | .param t n | .alloca t n | .const t n       => [digits t.index, digits n]
  | .copy t op | .load64 t op | .load32 t op | .loadS32 t op | .load16 t op | .loadS16 t op
  | .load8 t op | .loadS8 t op                  => digits t.index :: operandFields op
  | .addrOf t source                            => [digits t.index, digits source.index]
  | .store64 a b | .store32 a b | .store16 a b | .store8 a b => operandFields a ++ operandFields b
  | .sext t n op | .zext t n op | .trunc t n op => digits t.index :: digits n :: operandFields op
  | .bin t op a b              =>
    digits t.index :: digits (binOpCode op) :: operandFields a ++ operandFields b
  | .call result name args     => resultField result :: name.toList :: argsFields args
  | .callIndirect result op args => resultField result :: operandFields op ++ argsFields args
  | .cond t _ _ _ _ _ _        => [digits t.index]

theorem line_operand (op) : Line (tok :: operandFields op) = tok ++ ' ' :: Line (operandFields op) :=
  join_cons <| operandFields_ne_nil op

theorem line_operand_append (op) (h : toks ≠ []) :
    Line (operandFields op ++ toks) = Line (operandFields op) ++ ' ' :: Line toks :=
  join_append (operandFields_ne_nil op) h

theorem toList_args (args : List Hcc.Operand) :
    (listIrFields operandIrFields args).toList = Line (argsFields args) :=
  toList_listIrFields toList_operandIrFields operandFields_ne_nil args

theorem toList_result (result : Option Temp) :
    ((result.map tempText).getD "-").toList = resultField result := by
  cases result <;> rfl

theorem toList_repr (n : Int) : n.repr.toList = digits n := rfl

theorem emitTempOp_line : (emitTempOp kind t op).map String.toList =
    [Line (digits kind :: digits t.index :: operandFields op)] := by
  simp [emitTempOp, Line, join, line_operand, toList_tempText, toList_operandIrFields, digits]

theorem emitOpOp_line : (emitOpOp kind a b).map String.toList =
    [Line (digits kind :: (operandFields a ++ operandFields b))] := by
  have ha : operandFields a ++ operandFields b ≠ [] := by simp [operandFields_ne_nil]
  simp [emitOpOp, Line, join_cons ha, line_operand_append a (operandFields_ne_nil b),
    toList_operandIrFields, digits]

theorem emitExt_line : (emitExt kind t n op).map String.toList =
    [Line (digits kind :: digits t.index :: digits n :: operandFields op)] := by
  simp [emitExt, Line, join, line_operand, toList_tempText, toList_operandIrFields, digits]

def IsCond : Hcc.Instr → Prop
  | .cond .. => True
  | _        => False

theorem emitInstrIr_line (h : ¬IsCond instr) : (emitInstrIr instr).map String.toList =
    [Line (digits (instrKind instr) :: instrFields instr)] := by
  cases instr
  case cond => exact absurd trivial h
  case copy | load64 | load32 | loadS32 | load16 | loadS16 | load8 | loadS8 =>
    exact emitTempOp_line
  case store64 | store32 | store16 | store8 => exact emitOpOp_line
  case sext | zext | trunc => exact emitExt_line
  case param t n =>
    have hk : digits 1 = ['1'] := by decide
    simp [emitInstrIr, instrFields, Line, join, toList_tempText, toList_repr, hk, instrKind]
  case alloca t n =>
    have hk : digits 2 = ['2'] := by decide
    simp [emitInstrIr, instrFields, Line, join, toList_tempText, toList_repr, hk, instrKind]
  case const t n =>
    have hk : digits 3 = ['3'] := by decide
    simp [emitInstrIr, instrFields, Line, join, toList_tempText, toList_repr, hk, instrKind]
  case addrOf t source =>
    have hk : digits 6 = ['6'] := by decide
    simp [emitInstrIr, instrFields, Line, join, toList_tempText, hk, instrKind]
  case bin t op a b =>
    have hk : digits 18 = ['1', '8'] := by decide
    have ha : operandFields a ++ operandFields b ≠ [] := by simp [operandFields_ne_nil]
    simp [emitInstrIr, instrFields, Line, join, join_cons ha, toList_tempText, toList_repr, hk, instrKind,
      line_operand_append a (operandFields_ne_nil b), toList_operandIrFields]
  case call result name args =>
    have hk : digits 19 = ['1', '9'] := by decide
    simp [emitInstrIr, instrFields, Line, join, argsFields, toList_args, toList_result, hk, instrKind]
  case callIndirect result callee args =>
    have hk : digits 20 = ['2', '0'] := by decide
    have ha : operandFields callee ++ argsFields args ≠ [] := by simp [operandFields_ne_nil]
    have hs : argsFields args ≠ [] := by simp [argsFields]
    simp [emitInstrIr, instrFields, Line, join, join_cons ha, line_operand_append callee hs,
      toList_args, toList_result, toList_operandIrFields, hk, instrKind]

theorem resultField_clear : Clear (resultField result) := by
  cases result
  case none   => simp [Clear, resultField, isSpaceChar]
  case some t => exact digits_clear _

theorem argsFields_clear (hs : ∀ name ∈ args.flatMap operandNames, Solid name) :
    ∀ tok ∈ argsFields args, Clear tok := by
  simp only [argsFields, List.mem_cons, List.mem_flatMap, forall_eq_or_imp]
  refine ⟨digits_clear _, fun tok ⟨op, ho, ht⟩ => operandFields_clear (fun name hn => ?_) tok ht⟩
  exact hs name <| List.mem_flatMap.mpr ⟨op, ho, hn⟩

theorem instrFields_clear (hs : ∀ name ∈ instrNames instr, Solid name) :
    ∀ tok ∈ instrFields instr, Clear tok := by
  cases instr
  case param | alloca | const | addrOf | cond => simp [instrFields, digits_clear]
  case copy op | load64 op | load32 op | loadS32 op | load16 op | loadS16 op | load8 op | loadS8 op =>
    simpa [instrFields, digits_clear] using operandFields_clear hs
  case sext op | zext op | trunc op =>
    simpa [instrFields, digits_clear] using operandFields_clear hs
  case store64 a b | store32 a b | store16 a b | store8 a b | bin a b =>
    have ha := @operandFields_clear a fun name hn => hs name <| List.mem_append_left _ hn
    have hb := @operandFields_clear b fun name hn => hs name <| List.mem_append_right _ hn
    simpa [instrFields, digits_clear, or_imp, forall_and] using ⟨ha, hb⟩
  case call result name args =>
    have hn := hs name (.head _)
    have ha := argsFields_clear fun name hn => hs name (.tail _ hn)
    simpa [instrFields, resultField_clear] using ⟨hn, ha⟩
  case callIndirect result callee args =>
    have hc := @operandFields_clear callee fun name hn => hs name <| List.mem_append_left _ hn
    have ha := @argsFields_clear args fun name hn => hs name <| List.mem_append_right _ hn
    simpa [instrFields, resultField_clear, or_imp, forall_and] using ⟨hc, ha⟩

theorem parseIrResult_line :
    parseIrResult (Line (resultField result :: toks)) =
      .ok (encodeResult IntType.int.wrap result, Line toks) := by
  cases result
  case none =>
    have h : IsField isBlank ['-'] := ⟨nofun, by simp [isBlank]⟩
    simp only [resultField, parseIrResult, needToken_line h, ok_bind]
    rfl
  case some t =>
    simp only [resultField, parseIrResult, needToken_line (digits_isField _), ok_bind, encodeResult,
      if_neg (digits_natCast_ne_dash _), parseLongText_digits, wrap_long, pure_eq_ok]

theorem length_le_of_mem {args : List Hcc.Operand} (h : op ∈ args) :
    (operandFields op).length ≤ (args.flatMap operandFields).length :=
  (List.sublist_flatten_of_mem <| List.mem_map_of_mem h).length_le

theorem length_le_flatMap (args : List Hcc.Operand) :
    args.length ≤ (args.flatMap operandFields).length := by
  induction args
  case nil => simp
  case cons op args hi =>
    have := List.length_pos_iff.mpr <| operandFields_ne_nil op
    simp only [List.length_cons, List.flatMap_cons, List.length_append]
    omega

theorem parseArgs_line (args : List Hcc.Operand) (hs : ∀ name ∈ args.flatMap operandNames, Solid name)
    (hl : (argsFields args).length ≤ LINE_CAP) :
    parseArgs (Line (argsFields args)) =
      .ok (args.length, args.map (encodeOperand IntType.int.wrap long.wrap)) := by
  simp only [argsFields, List.length_cons] at hl
  have hw : IntType.int.wrap args.length = args.length := wrap_count <| by
    have := length_le_flatMap args
    omega
  have ha : parseMany parseIrOperand args.length (Line (args.flatMap operandFields ++ [])) =
      .ok (args.map (encodeOperand IntType.int.wrap long.wrap), Line []) :=
    parseMany_line fun op ho toks =>
      parseIrOperand_line op (fun name hn => hs name <| List.mem_flatMap.mpr ⟨op, ho, hn⟩) <| by
        have := length_le_of_mem ho
        omega
  rw [List.append_nil] at ha
  simp only [parseArgs, argsFields, parseIntToken_line, ok_bind, hw, Int.toNat_natCast, ha, pure_eq_ok]

section Families

variable {a b op : Hcc.Operand} (ha : ∀ name ∈ operandNames a, Solid name)
         (hb : ∀ name ∈ operandNames b, Solid name) (hs : ∀ name ∈ operandNames op, Solid name)

theorem parseIrFields_tempValue (hk : kind ∈ [1, 2, 3]) :
    parseIrFields kind (Line [digits (t : Temp).index, digits n]) =
      .ok (encodeTempValue IntType.int.wrap long.wrap kind t n) := by
  simp only [parseIrFields, if_pos hk, parseIntToken_line, parseLongToken_line, ok_bind, pure_eq_ok]
  rfl

include hs in
theorem parseIrOperand_last (hl : (operandFields op).length ≤ LINE_CAP) :
    parseIrOperand (Line (operandFields op)) =
      .ok (encodeOperand IntType.int.wrap long.wrap op, Line []) := by
  have h : parseIrOperand (Line (operandFields op ++ [])) = _ := parseIrOperand_line op hs hl
  rwa [List.append_nil] at h

include hs in
theorem parseIrFields_tempOp (hk : kind ∈ [5, 7, 8, 9, 10, 11, 12, 13])
    (hl : (digits t.index :: operandFields op).length ≤ LINE_CAP) :
    parseIrFields kind (Line (digits (t : Temp).index :: operandFields op)) =
      .ok (encodeTempOp IntType.int.wrap long.wrap kind t op) := by
  have hk' : kind ∉ [1, 2, 3] := by simp at *; omega
  simp only [parseIrFields, if_neg hk', if_pos hk, parseIntToken_line, ok_bind, pure_eq_ok,
    parseIrOperand_last hs <| Nat.le_of_succ_le hl]
  rfl

include hs in
theorem parseIrFields_ext (hk : kind ∈ [22, 23, 24])
    (hl : (digits t.index :: digits n :: operandFields op).length ≤ LINE_CAP) :
    parseIrFields kind (Line (digits (t : Temp).index :: digits n :: operandFields op)) =
      .ok (encodeExt IntType.int.wrap long.wrap kind t n op) := by
  have hk₁ : kind ∉ [1, 2, 3] := by simp at *; omega
  have hk₂ : kind ∉ [5, 7, 8, 9, 10, 11, 12, 13] := by simp at *; omega
  have hl : (operandFields op).length ≤ LINE_CAP := Nat.le_of_succ_le <| Nat.le_of_succ_le hl
  simp only [parseIrFields, if_neg hk₁, if_neg hk₂, if_pos hk, parseIntToken_line, ok_bind,
    parseLongToken_line, pure_eq_ok, parseIrOperand_last hs hl]
  rfl

include ha hb in
theorem parseIrFields_opOp (hk : kind ∈ [14, 15, 16, 17])
    (hl : (operandFields a ++ operandFields b).length ≤ LINE_CAP) :
    parseIrFields kind (Line (operandFields a ++ operandFields b)) =
      .ok (encodeOpOp IntType.int.wrap long.wrap kind a b) := by
  have hk₁ : kind ∉ [1, 2, 3] := by simp at *; omega
  have hk₂ : kind ∉ [5, 7, 8, 9, 10, 11, 12, 13] := by simp at *; omega
  have hk₃ : kind ∉ [22, 23, 24] := by simp at *; omega
  have hk₄ : kind ≠ 6 := by simp at *; omega
  rw [List.length_append] at hl
  simp only [parseIrFields, if_neg hk₁, if_neg hk₂, if_neg hk₃, if_neg hk₄, if_pos hk, ok_bind,
    parseIrOperand_line a ha <| Nat.le_of_add_right_le hl, pure_eq_ok,
    parseIrOperand_last hb <| Nat.le_of_add_left_le hl]
  rfl

theorem parseIrFields_addrOf : parseIrFields 6 (Line [digits (t : Temp).index, digits (s : Temp).index]) =
    .ok { kind := 6, temp := IntType.int.wrap t.index, temp2 := IntType.int.wrap s.index } := by
  rw [parseIrFields, if_neg (by decide), if_neg (by decide), if_neg (by decide), if_pos rfl]
  simp only [parseIntToken_line, ok_bind, pure_eq_ok]

include ha hb in
theorem parseIrFields_bin
    (hl : (digits t.index :: digits n :: (operandFields a ++ operandFields b)).length ≤ LINE_CAP) :
    parseIrFields 18 (Line (digits (t : Temp).index :: digits n :: (operandFields a ++ operandFields b))) =
      .ok { kind := 18, temp := IntType.int.wrap t.index, binop := IntType.int.wrap n,
            a := encodeOperand IntType.int.wrap long.wrap a,
            b := encodeOperand IntType.int.wrap long.wrap b } := by
  have hl : (operandFields a).length + (operandFields b).length ≤ LINE_CAP := by
    rw [←List.length_append]
    exact Nat.le_of_succ_le <| Nat.le_of_succ_le hl
  rw [parseIrFields, if_neg (by decide), if_neg (by decide), if_neg (by decide), if_neg (by decide),
    if_neg (by decide), if_pos rfl]
  simp only [parseIntToken_line, ok_bind, parseIrOperand_line a ha <| Nat.le_of_add_right_le hl,
    parseIrOperand_last hb <| Nat.le_of_add_left_le hl, pure_eq_ok]

end Families

section Calls

variable {args : List Hcc.Operand} {op : Hcc.Operand} {name : String}

theorem parseIrFields_callIndirect
    (hs : ∀ n ∈ instrNames (.callIndirect result op args), Solid n)
    (hl : (instrFields (.callIndirect result op args)).length ≤ LINE_CAP) :
    parseIrFields 20 (Line (instrFields (.callIndirect result op args))) =
      .ok (encodeFields IntType.int.wrap long.wrap (.callIndirect result op args)) := by
  have ho : ∀ n ∈ operandNames op, Solid n := fun n hn => hs n <| List.mem_append_left _ hn
  have ha : ∀ n ∈ args.flatMap operandNames, Solid n := fun n hn => hs n <| List.mem_append_right _ hn
  have hl : (operandFields op).length + (argsFields args).length ≤ LINE_CAP := by
    rw [←List.length_append]
    exact Nat.le_of_succ_le hl
  rw [parseIrFields, if_neg (by decide), if_neg (by decide), if_neg (by decide), if_neg (by decide),
    if_neg (by decide), if_neg (by decide), if_neg (by decide), if_pos rfl]
  simp only [instrFields, List.cons_append, parseIrResult_line, ok_bind,
    parseIrOperand_line op ho <| Nat.le_of_add_right_le hl,
    parseArgs_line args ha <| Nat.le_of_add_left_le hl, pure_eq_ok]
  rfl

-- After an empty name, the number of arguments is taken for the name.
theorem needName_unnamed : needName (Line ([] :: argsFields args)) =
    .ok (String.ofList (digits args.length), Line (args.flatMap operandFields)) := by
  have hn : needToken (Line ([] :: argsFields args)) = needToken (Line (argsFields args)) := by
    have : Line ([] :: argsFields args) = ' ' :: Line (argsFields args) := by simp [join, argsFields]
    rw [this, needToken, needToken, nextToken, nextToken, List.dropWhile_cons_of_pos rfl]
  rw [needName, hn, argsFields]
  simp only [needToken_line (digits_isField _), ok_bind, pure_eq_ok]

theorem parseArgs_unnamed (hs : ∀ n ∈ args.flatMap operandNames, Solid n) :
    ∃ e, parseArgs (Line (args.flatMap operandFields)) = .error e := by
  cases args
  case nil => exact ⟨_, rfl⟩
  case cons op args =>
    have ho : ∀ n ∈ operandNames op, Solid n := fun n hn => hs n <| List.mem_append_left _ hn
    have ⟨e, he⟩ := @parseIntToken_operand (args.flatMap operandFields) op ho
    exact ⟨e, by simp only [parseArgs, List.flatMap_cons, he, error_bind]⟩

theorem parseIrFields_call (hs : ∀ n ∈ instrNames (.call result name args), Solid n)
    (hl : (instrFields (.call result name args)).length ≤ LINE_CAP) :
    Accepts (parseIrFields 19 (Line (instrFields (.call result name args)))) (name ≠ "")
      (encodeFields IntType.int.wrap long.wrap (.call result name args)) := by
  have ha : ∀ n ∈ args.flatMap operandNames, Solid n := fun n hn => hs n (.tail _ hn)
  rw [parseIrFields, if_neg (by decide), if_neg (by decide), if_neg (by decide), if_neg (by decide),
    if_neg (by decide), if_neg (by decide), if_pos rfl]
  simp only [instrFields, parseIrResult_line, ok_bind]
  constructor
  · intro hn
    have hf := Clear.isField (hs name (.head _)) <| by simpa using hn
    have hl : (argsFields args).length ≤ LINE_CAP := Nat.le_of_succ_le <| Nat.le_of_succ_le hl
    simp only [needName, needToken_line hf, parseArgs_line args ha hl, ok_bind, pure_eq_ok,
      String.ofList_toList]
    rfl
  · intro hn
    have ⟨e, he⟩ := parseArgs_unnamed ha
    exact ⟨e, by simp only [not_not.mp hn, String.toList_empty, needName_unnamed, ok_bind, he,
      error_bind]⟩

end Calls

-- The callees that are called directly have names.
mutual

def InstrNamed : Hcc.Instr → Prop
  | .call _ name _                                => name ≠ ""
  | .cond _ condInstrs _ trueInstrs _ falseInstrs _ =>
    InstrsNamed condInstrs ∧ InstrsNamed trueInstrs ∧ InstrsNamed falseInstrs
  | _                                             => True

def InstrsNamed : List Hcc.Instr → Prop
  | []              => True
  | instr :: instrs => InstrNamed instr ∧ InstrsNamed instrs

end

theorem parseIrFields_line (hc : ¬IsCond instr) (hs : ∀ name ∈ instrNames instr, Solid name)
    (hl : (instrFields instr).length ≤ LINE_CAP) :
    Accepts (parseIrFields (instrKind instr) (Line (instrFields instr))) (InstrNamed instr)
      (encodeFields IntType.int.wrap long.wrap instr) := by
  cases instr
  case cond => exact absurd trivial hc
  case param | alloca | const => exact .of_ok <| parseIrFields_tempValue (by simp [instrKind])
  case copy | load64 | load32 | loadS32 | load16 | loadS16 | load8 | loadS8 =>
    exact .of_ok <| parseIrFields_tempOp hs (by simp [instrKind]) hl
  case store64 a b | store32 a b | store16 a b | store8 a b =>
    have ha : ∀ name ∈ operandNames a, Solid name := fun name hn => hs name <| List.mem_append_left _ hn
    have hb : ∀ name ∈ operandNames b, Solid name := fun name hn => hs name <| List.mem_append_right _ hn
    exact .of_ok <| parseIrFields_opOp ha hb (by simp [instrKind]) hl
  case sext | zext | trunc => exact .of_ok <| parseIrFields_ext hs (by simp [instrKind]) hl
  case addrOf => exact .of_ok parseIrFields_addrOf
  case bin t op a b =>
    have ha : ∀ name ∈ operandNames a, Solid name := fun name hn => hs name <| List.mem_append_left _ hn
    have hb : ∀ name ∈ operandNames b, Solid name := fun name hn => hs name <| List.mem_append_right _ hn
    have hw : IntType.int.wrap (binOpCode op) = binOpCode op := by cases op <;> decide
    have h := parseIrFields_bin ha hb hl
    rw [hw] at h
    exact .of_ok h
  case call result name args => exact parseIrFields_call hs hl
  case callIndirect => exact .of_ok <| parseIrFields_callIndirect hs hl

end Instr

section Terminator

def terminatorFields : Terminator → List (List Char)
  | .ret none               => [['R']]
  | .ret (some op)          => ['R'] :: operandFields op
  | .jump target            => [['J'], digits target.index]
  | .branch op yes no       => ['B'] :: (operandFields op ++ [digits yes.index, digits no.index])
  | .branchCmp op a b yes no =>
    ['C'] :: digits (binOpCode op) :: (operandFields a ++
      (operandFields b ++ [digits yes.index, digits no.index]))

theorem toList_terminatorIrLine (term) :
    (terminatorIrLine term).toList = Line (terminatorFields term) := by
  cases term
  case ret value =>
    cases value
    case none    => rfl
    case some op => simp [terminatorIrLine, terminatorFields, line_operand, toList_operandIrFields]
  case jump => simp [terminatorIrLine, terminatorFields, Line, join, toList_blockIdText]
  case branch op yes no =>
    have ho : operandFields op ++ [digits yes.index, digits no.index] ≠ [] := by simp
    simp [terminatorIrLine, terminatorFields, Line, join_cons ho, toList_blockIdText, join,
      line_operand_append op (List.cons_ne_nil _ _), toList_operandIrFields]
  case branchCmp op a b yes no =>
    have hb : operandFields b ++ [digits yes.index, digits no.index] ≠ [] := by simp
    have ha : operandFields a ++ (operandFields b ++ [digits yes.index, digits no.index]) ≠ [] := by
      simp
    simp [terminatorIrLine, terminatorFields, Line, join, join_cons ha, line_operand_append a hb,
      line_operand_append b (List.cons_ne_nil _ _), toList_blockIdText, toList_operandIrFields,
      toList_repr]

theorem terminatorFields_clear (hs : ∀ name ∈ termNames term, Solid name) :
    ∀ tok ∈ terminatorFields term, Clear tok := by
  have hc (c : Char) (h : isSpaceChar c = false ∧ c ≠ '\x00') : Clear [c] := by simpa [Clear] using h
  cases term
  case ret value =>
    cases value
    case none    => simpa [terminatorFields] using hc 'R' (by decide)
    case some op => simpa [terminatorFields] using ⟨hc 'R' (by decide), operandFields_clear hs⟩
  case jump => simpa [terminatorFields, digits_clear] using hc 'J' (by decide)
  case branch op yes no =>
    simpa [terminatorFields, digits_clear, or_imp, forall_and] using
      ⟨hc 'B' (by decide), operandFields_clear hs⟩
  case branchCmp op a b yes no =>
    have ha := @operandFields_clear a fun name hn => hs name <| List.mem_append_left _ hn
    have hb := @operandFields_clear b fun name hn => hs name <| List.mem_append_right _ hn
    simpa [terminatorFields, digits_clear, or_imp, forall_and] using ⟨hc 'C' (by decide), ha, hb⟩

theorem operandFields_nonempty (op) : ∀ tok ∈ operandFields op, tok ≠ [] := by
  cases op <;> simp [operandFields, digits_ne_nil]

theorem returnsBytes_iff (op) :
    ReturnsBytes (.ret (some op)) ↔ (operandFields op).tail ≠ [] := by
  cases op <;> simp [ReturnsBytes, operandFields]

-- Only the first token of a returned operand is visible.
theorem parseIrOperand_head (ho : operandFields op = tok :: toks)
    (hs : ∀ name ∈ operandNames op, Solid name) (hl : (operandFields op).length ≤ LINE_CAP) :
    Accepts (parseIrOperand tok) (¬ReturnsBytes (.ret (some op)))
      (encodeOperand IntType.int.wrap long.wrap op, []) := by
  rw [returnsBytes_iff, ho, List.tail_cons, not_not]
  constructor
  · intro ht
    have h := parseIrOperand_last hs hl
    rwa [ho, ht] at h
  · intro ht
    cases op
    case immBytes bytes =>
      obtain ⟨rfl, rfl⟩ := List.cons.inj ho
      have hf := (digits_clear bytes.length).cons (c := 'B') (by decide) |>.isField nofun
      have hl : bytes.length ≤ LINE_CAP := by simp [operandFields] at hl; omega
      have hm : parseMany parseIntToken bytes.length (Line []) = .error "truncated input line" := by
        cases bytes
        case nil  => exact absurd rfl ht
        case cons => rfl
      refine ⟨"truncated input line", ?_⟩
      rw [parseIrOperand, show 'B' :: digits bytes.length = Line ['B' :: digits bytes.length] from rfl]
      simp only [needToken_line hf, ok_bind, parseLongText_digits, wrap_long, wrap_count hl,
        Int.toNat_natCast, hm, error_bind]
    all_goals exact absurd (List.cons.inj ho).right.symm ht

theorem parseIrTerm_line (hs : ∀ name ∈ termNames term, Solid name)
    (hl : (terminatorFields term).length ≤ LINE_CAP) :
    Accepts (parseIrTerm (Line (terminatorFields term))) (¬ReturnsBytes term)
      (encodeTerm IntType.int.wrap long.wrap term) := by
  have hc (c : Char) (h : isBlank c = false) : IsField isBlank [c] := ⟨nofun, by simpa using h⟩
  cases term
  case ret value =>
    cases value
    case none    => exact ⟨fun _ => rfl, fun h => absurd id h⟩
    case some op =>
      have hl : (operandFields op).length ≤ LINE_CAP := Nat.le_of_succ_le hl
      rcases ho : operandFields op with _ | ⟨tok, toks⟩
      case nil  => exact absurd ho <| operandFields_ne_nil op
      case cons =>
        have hf := (operandFields_clear hs tok <| ho ▸ .head _).isField <|
          operandFields_nonempty op tok <| ho ▸ .head _
        have h := (parseIrOperand_head ho hs hl).map fun r => ({ termKind := TK_RET, termOp := r.1 } : Block)
        simp only [terminatorFields, ho, parseIrTerm, needToken_line <| hc 'R' rfl, ok_bind,
          nextToken_line hf]
        rwa [if_pos trivial]
  case jump target =>
    refine ⟨fun _ => ?_, fun h => absurd id h⟩
    simp only [terminatorFields, parseIrTerm, needToken_line <| hc 'J' rfl, ok_bind]
    rw [if_neg (by decide), if_pos trivial]
    simp only [parseIntToken_line, ok_bind, pure_eq_ok]
    rfl
  case branch op yes no =>
    refine ⟨fun _ => ?_, fun h => absurd id h⟩
    have hl : (operandFields op).length ≤ LINE_CAP := by simp [terminatorFields] at hl; omega
    simp only [terminatorFields, parseIrTerm, needToken_line <| hc 'B' rfl, ok_bind]
    rw [if_neg (by decide), if_neg (by decide), if_pos trivial]
    simp only [parseIrOperand_line op hs hl, parseIntToken_line, ok_bind, pure_eq_ok]
    rfl
  case branchCmp op a b yes no =>
    refine ⟨fun _ => ?_, fun h => absurd id h⟩
    have hw : IntType.int.wrap (binOpCode op) = binOpCode op := by cases op <;> decide
    have ha : ∀ name ∈ operandNames a, Solid name := fun name hn => hs name <| List.mem_append_left _ hn
    have hb : ∀ name ∈ operandNames b, Solid name := fun name hn => hs name <| List.mem_append_right _ hn
    have hla : (operandFields a).length ≤ LINE_CAP := by simp [terminatorFields] at hl; omega
    have hlb : (operandFields b).length ≤ LINE_CAP := by simp [terminatorFields] at hl; omega
    simp only [terminatorFields, parseIrTerm, needToken_line <| hc 'C' rfl, ok_bind]
    rw [if_neg (by decide), if_neg (by decide), if_neg (by decide), if_pos trivial]
    simp only [parseIrOperand_line a ha hla, parseIrOperand_line b hb hlb, parseIntToken_line,
      ok_bind, pure_eq_ok, hw]
    rfl

end Terminator
end Hcc.M1
