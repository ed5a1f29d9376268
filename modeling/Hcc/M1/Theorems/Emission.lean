import Hcc.M1.Function

-- The locations of temps that the emission of a function relies on.
namespace Hcc.M1

-- The errors that concern the location of a temp do not occur.
def Avoids (e : Except String α) : Prop :=
  ∀ ⦃msg⦄, e = .error msg → msg ≠ "missing allocation" ∧ msg ≠ "cannot assign stack object"

namespace Avoids

variable {e : Except String α} {f : α → Except String β}

theorem ok {a : α} : Avoids (.ok a : Except String α) :=
  nofun

theorem error (h : msg ≠ "missing allocation" ∧ msg ≠ "cannot assign stack object") :
    Avoids (.error msg : Except String α) := by
  rintro _ ⟨⟩
  exact h

theorem bind (h : Avoids e) (hf : ∀ a, Avoids (f a)) : Avoids (e >>= f) := by
  intro msg he
  cases e
  case error => exact h <| congrArg _ <| Except.error.inj he
  case ok a  => exact hf a he

theorem map {g : α → β} (h : Avoids e) : Avoids (g <$> e) := by
  cases e
  case error => exact fun _ he => h <| congrArg _ <| Except.error.inj he
  case ok    => exact .ok

theorem foldlM {f : β → α → Except String β} {as : List α} (h : ∀ b, ∀ a ∈ as, Avoids (f b a)) {b : β} :
    Avoids (as.foldlM f b) := by
  induction as generalizing b
  case nil             => exact .ok
  case cons a as hi =>
    exact .bind (h b a List.mem_cons_self) fun b => hi fun b a hm => h b a <| List.mem_cons_of_mem _ hm

end Avoids

variable {t : Target} {locs : LocArray} {temp result bias : Int} {op callee : Operand}
         {args : List Operand} {fields : Fields} {state : EmitState} {instr : Instr}
         {instrs : List Instr} {uses : Uses} {block : Block} {blocks : List Block}

section Located

def Has (locs : LocArray) (temp : Int) : Prop :=
  ∃ loc, locs temp = some loc

def OnStack (locs : LocArray) (temp : Int) : Prop :=
  ∃ loc, locs temp = some loc ∧ loc.kind = .stack

theorem OnStack.has (h : OnStack locs temp) : Has locs temp :=
  have ⟨loc, h, _⟩ := h
  ⟨loc, h⟩

def Operand.Located (locs : LocArray) (op : Operand) : Prop :=
  op.kind = OP_TEMP → Has locs op.value

theorem located_default : Operand.Located locs {} :=
  nofun

theorem located_getD (h : ∀ op ∈ args, op.Located locs) (i : Nat) : (args.getD i {}).Located locs := by
  by_cases hi : i < args.length
  case pos =>
    rw [List.getD_eq_getElem args {} hi]
    exact h _ <| List.getElem_mem hi
  case neg =>
    rw [List.getD_eq_default args {} <| Nat.le_of_not_lt hi]
    exact located_default

theorem located_ite {c : Prop} [Decidable c] {a b : Operand} (ha : a.Located locs) (hb : b.Located locs) :
    (if c then a else b).Located locs := by
  split <;> assumption

-- The temps that an instruction refers to have locations of the right kinds.
structure Fields.Located (locs : LocArray) (fields : Fields) : Prop where
  a      : fields.a.Located locs
  b      : fields.b.Located locs
  callee : fields.callee.Located locs
  args   : ∀ op ∈ fields.args, op.Located locs
  source : fields.kind = IK_ADDROF → Has locs fields.temp2
  temp   : fields.kind ∈ [1, 3, 5, 6, 7, 8, 9, 10, 11, 12, 13, 18, 21, 22, 23, 24] →
           OnStack locs fields.temp
  result : fields.result ≥ 0 → OnStack locs fields.result

mutual

def Instr.Located (locs : LocArray) : Instr → Prop
  | .mk fields condInstrs trueInstrs falseInstrs condOp trueOp falseOp =>
    fields.Located locs ∧ AllLocated locs condInstrs ∧ AllLocated locs trueInstrs ∧
      AllLocated locs falseInstrs ∧ condOp.Located locs ∧ trueOp.Located locs ∧ falseOp.Located locs

def AllLocated (locs : LocArray) : List Instr → Prop
  | []              => True
  | instr :: instrs => instr.Located locs ∧ AllLocated locs instrs

end

structure Block.Located (locs : LocArray) (block : Block) : Prop where
  instrs : AllLocated locs block.instrs
  termOp : block.termOp.Located locs
  termB  : block.termB.Located locs

end Located

section Access

theorem lookupLoc_avoids (h : Has locs temp) : Avoids (lookupLoc locs temp) := by
  have ⟨loc, h⟩ := h
  rw [lookupLoc, h]
  exact .ok

theorem emitLoadOperand_avoids (h : op.Located locs) : Avoids (emitLoadOperand t locs bias op state) := by
  unfold emitLoadOperand
  split_ifs with _ _ _ _ hk
  case pos => exact .ok
  case pos => exact .ok
  case pos => exact .ok
  case pos => exact .ok
  case pos =>
    refine .bind (lookupLoc_avoids <| h hk) fun loc => ?_
    dsimp only
    split_ifs <;> exact .ok
  case neg => exact .ok

theorem emitStoreTemp_avoids (h : OnStack locs temp) : Avoids (emitStoreTemp t locs temp state) := by
  have ⟨loc, hl, hk⟩ := h
  have he : lookupLoc locs temp = .ok loc := by rw [lookupLoc, hl]
  unfold emitStoreTemp
  rw [he]
  simp only [bind, Except.bind, hk]
  split_ifs <;> exact .ok

theorem emitLoad_avoids (h : op.Located locs) : Avoids (emitLoad t locs op state) :=
  .map <| emitLoadOperand_avoids h

theorem emitStore_avoids (h : OnStack locs temp) : Avoids (emitStore t locs temp state) :=
  .map <| emitStoreTemp_avoids h

end Access

section Calls

theorem emitArgumentMove_avoids : Avoids (emitArgumentMove t i) := by
  unfold emitArgumentMove
  split
  all_goals split
  any_goals split
  all_goals first | exact .ok | exact .error (by decide)

theorem emitPushedArguments_avoids (h : ∀ op ∈ args, op.Located locs) :
    Avoids (emitPushedArguments t locs args limit i pushed state) := by
  induction i generalizing pushed state
  case zero => exact .ok
  case succ i hi =>
    unfold emitPushedArguments
    split
    case isTrue  => exact .bind (emitLoadOperand_avoids <| located_getD h i) fun _ => .bind hi fun _ => .ok
    case isFalse => exact .ok

theorem emitRegisterArguments_avoids (h : ∀ op ∈ args, op.Located locs) :
    Avoids (emitRegisterArguments t locs args indices state) := by
  induction indices generalizing state
  case nil => exact .ok
  case cons i indices hi =>
    exact .bind (emitLoadOperand_avoids <| located_getD h i) fun _ =>
      .bind emitArgumentMove_avoids fun _ => .bind hi fun _ => .ok

theorem emitArguments_avoids (h : ∀ op ∈ args, op.Located locs) :
    Avoids (emitArguments t locs args state) :=
  .bind (emitPushedArguments_avoids h) fun _ => .bind (emitRegisterArguments_avoids h) fun _ => .ok

theorem emitCallResult_avoids (h : result ≥ 0 → OnStack locs result) :
    Avoids (emitCallResult t locs result argc state) := by
  unfold emitCallResult
  dsimp only
  split
  case isTrue hr => exact .bind (emitStoreTemp_avoids <| h hr) fun _ => .ok
  case isFalse   => exact .ok

theorem emitCall_avoids (ha : ∀ op ∈ args, op.Located locs) (hr : result ≥ 0 → OnStack locs result) :
    Avoids (emitCall t locs name args result state) :=
  .bind (emitArguments_avoids ha) fun _ => .bind (emitCallResult_avoids hr) fun _ => .ok

theorem emitCalliBranch_avoids (hc : callee.Located locs) (ha : ∀ op ∈ args, op.Located locs) :
    Avoids (emitCalliBranch t locs callee args state) := by
  unfold emitCalliBranch
  split
  case h_3 => exact .bind (emitArguments_avoids ha) fun _ => .bind (emitLoadOperand_avoids hc) fun _ => .ok
  all_goals exact .bind (emitLoadOperand_avoids hc) fun _ => .bind (emitArguments_avoids ha) fun _ => .ok

theorem emitCalli_avoids (hc : callee.Located locs) (ha : ∀ op ∈ args, op.Located locs)
    (hr : result ≥ 0 → OnStack locs result) : Avoids (emitCalli t locs callee args result state) :=
  .bind (emitCalliBranch_avoids hc ha) fun _ => .bind (emitCallResult_avoids hr) fun _ => .ok

theorem emitParam_avoids (h : OnStack locs temp) : Avoids (emitParam t locs totalSlots temp index state) :=
  .bind (emitStoreTemp_avoids h) fun _ => .ok

end Calls

section Uses

theorem countTempUse_avoids (h : Has locs temp) : Avoids (countTempUse locs uses temp) :=
  .bind (lookupLoc_avoids h) fun _ => .ok

theorem countOperandUse_avoids (h : op.Located locs) : Avoids (countOperandUse locs uses op) := by
  unfold countOperandUse
  split
  case isTrue     => exact .ok
  case isFalse hk => exact countTempUse_avoids <| h <| not_not.mp hk

theorem countOperandUses_avoids (h : ∀ op ∈ args, op.Located locs) :
    Avoids (args.foldlM (countOperandUse locs) uses) :=
  .foldlM fun _ _ hm => countOperandUse_avoids <| h _ hm

mutual

theorem countInstrUse_avoids : ∀ (uses : Uses) (instr : Instr), instr.Located locs →
    Avoids (countInstrUse locs uses instr)
  | uses, .mk fields condInstrs trueInstrs falseInstrs _ _ _, ⟨h, hc, ht, hf, hco, hto, hfo⟩ => by
    rw [countInstrUse]
    split_ifs with _ hk
    case pos => exact countOperandUse_avoids h.a
    case pos => exact countTempUse_avoids <| h.source hk
    case pos => exact .bind (countOperandUse_avoids h.a) fun _ => countOperandUse_avoids h.b
    case pos => exact countOperandUses_avoids h.args
    case pos => exact .bind (countOperandUse_avoids h.callee) fun _ => countOperandUses_avoids h.args
    case pos =>
      exact .bind (countInstrUses_avoids _ condInstrs hc) fun _ =>
        .bind (countOperandUse_avoids hco) fun _ =>
        .bind (countInstrUses_avoids _ trueInstrs ht) fun _ =>
        .bind (countOperandUse_avoids hto) fun _ =>
        .bind (countInstrUses_avoids _ falseInstrs hf) fun _ => countOperandUse_avoids hfo
    case neg => exact .ok

theorem countInstrUses_avoids : ∀ (uses : Uses) (instrs : List Instr), AllLocated locs instrs →
    Avoids (countInstrUses locs uses instrs)
  | _,    [],              _       => .ok
  | uses, instr :: instrs, ⟨h, hs⟩ =>
    .bind (countInstrUse_avoids uses instr h) fun _ => countInstrUses_avoids _ instrs hs

end

theorem countBlockUses_avoids (h : block.Located locs) : Avoids (countBlockUses locs uses block) := by
  refine .bind (countInstrUses_avoids _ _ h.instrs) fun _ => ?_
  split_ifs
  case pos => exact countOperandUse_avoids h.termOp
  case pos => exact .bind (countOperandUse_avoids h.termOp) fun _ => countOperandUse_avoids h.termB
  case neg => exact .ok

end Uses

section Emission

theorem emitMemoryLoad_avoids (ha : fields.a.Located locs) (ht : OnStack locs fields.temp) :
    Avoids (emitMemoryLoad t locs fields width state) := by
  unfold emitMemoryLoad
  split
  case isTrue  => exact .bind (.error <| by decide) fun _ => .bind (emitLoad_avoids ha) fun _ => emitStore_avoids ht
  case isFalse => exact .bind (emitLoad_avoids ha) fun _ => emitStore_avoids ht

theorem emitMemoryStore_avoids (ha : fields.a.Located locs) (hb : fields.b.Located locs) :
    Avoids (emitMemoryStore t locs fields width state) := by
  unfold emitMemoryStore
  split
  case isTrue  => exact .bind (.error <| by decide) fun _ => .bind (emitLoad_avoids ha) fun _ => emitLoad_avoids hb
  case isFalse => exact .bind (emitLoad_avoids ha) fun _ => emitLoad_avoids hb

theorem emitExtension_avoids (ha : fields.a.Located locs) (ht : OnStack locs fields.temp) :
    Avoids (emitExtension t locs fields state) :=
  .bind (emitLoad_avoids ha) fun _ => emitStore_avoids ht

theorem emitCompare_avoids {a b : Operand} (ha : a.Located locs) (hb : b.Located locs) :
    Avoids (emitCompare t locs a b state) := by
  unfold emitCompare
  split
  case isTrue  => exact .bind (emitLoad_avoids ha) fun _ => .ok
  case isFalse => exact .bind (emitLoad_avoids ha) fun _ => emitLoad_avoids hb

theorem emitBinop_avoids : Avoids (emitBinop t binop) := by
  unfold emitBinop
  split
  case isTrue  => exact .error <| by decide
  case isFalse => exact .ok

theorem emitBin_avoids (h : fields.Located locs) (ht : OnStack locs fields.temp) :
    Avoids (emitBin t locs fields state) := by
  unfold emitBin
  lift_lets
  extract_lets adds exchanged left right swapped left' right'
  have hl : left.Located locs := located_ite h.b h.a
  have hr : right.Located locs := located_ite h.a h.b
  have hl' : left'.Located locs := located_ite h.b hl
  have hr' : right'.Located locs := located_ite h.a hr
  split
  case isTrue  => exact .bind (emitLoad_avoids hl) fun _ => emitStore_avoids ht
  case isFalse =>
    refine .bind ?_ fun _ => .bind emitBinop_avoids fun _ => emitStore_avoids ht
    split
    case isTrue  => exact .bind (emitLoad_avoids hl') fun _ => .ok
    case isFalse => exact .bind (emitLoad_avoids hl') fun _ => emitLoad_avoids hr'

theorem emitSimpleInstr_avoids (h : fields.Located locs) :
    Avoids (emitSimpleInstr t locs totalSlots fields state) := by
  unfold emitSimpleInstr
  split
  case h_1 hk => exact .map <| emitParam_avoids <| h.temp <| by simp [hk]
  case h_2 hk => exact emitStore_avoids <| h.temp <| by simp [hk]
  case h_3 hk => exact .bind (emitLoad_avoids h.a) fun _ => emitStore_avoids <| h.temp <| by simp [hk]
  case h_4 hk =>
    refine .bind (.bind (lookupLoc_avoids <| h.source hk) fun _ => .ok) fun _ => ?_
    exact emitStore_avoids <| h.temp <| by simp [hk]
  case h_12 => exact emitMemoryStore_avoids h.a h.b
  case h_13 => exact emitMemoryStore_avoids h.a h.b
  case h_14 => exact emitMemoryStore_avoids h.a h.b
  case h_15 => exact emitMemoryStore_avoids h.a h.b
  case h_16 hk => exact emitBin_avoids h <| h.temp <| by simp [hk]
  case h_17 => exact .map <| emitCall_avoids h.args h.result
  case h_18 => exact .map <| emitCalli_avoids h.callee h.args h.result
  case h_19 hk => exact emitExtension_avoids h.a <| h.temp <| by simp [hk]
  case h_20 hk => exact emitExtension_avoids h.a <| h.temp <| by simp [hk]
  case h_21 hk => exact emitExtension_avoids h.a <| h.temp <| by simp [hk]
  case h_22 => exact .ok
  all_goals
    rename_i hk
    exact emitMemoryLoad_avoids h.a <| h.temp <| by simp [hk]

-- Only temps that are stored to are considered.
theorem has_defTemp (h : fields.Located locs) (hd : instrDefTemp fields ≥ 0) :
    Has locs (instrDefTemp fields) := by
  unfold instrDefTemp at hd ⊢
  split_ifs at hd ⊢ with hk
  case pos => exact h.temp (by simp at hk ⊢; omega) |>.has
  case pos => exact h.result hd |>.has
  case neg => simp at hd

theorem omittedStoreTemp_avoids (h : fields.Located locs) :
    Avoids (omittedStoreTemp t locs uses finalTemp fields instrs) := by
  unfold omittedStoreTemp
  extract_lets temp
  split
  case h_1 =>
    split
    case isTrue hd => exact .bind (lookupLoc_avoids <| has_defTemp h hd) fun _ => .ok
    case isFalse   => exact .ok
  case h_2 =>
    split
    case isTrue hd => exact .bind (lookupLoc_avoids <| has_defTemp h hd.left) fun _ => .ok
    case isFalse   => exact .ok

mutual

theorem emitInstr_avoids : ∀ (state : EmitState) (instr : Instr), instr.Located locs →
    Avoids (emitInstr t locs uses totalSlots state instr)
  | state, .mk fields condInstrs trueInstrs falseInstrs _ _ _, ⟨h, hc, ht, hf, hco, hto, hfo⟩ => by
    rw [emitInstr]
    split
    case isFalse => exact emitSimpleInstr_avoids h
    case isTrue hk =>
      have hs : OnStack locs fields.temp := h.temp <| by simp [hk, IK_COND]
      exact .bind (emitInstrs_avoids _ _ condInstrs hc) fun _ =>
        .bind (emitLoad_avoids hco) fun _ =>
        .bind (emitInstrs_avoids _ _ trueInstrs ht) fun _ =>
        .bind (emitLoad_avoids hto) fun _ =>
        .bind (emitStore_avoids hs) fun _ =>
        .bind (emitInstrs_avoids _ _ falseInstrs hf) fun _ =>
        .bind (emitLoad_avoids hfo) fun _ =>
        .bind (emitStore_avoids hs) fun _ => .ok

theorem emitInstrs_avoids : ∀ (finalTemp : Int) (state : EmitState) (instrs : List Instr),
    AllLocated locs instrs → Avoids (emitInstrs t locs uses totalSlots finalTemp state instrs)
  | _,         state, [],                              _       => by
    rw [emitInstrs]
    exact .ok
  | finalTemp, state, .mk fields _ _ _ _ _ _ :: instrs, ⟨h, hs⟩ => by
    rw [emitInstrs]
    exact .bind (omittedStoreTemp_avoids h.left) fun _ =>
      .bind (emitInstr_avoids _ _ h) fun _ => emitInstrs_avoids finalTemp _ instrs hs

end

theorem invertBinop_avoids : Avoids (invertBinop binop) := by
  unfold invertBinop
  split
  case h_11 => exact .error <| by decide
  all_goals exact .ok

theorem emitCompareJump_avoids : Avoids (emitCompareJump t binop) := by
  unfold emitCompareJump
  split
  case h_1 => exact .bind invertBinop_avoids fun _ => .ok
  all_goals
    split
    case isTrue  => exact .ok
    case isFalse => exact .error <| by decide

theorem emitCompareBranch_avoids : Avoids (emitCompareBranch t binop yes nextId) := by
  unfold emitCompareBranch
  split
  case isTrue  => exact .bind invertBinop_avoids fun _ => emitCompareJump_avoids
  case isFalse => exact emitCompareJump_avoids

theorem emitTerminator_avoids (h : block.Located locs) :
    Avoids (emitTerminator t locs nextId block state) := by
  refine .bind ?_ fun _ => .ok
  split_ifs
  case pos => exact .ok
  case neg => exact emitLoad_avoids h.termOp
  case pos => exact emitLoad_avoids h.termOp
  case pos =>
    exact .bind (emitCompare_avoids h.termOp h.termB) fun _ => .bind emitCompareBranch_avoids fun _ => .ok
  case neg => exact .ok

theorem emitBlocks_avoids (h : ∀ block ∈ blocks, block.Located locs) :
    Avoids (emitBlocks t locs uses totalSlots state blocks) := by
  induction blocks generalizing state
  case nil => exact .ok
  case cons block blocks hi =>
    have hb : block.Located locs := h _ List.mem_cons_self
    exact .bind (emitInstrs_avoids _ _ _ hb.instrs) fun _ =>
      .bind (emitTerminator_avoids hb) fun _ => hi fun _ hm => h _ <| List.mem_cons_of_mem _ hm

theorem emitFunction_avoids {fn : Function}
    (h : ∀ block ∈ fn.blocks, block.Located (Frame.allocFunction t fn).locs) : Avoids (emitFunction t fn) :=
  .bind (.foldlM fun _ _ hm => countBlockUses_avoids <| h _ hm) fun _ => emitBlocks_avoids h

end Emission

end Hcc.M1
