import Hcc.Lower.Theorems.Temps.Expression

open Stateful

namespace Hcc

variable {ctx : TempContext} {N : Prop} {dst addr : Operand}

namespace Lowering

variable {l : Lowering}

section Templates

variable (ht : l.toTyping.AllRespect ValueState.Quiet)

include ht

@[grind ←]
theorem localDataItem_quiet (ty initExpr) : Respects ValueState.Quiet (l.localDataItem fuel ty initExpr) :=
  .labelled (Typing.globalData_respects ht fuel ty initExpr) fun _ _ => .pure

@[grind ←]
theorem localArrayTemplateData_quiet (ty initExpr) :
    Respects ValueState.Quiet (l.localArrayTemplateData fuel ty initExpr) := by
  unfold localArrayTemplateData
  grind

@[grind ←]
theorem localNonArrayTemplateData_quiet (ty initExpr) :
    Respects ValueState.Quiet (l.localNonArrayTemplateData fuel ty initExpr) := by
  unfold localNonArrayTemplateData
  grind

@[grind ←]
theorem localAggregateTemplateData_quiet (ty initExpr) :
    Respects ValueState.Quiet (l.localAggregateTemplateData fuel ty initExpr) := by
  unfold localAggregateTemplateData
  grind

end Templates

variable (hl : l.AllTrack ctx)

include hl

section Writes

theorem lowerAggregateElementScalarWrite_tracks (hN : N → ¬ctx.Local) (ha : N → addr ≠ .temp ctx.temp) :
    Tracks ctx N [] (l.lowerAggregateElementScalarWrite addr fieldTy expr) := by
  fun_induction lowerAggregateElementScalarWrite l addr fieldTy expr
  case case1 hi => exact hi
  case case2 =>
    refine .bind (hl.lowerExpr <| by grind) fun value h₁ => ?_
    refine .bind (Typing.coerceScalar_tracks hl.typing <| by grind) fun coerced h₂ => ?_
    refine Typing.storeInstr_tracks hl.typing fun store h₃ h₄ h₅ h₆ => .pure ?_
    simp [settled_iff, Known, h₃, h₄, h₅, h₆] at *
    grind

variable {list : Operand → CType → List Expr → ValueM (List Instr)}
variable (hi : ∀ {N : Prop} {dst ty exprs}, (N → ¬ctx.Local) → (N → dst ≠ .temp ctx.temp) →
  Tracks ctx N [] (list dst ty exprs))

include hi

theorem lowerAggregateElementAggregateWrite_tracks (hN : N → ¬ctx.Local) (ha : N → addr ≠ .temp ctx.temp) :
    Tracks ctx N [] (l.lowerAggregateElementAggregateWrite fuel list addr fieldTy expr) := by
  unfold lowerAggregateElementAggregateWrite
  split
  case h_1 => exact hi hN ha
  case h_2 =>
    refine .quiet (localDataItem_quiet hl.typing _ _) fun name => ?_
    split
    case h_1 => exact Typing.copyObject_tracks hl.typing ha nofun
    case h_2 => exact .pure <| by simp [settled_iff]
  case h_3 =>
    refine .bind (hl.lowerExpr <| by grind) fun value h₁ => ?_
    refine .bind (Typing.copyObject_tracks hl.typing (by grind) (by grind)) fun copies h₂ => .pure ?_
    simp [settled_iff, Known] at *
    grind

theorem lowerAggregateElementWrite_tracks (hN : N → ¬ctx.Local) (hd : N → dst ≠ .temp ctx.temp) :
    Tracks ctx N [] (l.lowerAggregateElementWrite fuel list dst offset fieldTy expr) := by
  unfold lowerAggregateElementWrite
  refine .bind (offsetAddress_tracks <| by grind) fun addr h₁ => .quiet (by grind) fun aggregate => ?_
  refine .bind ?_ fun values h₂ => .pure ?_
  · split
    case isTrue  => exact lowerAggregateElementAggregateWrite_tracks hl hi (by grind) (by grind)
    case isFalse => exact lowerAggregateElementScalarWrite_tracks hl (by grind) (by grind)
  simp [settled_iff, Known] at *
  grind

theorem lowerArrayInitWrites_tracks (hN : N → ¬ctx.Local) (hd : N → dst ≠ .temp ctx.temp) :
    Tracks ctx N [] (l.lowerArrayInitWrites fuel list dst ty index exprs) := by
  induction exprs generalizing N index
  case nil           => exact .pure <| by simp [settled_iff]
  case cons _ _ hi'  =>
    refine .quiet (hl.typing.typeSize _) fun size => ?_
    refine .bind (lowerAggregateElementWrite_tracks hl hi (by grind) (by grind)) fun current h₁ => ?_
    refine .bind (hi' (by grind) (by grind)) fun rest h₂ => .pure ?_
    simp [settled_iff, Known] at *
    grind

theorem lowerStructInitWrites_tracks (hN : N → ¬ctx.Local) (hd : N → dst ≠ .temp ctx.temp) :
    Tracks ctx N [] (l.lowerStructInitWrites fuel list dst offset fields exprs) := by
  induction fields generalizing N offset exprs
  case nil                => exact .pure <| by simp [settled_iff]
  case cons field _ hi'   =>
    have ⟨fieldTy, _⟩ := field
    cases exprs
    case nil  => exact .pure <| by simp [settled_iff]
    case cons =>
      refine .quiet (hl.typing.typeAlign _) fun align => .quiet (hl.typing.typeSize _) fun size => ?_
      refine .bind (lowerAggregateElementWrite_tracks hl hi (by grind) (by grind)) fun current h₁ => ?_
      refine .bind (hi' (by grind) (by grind)) fun rest h₂ => .pure ?_
      simp [settled_iff, Known] at *
      grind

theorem lowerUnionInitWrites_tracks (hN : N → ¬ctx.Local) (hd : N → dst ≠ .temp ctx.temp) :
    Tracks ctx N [] (l.lowerUnionInitWrites fuel list dst fields exprs) := by
  unfold lowerUnionInitWrites
  split
  case h_1 => exact lowerAggregateElementWrite_tracks hl hi hN hd
  case h_2 => exact .pure <| by simp [settled_iff]

theorem lowerAggregateInitListStep_tracks (hN : N → ¬ctx.Local) (hd : N → dst ≠ .temp ctx.temp) :
    Tracks ctx N [] (l.lowerAggregateInitListStep fuel list dst ty exprs) := by
  unfold lowerAggregateInitListStep
  split
  case h_1 => exact lowerArrayInitWrites_tracks hl hi hN hd
  case h_2 =>
    refine .quiet (aggregateFields_respects _) fun fields => ?_
    split
    case h_1 => exact lowerStructInitWrites_tracks hl hi hN hd
    case h_2 => exact lowerUnionInitWrites_tracks hl hi hN hd
    case h_3 => exact .pure <| by simp [settled_iff]

end Writes

theorem lowerAggregateInitList_tracks (hN : N → ¬ctx.Local) (hd : N → dst ≠ .temp ctx.temp) :
    Tracks ctx N [] (l.lowerAggregateInitList fuel depth dst ty exprs) := by
  induction depth generalizing N dst ty exprs
  case zero     => exact .outOfFuel
  case succ hi  => exact lowerAggregateInitListStep_tracks hl hi hN hd

section Objects

variable {temp : Temp}

theorem lowerAggregateDeclRuntime_tracks (hN : N → ¬ctx.Local) (ht : N → temp ≠ ctx.temp) :
    Tracks ctx N [] (l.lowerAggregateDeclRuntime fuel ty temp init) := by
  have ht : N → Operand.temp temp ≠ .temp ctx.temp := fun h => by simpa using ht h
  unfold lowerAggregateDeclRuntime lowerAggregateInitWrites
  split
  case h_1 =>
    refine .bind (Typing.zeroObject_tracks hl.typing <| by grind) fun zeros h₁ => ?_
    refine .bind (lowerAggregateInitList_tracks hl (by grind) (by grind)) fun writes h₂ => .pure ?_
    simp [settled_iff, Known] at *
    grind
  case h_2 =>
    refine .bind (hl.lowerExpr <| by grind) fun value h₁ => ?_
    refine .bind (Typing.copyObject_tracks hl.typing (by grind) (by grind)) fun copies h₂ => .pure ?_
    simp [settled_iff, Known] at *
    grind
  case h_3 => exact .pure <| by simp [settled_iff]

theorem lowerAggregateDeclInit_tracks (hN : N → ¬ctx.Local) (ht : N → temp ≠ ctx.temp) :
    Tracks ctx N [] (l.lowerAggregateDeclInit fuel ty temp init) := by
  unfold lowerAggregateDeclInit
  refine .quiet (localAggregateTemplateData_quiet hl.typing _ _) fun label => ?_
  split
  case h_1 => exact Typing.copyObject_tracks hl.typing (fun h => by simpa using ht h) nofun
  case h_2 => exact lowerAggregateDeclRuntime_tracks hl hN ht

-- The object is created together with its temporary.
theorem lowerAggregateDecl_tracks (hN : N → ¬ctx.Local) (ht : N → temp ≠ ctx.temp) :
    Tracks ctx N [[.const temp 0]] (l.lowerAggregateDecl fuel ty temp init) := by
  unfold lowerAggregateDecl
  refine .quiet (hl.typing.typeSize _) fun size => ?_
  refine .bind (lowerAggregateDeclInit_tracks hl (by grind) (by grind)) fun instrs h₁ => .pure ?_
  simp [settled_iff, Known, Instr.created, Instr.nested, Instr.operands, Instr.assigned] at *
  grind

end Objects

end Lowering
end Hcc
