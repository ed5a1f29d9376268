import Hcc.Ir.Availability
import Hcc.Lower.Theorems.Temps.Objects

open Stateful

namespace Hcc

variable {A B : Temp → Prop} {sc : Scope} {α β γ : Type} [Emission α] [Emission β]
variable {op addr value base offset index dst src : Operand} {out : Temp} {ty : CType} {size : Int}

-- The instructions use only temporaries that have values, and so do those that use the operands.
def Provided (A : Temp → Prop) (a : α) : Prop :=
  AllReady A (Emission.instrs a) ∧
  ∀ op ∈ Emission.operands a, op.Within (available A (Emission.instrs a))

@[simp, grind =]
theorem provided_instrs {is : List Instr} : Provided A is ↔ AllReady A is := by
  simp [Provided]

@[simp, grind =]
theorem provided_operand {is : List Instr} :
    Provided A (is, op) ↔ AllReady A is ∧ op.Within (available A is) := by
  simp [Provided]

@[simp, grind =]
theorem provided_pair {is : List Instr} {left right : Operand} : Provided A (is, left, right) ↔
    AllReady A is ∧ left.Within (available A is) ∧ right.Within (available A is) := by
  simp [Provided]

@[simp, grind =]
theorem provided_branch {is : List Instr} {iop : BinOp} {left right : Operand} :
    Provided A (is, iop, left, right) ↔
      AllReady A is ∧ left.Within (available A is) ∧ right.Within (available A is) := by
  simp [Provided]

@[simp, grind =]
theorem provided_operands {is : List Instr} {ops : List Operand} : Provided A (is, ops) ↔
    AllReady A is ∧ ∀ op ∈ ops, op.Within (available A is) := by
  simp [Provided]

-- The temporaries of an object have values.
def LValue.Within (A : Temp → Prop) (lvalue : LValue) : Prop :=
  ∀ op ∈ lvalue.operands, op.Within A

@[simp, grind =]
theorem lvalue_within_local : (LValue.lLocal out ty).Within A ↔ (Operand.temp out).Within A := by
  simp [LValue.Within, LValue.operands]

@[simp, grind =]
theorem lvalue_within_address : (LValue.lAddress addr ty).Within A ↔ addr.Within A := by
  simp [LValue.Within, LValue.operands]

@[simp, grind =]
theorem provided_lvalue {is : List Instr} {lvalue : LValue} :
    Provided A (is, lvalue) ↔ AllReady A is ∧ lvalue.Within (available A is) := by
  simp [Provided, LValue.Within]

@[simp, grind ←]
theorem LValue.Within.available {is : List Instr} {lvalue : LValue} (h : lvalue.Within A) :
    lvalue.Within (available A is) :=
  fun op ho => (h op ho).available

@[simp, grind ←]
theorem LValue.Within.extend {created : Option Temp} {lvalue : LValue} (h : lvalue.Within A) :
    lvalue.Within (extend A created) :=
  fun op ho => (h op ho).extend

-- The computation does not rely on other temporaries.
def Provides (sc : Scope) (A : Temp → Prop) (m : ValueM α) : Prop :=
  ∀ ⦃st a st'⦄, Run (m sc) st a st' → Provided A a

namespace Provides

variable {m : ValueM α}

theorem pure {a : α} (h : Provided A a) : Provides sc A (pure a) := by
  intro _ _ _ hr
  obtain ⟨rfl, _⟩ := run_value_pure_iff.mp hr
  exact h

theorem throw {msg : String} : Provides sc A (throw msg : ValueM α) :=
  fun _ _ _ hr => absurd hr not_run_throw

theorem outOfFuel : Provides sc A (fun _ => Stateful.outOfFuel : ValueM α) :=
  fun _ _ _ hr => absurd hr not_run_outOfFuel

theorem bind {f : α → ValueM β} (hm : Provides sc A m) (hf : ∀ a, Provided A a → Provides sc B (f a)) :
    Provides sc B (m >>= f) := by
  intro _ _ _ hr
  have ⟨_, _, hr, hr'⟩ := run_value_bind_iff.mp hr
  exact hf _ (hm hr) hr'

-- A computation without instructions.
theorem any {m : ValueM γ} {f : γ → ValueM β} (hf : ∀ a, Provides sc A (f a)) : Provides sc A (m >>= f) := by
  intro _ _ _ hr
  have ⟨_, _, _, hr⟩ := run_value_bind_iff.mp hr
  exact hf _ hr

theorem first {m : ValueM (List Instr × Operand)} (hm : Provides sc A m) : Provides sc A (Prod.fst <$> m) := by
  intro _ _ _ hr
  obtain ⟨_, h, rfl⟩ := run_value_map_iff.mp hr
  exact provided_instrs.mpr (hm h).left

end Provides

section Scalars

attribute [local simp] Instr.created

theorem coerceBool_provides (h : op.Within A) : Provides sc A (coerceBool op) := by
  unfold coerceBool
  split
  case h_1 => exact .pure <| by simp
  case h_2 => exact .any fun _ => .pure <| by simp [h]

theorem maskScalar_provides (h : op.Within A) : Provides sc A (maskScalar size op) :=
  .any fun _ => .pure <| by simp [h]

theorem signExtendScalar_provides (h : op.Within A) : Provides sc A (signExtendScalar size op) :=
  .any fun _ => .pure <| by simp [h]

theorem scaledIndex_provides (h : index.Within A) : Provides sc A (scaledIndex index size) := by
  unfold scaledIndex
  split
  case isTrue  => exact .pure <| by simp [h]
  case isFalse => exact .any fun _ => .pure <| by simp [h]

theorem scaledOffset_provides (h : offset.Within A) : Provides sc A (scaledOffset offset size) := by
  unfold scaledOffset
  split
  case isTrue  => exact .pure <| by simp [h]
  case isFalse =>
    cases offset
    case imm => exact .pure <| by simp
    all_goals exact .any fun _ => .pure <| by simp [h]

theorem offsetAddress_provides {distance : Int} (h : base.Within A) :
    Provides sc A (offsetAddress base distance) := by
  unfold offsetAddress
  split
  case isTrue  => exact .pure <| by simp [h]
  case isFalse => exact .any fun _ => .pure <| by simp [h]

theorem coerceImmediateScalar_within {signed : Bool} (h : coerceImmediateScalar signed size op = some value) :
    value.Within A := by
  unfold coerceImmediateScalar coerceWordImmediateScalar at h
  repeat' split at h
  all_goals grind

@[grind =]
theorem unsignedLoadAt_ready {width : Int} : (unsignedLoadAt width out addr).Ready A ↔ addr.Within A := by
  unfold unsignedLoadAt
  split_ifs <;> simp

@[grind =]
theorem unsignedStoreAt_ready {width : Int} :
    (unsignedStoreAt width addr value).Ready A ↔ addr.Within A ∧ value.Within A := by
  unfold unsignedStoreAt
  split_ifs <;> simp

theorem copyObjectBytes_provides {distance : Int} {steps : Nat} {remaining : Int} (hd : dst.Within A)
    (hs : src.Within A) : Provides sc A (copyObjectBytes dst src distance steps remaining) := by
  induction steps generalizing distance remaining A
  case zero      => exact .pure <| by simp
  case succ hi =>
    unfold copyObjectBytes
    split
    case isTrue  => exact .pure <| by simp
    case isFalse =>
      refine .any fun word => .bind (offsetAddress_provides hd) ?_
      rintro ⟨is, _⟩ h₁
      refine .bind (offsetAddress_provides (A := available A is) (by grind)) ?_
      rintro ⟨js, _⟩ h₂
      refine .any fun out => ?_
      refine .bind (hi (A := extend (available A (is ++ js)) (some out)) (by grind) (by grind)) fun rest h₃ => ?_
      exact .pure <| by grind

end Scalars

namespace Typing

variable {t : Typing} {lvalue : LValue}

theorem coerceScalar_provides (h : op.Within A) : Provides sc A (t.coerceScalar ty op) := by
  unfold coerceScalar
  split
  case h_1 => exact coerceBool_provides h
  case h_2 =>
    refine .any fun integer => ?_
    split
    case isTrue  => exact .pure <| by simp [h]
    case isFalse =>
      refine .any fun size => ?_
      split
      case isTrue  => exact .pure <| by simp [h]
      case isFalse =>
        split
        case h_1 hc => exact .pure <| by simp [coerceImmediateScalar_within hc]
        case h_2    =>
          split
          case isTrue  => exact signExtendScalar_provides h
          case isFalse => exact maskScalar_provides h

theorem coerceMaybeScalar_provides {mty : Option CType} (h : op.Within A) :
    Provides sc A (t.coerceMaybeScalar mty op) := by
  cases mty
  case none => exact .pure <| by simp [h]
  case some => exact coerceScalar_provides h

theorem loadInstr_provides {f : Instr → ValueM α} (h : addr.Within A)
    (hf : ∀ load : Instr, load.created = some out → load.Ready A → Provides sc B (f load)) :
    Provides sc B (t.loadInstr out ty addr >>= f) := by
  unfold loadInstr
  rw [bind_assoc]
  refine .any fun size => ?_
  rw [pure_bind]
  split_ifs <;> exact hf _ rfl <| by simpa using h

theorem storeInstr_provides {f : Instr → ValueM α} (h : addr.Within A) (hv : value.Within A)
    (hf : ∀ store : Instr, store.created = none → store.Ready A → Provides sc B (f store)) :
    Provides sc B (t.storeInstr ty addr value >>= f) := by
  unfold storeInstr
  rw [bind_assoc]
  refine .any fun size => ?_
  rw [pure_bind]
  split_ifs <;> exact hf _ rfl <| by simpa using ⟨h, hv⟩

theorem copyObject_provides (hd : dst.Within A) (hs : src.Within A) :
    Provides sc A (t.copyObject dst src ty) :=
  .any fun _ => copyObjectBytes_provides hd hs

theorem readLValue_provides (h : lvalue.Within A) : Provides sc A (t.readLValue lvalue) := by
  unfold readLValue
  split
  case h_1 => exact coerceScalar_provides <| by grind
  case h_2 => exact .pure <| by grind
  case h_3 addr ty _ =>
    refine .any fun aggregate => ?_
    split
    case isTrue  => exact .pure <| by grind
    case isFalse =>
      have ha : addr.Within A := by grind
      exact .any fun out => loadInstr_provides ha fun load hc hr => .pure <| by grind

theorem writeLValue_provides (h : lvalue.Within A) (hv : op.Within A) :
    Provides sc A (t.writeLValue lvalue op) := by
  unfold writeLValue
  split
  case h_1 temp ty =>
    refine .any fun aggregate => ?_
    split
    case isTrue  => exact copyObject_provides (by grind) hv
    case isFalse => exact .pure <| by grind
  case h_2 addr ty =>
    refine .any fun aggregate => ?_
    have ha : addr.Within A := by grind
    split
    case isTrue  => exact copyObject_provides ha hv
    case isFalse => exact storeInstr_provides ha hv fun store hc hr => .pure <| by grind

end Typing
end Hcc
