import Hcc.Ir.Renaming
import Hcc.Lower.Object
import Hcc.Lower.Theorems.Binds
import Hcc.Lower.Theorems.Shift.Types
import Hcc.Lower.Theorems.Temps.Produces

open Stateful

namespace Hcc

section Renames

-- The results of a computation refer to temporaries.
class Renames (α : Type) where
  rename : (Temp → Temp) → α → α

export Renames (rename)

variable {f : Temp → Temp} {α β : Type} [Renames α] [Renames β]

def LValue.rename (f : Temp → Temp) : LValue → LValue
  | .lLocal temp ty   => .lLocal (f temp) ty
  | .lAddress addr ty => .lAddress (addr.rename f) ty

instance : Renames Temp := ⟨fun f t => f t⟩
instance : Renames Operand := ⟨Operand.rename⟩
instance : Renames Instr := ⟨Instr.rename⟩
instance : Renames BinOp := ⟨fun _ op => op⟩
instance : Renames LValue := ⟨LValue.rename⟩
instance : Renames (List α) := ⟨fun f => List.map (rename f)⟩
instance : Renames (Option α) := ⟨fun f => Option.map (rename f)⟩
instance : Renames (α × β) := ⟨fun f => Prod.map (rename f) (rename f)⟩

@[simp]
theorem rename_temp (t : Temp) : rename f t = f t :=
  rfl

@[simp]
theorem rename_operand : (rename f : Operand → Operand) = Operand.rename f :=
  rfl

@[simp]
theorem rename_instr : (rename f : Instr → Instr) = Instr.rename f :=
  rfl

@[simp]
theorem rename_binOp (op : BinOp) : rename f op = op :=
  rfl

@[simp]
theorem rename_lvalue (lvalue : LValue) : rename f lvalue = lvalue.rename f :=
  rfl

@[simp]
theorem rename_list (as : List α) : rename f as = as.map (rename f) :=
  rfl

@[simp]
theorem rename_option (a : Option α) : rename f a = a.map (rename f) :=
  rfl

@[simp]
theorem rename_fst (p : α × β) : (rename f p).1 = rename f p.1 :=
  rfl

@[simp]
theorem rename_snd (p : α × β) : (rename f p).2 = rename f p.2 :=
  rfl

@[simp]
theorem rename_pair (a : α) (b : β) : rename f (a, b) = (rename f a, rename f b) :=
  rfl

end Renames

-- The temporaries that are allocated from `old` on are allocated from `new` on instead.
structure Shift where
  scope : Scope
  old   : Nat
  new   : Nat
  bound : ScopeMap.All (·.1.index < old) scope

namespace Shift

variable (σ : Shift)

def temp (t : Temp) : Temp :=
  if t.index < σ.old then t else ⟨t.index - σ.old + σ.new⟩

def state (st : ValueState) : ValueState :=
  st.withTemps (st.nextTemp - σ.old + σ.new)

end Shift

variable {σ : Shift} {α β : Type} [Renames α] [Renames β] {t t' : Typing}
variable {op : Operand} {out : Temp} {ty : CType} {size : Int}

-- The second computation allocates the other temporaries.
def Moves (σ : Shift) (m m' : ValueM α) : Prop :=
  ∀ ⦃st a st'⦄, Run (m σ.scope) st a st' → σ.old ≤ st.nextTemp → σ.old ≤ st'.nextTemp ∧
    Run (m' σ.scope) (σ.state st) (rename σ.temp a) (σ.state st')

namespace Moves

variable {m m' : ValueM α}

theorem pure {a a' : α} (h : a' = rename σ.temp a) : Moves σ (pure a) (pure a') := by
  intro st _ _ hr hs
  obtain ⟨rfl, rfl⟩ := run_value_pure_iff.mp hr
  exact ⟨hs, h ▸ rfl⟩

theorem throw {msg : String} : Moves σ (throw msg) m' :=
  fun _ _ _ hr => absurd hr not_run_throw

theorem outOfFuel : Moves σ (fun _ => Stateful.outOfFuel) m' :=
  fun _ _ _ hr => absurd hr not_run_outOfFuel

theorem bind {f f' : α → ValueM β} (hm : Moves σ m m') (hf : ∀ a, Moves σ (f a) (f' (rename σ.temp a))) :
    Moves σ (m >>= f) (m' >>= f') := by
  intro _ _ _ hr hs
  have ⟨_, _, hr, hr'⟩ := run_value_bind_iff.mp hr
  have ⟨hs, hm⟩ := hm hr hs
  have ⟨hs, hf⟩ := hf _ hr' hs
  exact ⟨hs, run_value_bind_iff.mpr ⟨_, _, hm, hf⟩⟩

theorem same {γ : Type} {m m' : ValueM γ} {f f' : γ → ValueM β} (hm : Same m m')
    (hf : ∀ a, Moves σ (f a) (f' a)) : Moves σ (m >>= f) (m' >>= f') := by
  intro _ _ _ hr hs
  have ⟨_, st, hr, hr'⟩ := run_value_bind_iff.mp hr
  have ⟨hn, hm⟩ := hm hr
  have ⟨hs, hf⟩ := hf _ hr' (hn ▸ hs)
  refine ⟨hs, run_value_bind_iff.mpr ⟨_, _, hm _, ?_⟩⟩
  rwa [←hn]

theorem first {γ : Type} {m m' : ValueM (α × γ)} [Renames γ] (hm : Moves σ m m') :
    Moves σ (Prod.fst <$> m) (Prod.fst <$> m') := by
  rw [map_eq_pure_bind, map_eq_pure_bind]
  exact hm.bind fun (_, _) => .pure rfl

theorem mapM {γ : Type} {g g' : γ → ValueM β} (hg : ∀ a, Moves σ (g a) (g' a)) (as : List γ) :
    Moves σ (as.mapM g) (as.mapM g') := by
  induction as
  case nil         => exact .pure rfl
  case cons a _ hi =>
    rw [List.mapM_cons, List.mapM_cons]
    exact (hg a).bind fun _ => hi.bind fun _ => .pure rfl

end Moves

theorem freshTemp_moves : Moves σ freshTemp freshTemp := by
  intro st _ _ hr hs
  obtain ⟨rfl, rfl⟩ := run_freshTemp_iff.mp hr
  refine ⟨Nat.le_succ_of_le hs, run_freshTemp_iff.mpr ⟨?_, ?_⟩⟩
  · simp [Shift.temp, Shift.state, ValueState.withTemps, not_lt.mpr hs]
  · simp only [Shift.state, ValueState.withTemps, ValueState.mk.injEq, and_self, and_true]
    omega

-- Variables are not renamed.
theorem lookupVarMaybe_moves {name : String} : Moves σ (lookupVarMaybe name) (lookupVarMaybe name) := by
  intro st _ _ hr hs
  obtain ⟨rfl, rfl⟩ := run_lookupVarMaybe_iff.mp hr
  refine ⟨hs, run_lookupVarMaybe_iff.mpr ⟨?_, rfl⟩⟩
  cases hl : scopeMapLookup name σ.scope
  case none => rfl
  case some => simp [Shift.temp, σ.bound.lookup hl]

section Scalars

@[simp]
theorem immediateScalarValue_rename {f : Temp → Temp} :
    immediateScalarValue (op.rename f) = immediateScalarValue op := by
  cases op <;> rfl

@[simp]
theorem coerceImmediateScalar_rename {f : Temp → Temp} {signed : Bool} :
    coerceImmediateScalar signed size (op.rename f) = coerceImmediateScalar signed size op := by
  cases op <;> rfl

-- An operand that is known at compile time has no temporaries.
theorem coerceImmediateScalar_constant {f : Temp → Temp} {signed : Bool} {value : Operand}
    (h : coerceImmediateScalar signed size op = some value) : value.rename f = value := by
  have ⟨n, hn⟩ : ∃ n, value = .imm n := by
    unfold coerceImmediateScalar coerceWordImmediateScalar at h
    split at h
    case isTrue =>
      split at h
      case h_1 => exact ⟨_, (Option.some.inj <| (Option.ite_none_right_eq_some.mp h).right).symm⟩
      case h_2 => cases h
    case isFalse =>
      split at h
      case h_1 => cases h
      case h_2 => exact ⟨_, (Option.some.inj h).symm⟩
  rw [hn, Operand.rename]
  exact nofun

theorem coerceBool_moves : Moves σ (coerceBool op) (coerceBool (op.rename σ.temp)) := by
  unfold coerceBool
  rw [immediateScalarValue_rename]
  split
  case h_1 => exact .pure rfl
  case h_2 => exact .bind freshTemp_moves fun _ => .pure rfl

theorem maskScalar_moves : Moves σ (maskScalar size op) (maskScalar size (op.rename σ.temp)) :=
  .bind freshTemp_moves fun _ => .pure rfl

theorem signExtendScalar_moves :
    Moves σ (signExtendScalar size op) (signExtendScalar size (op.rename σ.temp)) :=
  .bind freshTemp_moves fun _ => .pure rfl

theorem scaledIndex_moves : Moves σ (scaledIndex op size) (scaledIndex (op.rename σ.temp) size) := by
  unfold scaledIndex
  split
  case isTrue  => exact .pure rfl
  case isFalse => exact .bind freshTemp_moves fun _ => .pure rfl

theorem scaledOffset_moves : Moves σ (scaledOffset op size) (scaledOffset (op.rename σ.temp) size) := by
  unfold scaledOffset
  split
  case isTrue  => exact .pure rfl
  case isFalse =>
    cases op
    case imm => exact .pure rfl
    all_goals exact .bind freshTemp_moves fun _ => .pure rfl

theorem offsetAddress_moves {offset : Int} :
    Moves σ (offsetAddress op offset) (offsetAddress (op.rename σ.temp) offset) := by
  unfold offsetAddress
  split
  case isTrue  => exact .pure rfl
  case isFalse => exact .bind freshTemp_moves fun _ => .pure rfl

end Scalars

section Objects

theorem copyObjectBytes_moves {dst src : Operand} {offset : Int} {steps : Nat} {remaining : Int} :
    Moves σ (copyObjectBytes dst src offset steps remaining)
      (copyObjectBytes (dst.rename σ.temp) (src.rename σ.temp) offset steps remaining) := by
  induction steps generalizing offset remaining
  case zero      => exact .pure rfl
  case succ hi =>
    unfold copyObjectBytes
    split
    case isTrue  => exact .pure rfl
    case isFalse =>
      refine .same targetWordSize_same fun _ => .bind offsetAddress_moves ?_
      rintro ⟨_, _⟩
      refine .bind offsetAddress_moves ?_
      rintro ⟨_, _⟩
      refine .bind freshTemp_moves fun _ => .bind hi fun _ => .pure ?_
      simp only [unsignedLoadAt, unsignedStoreAt]
      split_ifs <;> simp [Instr.rename, Operand.rename]

end Objects

namespace Typing

variable (ht : t.AllSame t')

include ht

theorem coerceScalar_moves : Moves σ (t.coerceScalar ty op) (t'.coerceScalar ty (op.rename σ.temp)) := by
  unfold coerceScalar
  split
  case h_1 => exact coerceBool_moves
  case h_2 =>
    refine .same (isIntegerTypeM_same _) fun integer => ?_
    split
    case isTrue  => exact .pure rfl
    case isFalse =>
      refine .same (ht.typeSize _) fun size => ?_
      rw [coerceImmediateScalar_rename]
      split
      case isTrue  => exact .pure rfl
      case isFalse =>
        split
        case h_1 hc => exact .pure <| by simp [coerceImmediateScalar_constant hc]
        case h_2    =>
          split
          case isTrue  => exact signExtendScalar_moves
          case isFalse => exact maskScalar_moves

-- The result of an instruction is an operand.
theorem coerceScalar_temp_moves :
    Moves σ (t.coerceScalar ty (.temp out)) (t'.coerceScalar ty (.temp (σ.temp out))) :=
  coerceScalar_moves ht

theorem coerceMaybeScalar_moves {mty : Option CType} :
    Moves σ (t.coerceMaybeScalar mty op) (t'.coerceMaybeScalar mty (op.rename σ.temp)) := by
  cases mty
  case none => exact .pure rfl
  case some => exact coerceScalar_moves ht

theorem coerceMaybeScalar_temp_moves {mty : Option CType} :
    Moves σ (t.coerceMaybeScalar mty (.temp out)) (t'.coerceMaybeScalar mty (.temp (σ.temp out))) :=
  coerceMaybeScalar_moves ht

theorem loadInstr_moves :
    Moves σ (t.loadInstr out ty op) (t'.loadInstr (σ.temp out) ty (op.rename σ.temp)) := by
  refine .same (ht.typeSize _) fun size => .pure ?_
  split_ifs <;> rfl

theorem storeInstr_moves {value : Operand} :
    Moves σ (t.storeInstr ty op value) (t'.storeInstr ty (op.rename σ.temp) (value.rename σ.temp)) := by
  refine .same (ht.typeSize _) fun size => .pure ?_
  split_ifs <;> rfl

theorem copyObject_moves {dst src : Operand} :
    Moves σ (t.copyObject dst src ty) (t'.copyObject (dst.rename σ.temp) (src.rename σ.temp) ty) :=
  .same (ht.typeSize _) fun _ => copyObjectBytes_moves

theorem copyObject_temp_moves {src : Operand} :
    Moves σ (t.copyObject (.temp out) src ty) (t'.copyObject (.temp (σ.temp out)) (src.rename σ.temp) ty) :=
  copyObject_moves ht

theorem readLValue_moves {lvalue : LValue} :
    Moves σ (t.readLValue lvalue) (t'.readLValue (lvalue.rename σ.temp)) := by
  cases lvalue
  case lLocal => exact coerceScalar_moves ht
  case lAddress addr ty =>
    unfold readLValue
    cases ty
    case array => exact .pure rfl
    all_goals
      refine .same (isAggregateTypeM_same _) fun aggregate => ?_
      split
      case isTrue  => exact .pure rfl
      case isFalse => exact .bind freshTemp_moves fun _ => .bind (loadInstr_moves ht) fun _ => .pure rfl

theorem writeLValue_moves {lvalue : LValue} :
    Moves σ (t.writeLValue lvalue op) (t'.writeLValue (lvalue.rename σ.temp) (op.rename σ.temp)) := by
  cases lvalue
  case lLocal =>
    refine .same (isAggregateTypeM_same _) fun aggregate => ?_
    split
    case isTrue  => exact copyObject_moves ht
    case isFalse => exact .pure rfl
  case lAddress =>
    refine .same (isAggregateTypeM_same _) fun aggregate => ?_
    split
    case isTrue  => exact copyObject_moves ht
    case isFalse => exact .bind (storeInstr_moves ht) fun _ => .pure rfl

theorem writeLValue_temp_moves {lvalue : LValue} :
    Moves σ (t.writeLValue lvalue (.temp out)) (t'.writeLValue (lvalue.rename σ.temp) (.temp (σ.temp out))) :=
  writeLValue_moves ht

end Typing
end Hcc
