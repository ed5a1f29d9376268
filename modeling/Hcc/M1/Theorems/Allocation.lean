import Hcc.Lower.Theorems.Temps.Function
import Hcc.M1.Theorems.Emission
import Hcc.M1.Theorems.Frame
import Hcc.M1.Theorems.Function

-- The locations of the temps of functions that the front end writes.
open Stateful

namespace Hcc.M1

variable {t : Target} {locs : LocArray} {fn : FunctionIr} {i : Hcc.Instr} {is : List Hcc.Instr}

section Encoding

variable {iop : Hcc.Operand}

theorem located_encodeOperand (h : ∀ t, iop = .temp t → Has locs t.index) :
    (encodeOperand id id iop).Located locs := by
  cases iop
  case temp t => exact fun _ => h t rfl
  all_goals nofun

-- The temps of an instruction of the IR have locations of the right kinds.
structure InstrLocated (locs : LocArray) (i : Hcc.Instr) : Prop where
  uses   : ∀ t, .temp t ∈ i.operands → Has locs t.index
  stores : ∀ t, i.result = some t → OnStack locs t.index

namespace InstrLocated

variable (h : InstrLocated locs i)

include h

theorem operand (hm : iop ∈ i.operands) : (encodeOperand id id iop).Located locs :=
  located_encodeOperand fun t he => h.uses t <| he ▸ hm

theorem operands {ops : List Hcc.Operand} (hs : ops ⊆ i.operands) :
    ∀ op ∈ ops.map (encodeOperand id id), op.Located locs := by
  intro op hm
  have ⟨iop, hm, he⟩ := List.mem_map.mp hm
  exact he ▸ h.operand (hs hm)

theorem located_fields : (encodeFields id id i).Located locs where
  a := by
    cases i
    all_goals first | exact located_default | exact h.operand (by simp [Instr.operands])
  b := by
    cases i
    all_goals first | exact located_default | exact h.operand (by simp [Instr.operands])
  callee := by
    cases i
    all_goals first | exact located_default | exact h.operand (by simp [Instr.operands])
  args := by
    cases i
    case call         => exact h.operands <| List.Subset.refl _
    case callIndirect => exact h.operands <| List.subset_cons_self ..
    all_goals exact fun _ hm => absurd hm List.not_mem_nil
  source hk := by
    cases i
    case addrOf => exact h.uses _ <| List.mem_singleton_self _
    all_goals exact nomatch hk
  temp hk := by
    cases i
    all_goals first | exact h.stores _ rfl | exact absurd hk <| of_decide_eq_false rfl
  result hr := by
    cases i
    case call result _ _ =>
      cases result
      case none => exact absurd hr <| of_decide_eq_false rfl
      case some => exact h.stores _ rfl
    case callIndirect result _ _ =>
      cases result
      case none => exact absurd hr <| of_decide_eq_false rfl
      case some => exact h.stores _ rfl
    all_goals exact absurd hr <| of_decide_eq_false rfl

end InstrLocated

mutual

theorem located_encodeInstr : ∀ i : Hcc.Instr, InstrLocated locs i → (∀ j ∈ i.inner, InstrLocated locs j) →
    (encodeInstr id id i).Located locs
  | i, hi, h => by
    by_cases hc : IsCond i
    case neg =>
      rw [encodeInstr_eq hc]
      exact ⟨hi.located_fields, trivial, trivial, trivial, located_default, located_default, located_default⟩
    case pos =>
      cases i
      case cond t condInstrs condOp trueInstrs trueOp falseInstrs falseOp =>
        simp only [Instr.inner, List.mem_append] at h
        exact ⟨hi.located_fields,
          located_encodeInstrs condInstrs fun j hm => h j <| .inl <| .inl hm,
          located_encodeInstrs trueInstrs fun j hm => h j <| .inl <| .inr hm,
          located_encodeInstrs falseInstrs fun j hm => h j <| .inr hm,
          hi.operand (by simp [Instr.operands]), hi.operand (by simp [Instr.operands]),
          hi.operand (by simp [Instr.operands])⟩
      all_goals exact hc.elim

theorem located_encodeInstrs : ∀ is : List Hcc.Instr, (∀ j ∈ allInstrs is, InstrLocated locs j) →
    AllLocated locs (encodeInstrs id id is)
  | [],      _ => trivial
  | i :: is, h => by
    rw [allInstrs] at h
    exact ⟨located_encodeInstr i (h _ List.mem_cons_self) fun j hm =>
        h j <| List.mem_cons_of_mem _ <| List.mem_append_left _ hm,
      located_encodeInstrs is fun j hm => h j <| List.mem_cons_of_mem _ <| List.mem_append_right _ hm⟩

end

theorem located_encodeBlock {block : BasicBlock} (hi : ∀ j ∈ allInstrs block.instrs, InstrLocated locs j)
    (ht : ∀ t, .temp t ∈ block.term.operands → Has locs t.index) :
    (encodeBlock id id block).Located locs where
  instrs := located_encodeInstrs block.instrs hi
  termOp := by
    rcases block with ⟨bid, instrs, term⟩
    have ht : ∀ op ∈ term.operands, (encodeOperand id id op).Located locs := fun op hm =>
      located_encodeOperand fun t he => ht t <| he ▸ hm
    rcases term with (_ | op) | _ | _ | _
    all_goals first | exact located_default | exact ht _ (by simp [Terminator.operands])
  termB := by
    rcases block with ⟨bid, instrs, term⟩
    have ht : ∀ op ∈ term.operands, (encodeOperand id id op).Located locs := fun op hm =>
      located_encodeOperand fun t he => ht t <| he ▸ hm
    rcases term with (_ | op) | _ | _ | _
    all_goals first | exact located_default | exact ht _ (by simp [Terminator.operands])

end Encoding

section Definitions

variable {d : Definition} {ds : List Definition} {fr : Frame} {temp : Int}

def instrDefinition : Hcc.Instr → Option Definition
  | .alloca t size => some ⟨t.index, some size⟩
  | i              => i.result.map fun t => ⟨t.index, none⟩

theorem definitions_encodeInstr_simple (hc : ¬IsCond i) :
    definitions (encodeInstr id id i) = (instrDefinition i).toList := by
  rw [encodeInstr_eq hc]
  cases i
  case cond                  => exact absurd trivial hc
  case call result _ _       => cases result <;> rfl
  case callIndirect result _ _ => cases result <;> rfl
  all_goals rfl

theorem inner_eq_nil (hc : ¬IsCond i) : i.inner = [] := by
  cases i
  case cond => exact absurd trivial hc
  all_goals rfl

theorem filterMap_singleton {f : α → Option β} {a : α} : [a].filterMap f = (f a).toList := by
  cases h : f a <;> simp [h]

mutual

theorem definitions_encodeInstr (i : Hcc.Instr) :
    (definitions (encodeInstr id id i)).Perm ((i :: i.inner).filterMap instrDefinition) := by
  by_cases hc : IsCond i
  case neg => rw [definitions_encodeInstr_simple hc, inner_eq_nil hc, filterMap_singleton]
  case pos =>
    cases i
    case cond t condInstrs condOp trueInstrs trueOp falseInstrs falseOp =>
      have hc := allDefinitions_encodeInstrs condInstrs
      have ht := allDefinitions_encodeInstrs trueInstrs
      have hf := allDefinitions_encodeInstrs falseInstrs
      have hd : instrDefinition (.cond t condInstrs condOp trueInstrs trueOp falseInstrs falseOp) =
        some ⟨t.index, none⟩ := rfl
      rw [encodeInstr, definitions, if_neg (of_decide_eq_false rfl), if_pos rfl, Instr.inner,
        List.filterMap_cons_some hd, List.filterMap_append, List.filterMap_append]
      exact (((hc.append ht).append hf).append_right _).trans <| List.perm_append_singleton ..
    all_goals exact hc.elim

theorem allDefinitions_encodeInstrs (is : List Hcc.Instr) :
    (allDefinitions (encodeInstrs id id is)).Perm ((allInstrs is).filterMap instrDefinition) := by
  match is with
  | []      => exact .refl _
  | i :: is =>
    rw [encodeInstrs, allDefinitions, allInstrs, ←List.cons_append, List.filterMap_append]
    exact (definitions_encodeInstr i).append <| allDefinitions_encodeInstrs is

end

theorem mem_definitions :
    d ∈ (encodeFunction id id fn).definitions ↔ ∃ i ∈ fn.instrs, instrDefinition i = some d := by
  simp only [Function.definitions, encodeFunction, encodeBlock, List.flatMap_map, List.mem_flatMap,
    (allDefinitions_encodeInstrs _).mem_iff, List.mem_filterMap, mem_instrs_iff]
  grind

theorem instrDefinition_eq_some : instrDefinition i = some d ↔
    (∃ t, i.result = some t ∧ d = ⟨t.index, none⟩) ∨ ∃ t size, i = .alloca t size ∧ d = ⟨t.index, some size⟩ := by
  cases i
  all_goals simp [instrDefinition, Instr.result, Instr.created, eq_comm]

-- A temp that is not defined as an object is on the stack.
theorem define_onStack (h : fr.locs temp = none ∨ OnStack fr.locs temp)
    (hd : d.temp = temp → d.size = none) :
    (fr.define t d).locs temp = none ∨ OnStack (fr.define t d).locs temp := by
  by_cases ht : d.temp = temp
  case neg =>
    have he : (fr.define t d).locs temp = fr.locs temp := define_locs_of_ne <| Ne.symm ht
    simpa only [OnStack, he] using h
  case pos =>
    have ⟨temp', size⟩ := d
    obtain rfl : size = none := hd ht
    obtain rfl : temp' = temp := ht
    simp only [Frame.define, Frame.allocDef]
    split
    case isTrue  => exact .inr ⟨_, Function.update_self .., rfl⟩
    case isFalse => exact h

theorem foldl_define_onStack (h : fr.locs temp = none ∨ OnStack fr.locs temp)
    (hd : ∀ d ∈ ds, d.temp = temp → d.size = none) :
    (ds.foldl (Frame.define t) fr).locs temp = none ∨ OnStack (ds.foldl (Frame.define t) fr).locs temp := by
  induction ds generalizing fr
  case nil           => exact h
  case cons d ds ih =>
    exact ih (define_onStack h <| hd d List.mem_cons_self) fun d hm => hd d <| List.mem_cons_of_mem _ hm

theorem exists_definition (h : fn.Defines s) :
    ∃ d ∈ (encodeFunction id id fn).definitions, d.temp = s.index := by
  have ⟨i, hi, h⟩ := h
  rcases h with hr | ho
  case inl => exact ⟨_, mem_definitions.mpr ⟨i, hi, instrDefinition_eq_some.mpr <| .inl ⟨s, hr, rfl⟩⟩, rfl⟩
  case inr =>
    cases i <;> cases ho
    exact ⟨_, mem_definitions.mpr ⟨_, hi, rfl⟩, rfl⟩

theorem allocFunction_has (h : fn.Defines s) :
    Has (Frame.allocFunction t (encodeFunction id id fn)).locs s.index := by
  have ⟨d, hm, hd⟩ := exists_definition h
  have ⟨d', hf, _⟩ := find_definition hm
  rw [allocFunction_eq]
  have ⟨loc, hl, _⟩ : ∃ loc, (List.foldl (Frame.define t) .empty _).locs s.index = some loc ∧ _ :=
    foldl_define rfl (Int.natCast_nonneg s.index) (hd ▸ hf)
  exact ⟨loc, hl⟩

theorem allocFunction_onStack (hs : fn.Sound) (hi : i ∈ fn.instrs) (hr : i.result = some s) :
    OnStack (Frame.allocFunction t (encodeFunction id id fn)).locs s.index := by
  have ⟨loc, hl⟩ := allocFunction_has (t := t) ⟨i, hi, .inl hr⟩
  rw [allocFunction_eq] at hl ⊢
  refine (foldl_define_onStack (.inl rfl) fun d hm hd => ?_).resolve_left fun hn => nomatch hn.symm.trans hl
  have ⟨j, hj, hd'⟩ := mem_definitions.mp hm
  rcases instrDefinition_eq_some.mp hd' with ⟨_, _, rfl⟩ | ⟨s', size, rfl, rfl⟩
  case inl => rfl
  case inr =>
    obtain rfl : s' = s := congrArg Temp.mk <| Int.ofNat.inj hd
    exact absurd hr <| hs.objects _ hj i hi _ rfl

theorem emitFunction_sound (hs : fn.Sound) : Avoids (emitFunction t (encodeFunction id id fn)) := by
  refine emitFunction_avoids fun b hb => ?_
  obtain ⟨block, hm, rfl⟩ := List.mem_map.mp hb
  refine located_encodeBlock (fun j hj => ⟨fun s hu => ?_, fun s hr => ?_⟩) fun s hu => ?_
  · exact allocFunction_has <| hs.defines s <| .inl ⟨j, mem_instrs_iff.mpr ⟨block, hm, hj⟩, hu⟩
  · exact allocFunction_onStack hs (mem_instrs_iff.mpr ⟨block, hm, hj⟩) hr
  · exact allocFunction_has <| hs.defines s <| .inr <| List.mem_flatMap.mpr ⟨block, hm, hu⟩

end Definitions

-- The temps of a function that has been lowered are located.
theorem lowerProgram_located (pre : String) (bits : Nat) (fuel : Nat) (decls : List TopDecl)
    (tops : List TopItemIr) (c : CompileState) (fn : FunctionIr)
    (hr : Run (lowerProgram fuel decls) (initialCompileStateForTarget pre bits) tops c)
    (hf : .function fn ∈ tops) :
    (∀ s, fn.Uses s → fn.Defines s) ∧
    (∀ i ∈ fn.instrs, ∀ j ∈ fn.instrs, ∀ s, i.object = some s → j.result ≠ some s) ∧
    ∀ (t : Target) (msg : String), emitFunction t (encodeFunction id id fn) = .error msg →
      msg ≠ "missing allocation" ∧ msg ≠ "cannot assign stack object" :=
  have ⟨_, hs⟩ := lowerProgram_sound hr SymbolMap.ordered_empty
  ⟨(hs fn hf).defines, (hs fn hf).objects, fun _ _ he => emitFunction_sound (hs fn hf) he⟩

def identityProgram : List TopDecl :=
  [.function .int "f" [⟨.int, "x"⟩] [.sReturn (some (.var "x"))]]

def writesUse (t : Temp) (tops : List TopItemIr) : Bool :=
  tops.any fun
    | .function fn => fn.instrs.any (·.operands.contains (.temp t))
    | .data _      => false

theorem exists_uses {tops : List TopItemIr} {s : Temp} (h : writesUse s tops) :
    ∃ fn, .function fn ∈ tops ∧ fn.Uses s := by
  have ⟨top, hm, h⟩ := List.any_eq_true.mp h
  cases top
  case data        => contradiction
  case function fn =>
    have ⟨i, hi, hc⟩ := List.any_eq_true.mp h
    exact ⟨fn, hm, .inl ⟨i, hi, List.contains_iff_mem.mp hc⟩⟩

theorem writesUse_identityProgram :
    yields (lowerProgram 9 identityProgram) (initialCompileStateForTarget "HCC_DATA_f" 64)
      (writesUse ⟨0⟩) = true := by
  decide +kernel

theorem lowerProgram_located_identity : ∃ fn : FunctionIr, fn.Uses ⟨0⟩ ∧ fn.Defines ⟨0⟩ ∧
    ∀ msg, emitFunction .amd64 (encodeFunction id id fn) = .error msg →
      msg ≠ "missing allocation" ∧ msg ≠ "cannot assign stack object" :=
  have ⟨_, _, hr, h⟩ := exists_run_of_yields writesUse_identityProgram
  have ⟨fn, hm, hu⟩ := exists_uses h
  have ⟨hd, _, he⟩ := lowerProgram_located _ _ _ _ _ _ fn hr hm
  ⟨fn, hu, hd _ hu, he .amd64⟩

end Hcc.M1
