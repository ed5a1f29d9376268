import Hcc.Driver.Output
import Hcc.Library.Stateful
import Hcc.Runtime.Theorems.Output

namespace Hcc

open Fueled Stateful

variable {α : Type} {fuel handle bits : Nat} {st : CompileState} {decls : List TopDecl}
variable {items : List TopItemIr} {result : Except String (List TopItemIr × CompileState)}

theorem runCompileM_appends {m : CompileM α} {result : Except String (α × CompileState)}
    (h : m st = done result) : Appends (runCompileM m st) handle [] result := by
  intro rt text ht
  refine ⟨_, rt, ?_, rfl, rfl, .inl ⟨rfl, (List.append_nil text).symm ▸ ht⟩⟩
  simp only [runCompileM, h]
  rfl

theorem writeTopItemsIr_appends : Appends (writeTopItemsIr (hccWriteTransactionLine handle) items) handle
    (outputBytes (emitTopItemsIr items)) () :=
  forM_appends

theorem emitTopItemsIr_append (items items' : List TopItemIr) :
    emitTopItemsIr (items ++ items') = emitTopItemsIr items ++ emitTopItemsIr items' := by
  simp [emitTopItemsIr]

-- What is put into the buffer while the declarations are lowered: all of the items if that succeeds.
def Streams (result : Except String (List TopItemIr × CompileState)) (bs : List UInt8) : Prop :=
  ∀ items st, result = .ok (items, st) → bs = outputBytes (emitTopItemsIr items)

theorem streamTopDeclsIr_appends (h : lowerAndEmitTopDeclsIr fuel decls st = done result) :
    ∃ bs, Streams result bs ∧ ∀ handle,
      Appends (streamTopDeclsIr fuel (hccWriteTransactionLine handle) st decls) handle bs
        (result.map fun _ => ()) := by
  induction decls generalizing st result
  case nil =>
    obtain rfl := done_inj.mp h
    exact ⟨[], fun items st h => by cases h; rfl, fun _ => .pure⟩
  case cons decl rest hi =>
    cases decl
    case function ty name params body =>
      unfold streamTopDeclsIr
      rcases apply_bind_eq_done.mp h with ⟨e, hl, rfl⟩ | ⟨items, st₁, hl, h⟩
      case inl => exact ⟨[], nofun, fun _ => (runCompileM_appends hl).bind .pure⟩
      rcases apply_bind_eq_done.mp h with ⟨e, hr, rfl⟩ | ⟨items', st₂, hr, h⟩
      case inl =>
        have ⟨bs, _, ha⟩ := hi hr
        exact ⟨[] ++ (_ ++ bs), nofun, fun handle =>
          (runCompileM_appends hl).bind <| writeTopItemsIr_appends.bind <| ha handle⟩
      case inr =>
        obtain rfl := done_inj.mp h
        have ⟨bs, hs, ha⟩ := hi hr
        refine ⟨[] ++ (_ ++ bs), fun _ _ hm => ?_, fun handle =>
          (runCompileM_appends hl).bind <| writeTopItemsIr_appends.bind <| ha handle⟩
        cases hm
        rw [hs _ _ rfl, emitTopItemsIr_append, outputBytes_append, List.nil_append]
    all_goals exact hi h

theorem emitM1IrStreaming_appends {pre : String} {result : Except String (List String)}
    (h : emitM1Ir fuel pre bits decls = done result) :
    ∃ bs, (∀ lines, result = .ok lines → bs = outputBytes lines) ∧ ∀ handle,
      Appends (emitM1IrStreamingWithDataPrefixTarget fuel (hccWriteTransactionLine handle) pre bits decls)
        handle bs (result.map fun _ => ()) := by
  unfold emitM1IrStreamingWithDataPrefixTarget
  have hnil {e : String} : ∀ lines, (.error e : Except String (List String)) = .ok lines → [] = outputBytes lines :=
    nofun
  rcases Fueled.bind_eq_done.mp h with ⟨e, hp, rfl⟩ | ⟨⟨items, st'⟩, hp, hl⟩
  case inl =>
    rcases apply_bind_eq_done.mp hp with ⟨_, hb, ⟨⟩⟩ | ⟨_, st₀, hb, h⟩
    case inl => exact ⟨[], hnil, fun _ => (runCompileM_appends hb).bind .pure⟩
    rcases apply_bind_eq_done.mp h with ⟨_, hr, ⟨⟩⟩ | ⟨registeredItems, st₁, hr, h⟩
    case inl => exact ⟨[], hnil, fun _ => (runCompileM_appends hb).bind <| (runCompileM_appends hr).bind .pure⟩
    rcases apply_bind_eq_done.mp h with ⟨_, hs, ⟨⟩⟩ | ⟨items, st₂, hs, h⟩
    case inr => cases h
    case inl =>
      have ⟨bs, _, ha⟩ := streamTopDeclsIr_appends hs
      exact ⟨_, nofun, fun handle => (runCompileM_appends hb).bind <| (runCompileM_appends hr).bind <|
        hccWriteTransactionLine_appends.bind <| writeTopItemsIr_appends.bind <| ha handle⟩
  case inr =>
    obtain rfl := done_inj.mp hl
    rcases apply_bind_eq_done.mp hp with ⟨_, _, h⟩ | ⟨_, st₀, hb, h⟩
    case inl => cases h
    rcases apply_bind_eq_done.mp h with ⟨_, _, h⟩ | ⟨registeredItems, st₁, hr, h⟩
    case inl => cases h
    rcases apply_bind_eq_done.mp h with ⟨_, _, h⟩ | ⟨items', st₂, hs, h⟩
    case inl => cases h
    cases h
    have ⟨bs, hb', ha⟩ := streamTopDeclsIr_appends hs
    refine ⟨_, fun lines hm => ?_, fun handle => (runCompileM_appends hb).bind <| (runCompileM_appends hr).bind <|
        hccWriteTransactionLine_appends.bind <| writeTopItemsIr_appends.bind <| ha handle⟩
    cases hm
    rw [hb' _ _ rfl, ← outputBytes_append, ← emitTopItemsIr_append, ← outputBytes_append]
    rfl

-- The compilation of a file that has been opened publishes all of the lines, or nothing.
theorem writeM1Ir_publishes {input : String} {result : Except String (List String)} (memory : Nat)
    (h : emitM1Ir fuel (dataLabelPrefix input) bits decls = done result) :
    ∃ r rt', writeM1Ir fuel input bits decls (openedRuntime memory) = some (r, rt') ∧
      match result with
      | .ok lines =>
        (r = .ok (.ok ()) ∧ rt'.file = some (outputBytes lines)) ∨
        (r = .error .outOfMemory ∧ rt'.file = some [] ∧
          memory < max 65536 (2 * (outputBytes lines).length + 64))
      | .error e  => (r = .ok (.error e) ∨ r = .error .outOfMemory) ∧ rt'.file = some [] := by
  have ⟨bs, hs, ha⟩ := emitM1IrStreaming_appends h
  have ⟨r, rt', hr, hc⟩ := hccWithTransactionalLineWriter_spec memory
    (fun write => emitM1IrStreamingWithDataPrefixTarget fuel write (dataLabelPrefix input) bits decls) ha
  refine ⟨r, rt', hr, ?_⟩
  cases result
  case ok lines =>
    obtain rfl := hs _ rfl
    exact hc
  case error e =>
    rcases hc with ⟨hr, hf⟩ | ⟨hr, hf, -⟩
    · exact ⟨.inl hr, hf⟩
    · exact ⟨.inr hr, hf⟩

-- `int x;`
theorem writeM1Ir_publishes_global : ∃ r rt',
    writeM1Ir 20 "unit.c" 64 [.global ⟨.int, "x", none⟩] (openedRuntime 65536) = some (r, rt') ∧
      r = .ok (.ok ()) ∧ rt'.file = some (outputBytes ["HCCIR 1", "D x", "z 4", "E"]) := by
  have h : emitM1Ir 20 (dataLabelPrefix "unit.c") 64 [.global ⟨.int, "x", none⟩] =
      done (.ok ["HCCIR 1", "D x", "z 4", "E"]) :=
    of_decide_eq_true (p := some (Except.ok _) = some (.ok _)) (by decide +kernel)
  have ⟨r, rt', hr, hc⟩ := writeM1Ir_publishes 65536 h
  rcases hc with hc | ⟨-, -, hm⟩
  · exact ⟨r, rt', hr, hc⟩
  · exact absurd hm (by decide)

end Hcc
