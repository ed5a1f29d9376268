import Hcc.Lower.Designator
import Hcc.Lower.Theorems.Callee

open Stateful

namespace Hcc

variable {scope : Scope} {st st₁ st₂ st' : ValueState} {name : String} {args : List Expr}
variable {instrs : List Instr} {op : Operand} {fuel n : Nat} {b : CalleeBase} {s : Spelling}

section Semantics

variable {σ : Type} {sem : IrSemantics σ}

theorem IrSemantics.mem_readsOf_concat {instr : Instr} {v : σ}
    (h : a ∈ sem.reads instr (sem.exec instrs v)) : a ∈ sem.readsOf (instrs ++ [instr]) v := by
  induction instrs generalizing v
  case nil     => simpa [readsOf, exec] using h
  case cons hi => exact List.mem_append_right _ <| hi h

end Semantics

section Types

@[simp]
theorem lowering_toTyping : (lowering n).toTyping = typing n := by
  cases n <;> rfl

theorem run_exprType_deref_iff {x : Expr} : Run ((typing (n + 1)).exprType (.unary "*" x) scope) st a st' ↔
    ∃ type, Run ((typing n).exprType x scope) st type st' ∧ pointerElementType type = a :=
  run_value_map_iff (g := pointerElementType)

theorem run_exprType_address_iff {x : Expr} : Run ((typing (n + 1)).exprType (.unary "&" x) scope) st a st' ↔
    ∃ type, Run ((typing n).exprType x scope) st type st' ∧ type.map .ptr = a :=
  run_value_map_iff (g := Option.map CType.ptr)

theorem Spelling.kind?_deref : (deref s).kind? b = (s.kind? b).map fun _ => .function := by
  cases b <;> rfl

theorem Spelling.kind?_address : (address s).kind? b = some kind ↔
    s.kind? b = some .function ∧ kind = .pointer := by
  cases b <;> simp only [kind?]
  all_goals
    split
    case h_1 h  => simp [h, eq_comm]
    case h_2 hn => exact ⟨(absurd · <| by simp), fun h => absurd h.left hn⟩

-- The type of a spelling, if there is one.
def Spelling.Typed : Kind → CType → Prop
  | .function, type => ∃ ret params, type = .func ret params
  | .pointer,  type => ∃ ret params, type = .ptr (.func ret params)

theorem CalleeBase.Valid.entity (hv : CalleeBase.Valid scope st (.function name)) :
    scopeMapLookup name scope = none ∧ symbolMapMember name st.functions := by
  have hd := hv.left
  unfold entity? at hd
  split at hd
  case h_1 => exact nomatch Option.some.inj hd
  case h_2 hl =>
    refine ⟨hl, ?_⟩
    by_contra hf
    simp [hf] at hd

theorem varType_function (hv : CalleeBase.Valid scope st (.function name)) (he : st.Extends st₁)
    (hr : Run (Typing.varType name scope) st₁ (some type) st') : ∃ ret params, type = .func ret params := by
  have ⟨_, hm, _, _, hg, hf⟩ := hv
  have ⟨hl, _⟩ := hv.entity
  simp only [Typing.varType, hm] at hr
  obtain ⟨_, _, hl', hr⟩ := run_value_bind_iff.mp hr
  obtain ⟨rfl, rfl⟩ := run_lookupVarType_iff.mp hl'
  rw [hl] at hr
  obtain ⟨_, _, hl', hr⟩ := run_value_bind_iff.mp hr
  obtain ⟨rfl, rfl⟩ := run_lookupFunctionType_iff.mp hl'
  rw [he.functionTypes] at hr
  cases ht : symbolMapLookup name st.functionTypes <;> simp only [ht] at hr
  case some => exact hf <| ht.trans (run_value_pure_iff.mp hr).left
  case none =>
    obtain ⟨h, _⟩ := run_lookupGlobalType_iff.mp hr
    rw [he.globals, hg] at h
    contradiction

theorem exprType_typed {kind : Spelling.Kind} (hv : b.Valid scope st) (hk : s.kind? b = some kind)
    (he : st.Extends st₁) (hr : Run ((typing n).exprType (s.expr b) scope) st₁ (some type) st') :
    Spelling.Typed kind type := by
  induction s generalizing n kind st₁ type st'
  case base =>
    cases b
    case function =>
      obtain rfl := Option.some.inj hk
      cases n
      case zero => exact absurd hr not_run_outOfFuel
      case succ => exact varType_function hv he hr
    case pointer =>
      obtain rfl := Option.some.inj hk
      have ⟨ret, params, ht⟩ := hv.right he hr
      exact ⟨ret, params, Option.some.inj ht⟩
  case deref s hi =>
    obtain ⟨kind', hk', rfl⟩ := Option.map_eq_some_iff.mp <| Spelling.kind?_deref ▸ hk
    cases n
    case zero => exact absurd hr not_run_outOfFuel
    case succ =>
      obtain ⟨type', hr, ht⟩ := run_exprType_deref_iff.mp hr
      cases type'
      case none => contradiction
      case some =>
        cases kind' <;> obtain ⟨ret, params, rfl⟩ := hi hk' he hr
        case function => contradiction
        case pointer  => exact ⟨ret, params, (Option.some.inj ht).symm⟩
  case address s hi =>
    obtain ⟨hk', rfl⟩ := Spelling.kind?_address.mp hk
    cases n
    case zero => exact absurd hr not_run_outOfFuel
    case succ =>
      obtain ⟨type', hr', ht⟩ := run_exprType_address_iff.mp hr
      obtain ⟨_, rfl, rfl⟩ := Option.map_eq_some_iff.mp ht
      obtain ⟨ret, params, rfl⟩ := hi hk' he hr'
      exact ⟨ret, params, rfl⟩

end Types

section Reading

open Spelling (base deref address)

-- A function is loaded like a word.
def Instr.LoadsWord (out : Temp) (addr : Operand) (instr : Instr) : Prop :=
  instr = .load32 out addr ∨ instr = .load64 out addr

theorem loadInstr_func {t : Typing} {ret : CType} {params : List CType}
    (hz : ∀ {size st st'}, Run (t.typeSize (.func ret params) scope) st size st' → size = 4 ∨ size = 8)
    (hr : Run (t.loadInstr out (.func ret params) op scope) st instr st') : instr.LoadsWord out op := by
  obtain ⟨size, _, hs, hr⟩ := run_value_bind_iff.mp hr
  obtain ⟨rfl, _⟩ := run_value_pure_iff.mp hr
  rcases hz hs with rfl | rfl
  · exact .inl rfl
  · exact .inr rfl

theorem typeSize_func {ret : CType} {params : List CType}
    (hr : Run ((typing n).typeSize (.func ret params) scope) st size st') : size = 4 ∨ size = 8 := by
  cases n
  case zero => exact absurd hr not_run_outOfFuel
  case succ =>
    obtain ⟨_, _, _, hr⟩ := run_value_bind_iff.mp hr
    obtain ⟨rfl, _⟩ := run_value_pure_iff.mp hr
    split <;> simp

theorem readLValue_func {ret : CType} {params : List CType} {addr : Operand}
    (hr : Run ((lowering n).readLValue (.lAddress addr (.func ret params)) scope) st (instrs, op) st') :
    ∃ out instr, instr.LoadsWord out addr ∧ instrs = [instr] := by
  obtain ⟨aggregate, _, ha, hr⟩ := run_value_bind_iff.mp hr
  obtain ⟨rfl, rfl⟩ := run_value_pure_iff.mp ha
  obtain ⟨out, _, _, hr⟩ := run_value_bind_iff.mp hr
  obtain ⟨load, _, hl, hr⟩ := run_value_bind_iff.mp hr
  obtain ⟨h, _⟩ := run_value_pure_iff.mp hr
  exact ⟨out, load, loadInstr_func (fun h => typeSize_func (lowering_toTyping ▸ h)) hl, (Prod.mk.inj h).left.symm⟩

theorem lowerVarExpr_function (hv : CalleeBase.Valid scope st (.function name)) (he : st.Extends st₁)
    (hr : Run ((lowering n).lowerExpr (.var name) scope) st₁ (instrs, op) st') :
    instrs = [] ∧ op = .function name := by
  have ⟨_, hm, hb, hc, _, _⟩ := hv
  have ⟨hl, hf⟩ := hv.entity
  cases n
  case zero => exact absurd hr not_run_outOfFuel
  case succ n =>
    change Run ((lowering n).lowerVarExpr name scope) st₁ (instrs, op) st' at hr
    simp only [Lowering.lowerVarExpr, hm, hb] at hr
    obtain ⟨_, _, hl', hr⟩ := run_value_bind_iff.mp hr
    obtain ⟨rfl, rfl⟩ := run_lookupConstant_iff.mp hl'
    rw [he.constants, hc] at hr
    obtain ⟨_, _, hl', hr⟩ := run_value_bind_iff.mp hr
    obtain ⟨rfl, rfl⟩ := run_lookupVarMaybe_iff.mp hl'
    rw [hl] at hr
    obtain ⟨_, _, hl', hr⟩ := run_value_bind_iff.mp hr
    obtain ⟨rfl, rfl⟩ := run_lookupFunction_iff.mp hl'
    simp only [he.functions, hf, if_true] at hr
    obtain ⟨h, _⟩ := run_value_pure_iff.mp hr
    exact ⟨(Prod.mk.inj h).left.symm, (Prod.mk.inj h).right.symm⟩

theorem reads_base (hv : b.Valid scope st) (he : st.Extends st₁)
    (hr : Run ((lowering n).lowerExpr b.expr scope) st₁ (instrs, op) st') : b.Reads scope st instrs op := by
  cases b
  case function => exact lowerVarExpr_function hv he hr
  case pointer  => exact ⟨n, st₁, st', he, hr⟩

-- The callee is read, or it is read and then loaded from.
def ReadsOrLoads (b : CalleeBase) (scope : Scope) (st : ValueState) (loads : Bool) (instrs : List Instr)
    (op : Operand) : Prop :=
  if loads then ∃ baseInstrs baseOp out instr, b.Reads scope st baseInstrs baseOp ∧
    instr.LoadsWord out baseOp ∧ instrs = baseInstrs ++ [instr]
  else b.Reads scope st instrs op

theorem lowerUnaryExpr_deref {l : Lowering} {x : Expr} (h : ∀ value, x ≠ .unary "&" value) :
    l.lowerUnaryExpr "*" x = l.readLValueExpr (.unary "*" x) := by
  unfold Lowering.lowerUnaryExpr
  split <;> simp_all

theorem expr_ne_address (hv : b.Valid scope st) (hs : ∀ s', s ≠ .address s') (value : Expr) :
    s.expr b ≠ .unary "&" value := by
  cases s
  case base =>
    cases b
    case function => exact nofun
    case pointer  =>
      rintro rfl
      exact nomatch hv.left
  case deref   => simp [Spelling.expr]
  case address => exact absurd rfl <| hs _

-- The type of the dereferenced expression is known.
theorem lowerLValue_deref {x : Expr} {lvalue : LValue}
    (hr : Run ((lowering n).lowerLValue (.unary "*" x) scope) st (instrs, lvalue) st') :
    ∃ m op st₁ type st₂, Run ((lowering m).lowerExpr x scope) st (instrs, op) st₁ ∧
      Run ((typing m).exprType (.unary "*" x) scope) st₁ (some type) st₂ ∧ lvalue = .lAddress op type := by
  cases n
  case zero => exact absurd hr not_run_outOfFuel
  case succ m =>
    obtain ⟨⟨xInstrs, xOp⟩, st₁, hx, hr⟩ := run_value_bind_iff.mp hr
    obtain ⟨mty, st₂, ht, hr⟩ := run_value_bind_iff.mp hr
    obtain ⟨type, _, hm, hr⟩ := run_value_bind_iff.mp hr
    obtain ⟨h, _⟩ := run_value_pure_iff.mp hr
    obtain ⟨rfl, rfl⟩ := Prod.mk.inj h
    cases mty
    case none => exact absurd hm not_run_value_throw
    case some =>
      obtain ⟨rfl, _⟩ := run_value_pure_iff.mp hm
      exact ⟨m, xOp, st₁, _, st₂, hx, lowering_toTyping (n := m) ▸ ht, rfl⟩

-- A function designator that is dereferenced is rejected.
theorem pointer_of_deref {kind : Spelling.Kind} (hv : b.Valid scope st) (hk : (deref s).kind? b = some kind)
    (he : st.Extends st₁) (hr : Run ((typing n).exprType (.unary "*" (s.expr b)) scope) st₁ (some type) st') :
    kind = .function ∧ s.kind? b = some .pointer := by
  obtain ⟨kind', hk', rfl⟩ := Option.map_eq_some_iff.mp <| Spelling.kind?_deref ▸ hk
  refine ⟨rfl, ?_⟩
  cases n
  case zero => exact absurd hr not_run_outOfFuel
  case succ =>
    obtain ⟨type', hr, ht⟩ := run_exprType_deref_iff.mp hr
    cases type'
    case none => contradiction
    case some =>
      cases kind'
      case pointer  => exact hk'
      case function =>
        obtain ⟨ret, params, rfl⟩ := exprType_typed hv hk' he hr
        contradiction

theorem base_of_pointer (hs : ∀ s', s ≠ .address s') (hk : s.kind? b = some .pointer) : s = .base := by
  cases s
  case base    => rfl
  case deref   =>
    obtain ⟨_, _, h⟩ := Option.map_eq_some_iff.mp <| Spelling.kind?_deref ▸ hk
    contradiction
  case address => exact absurd rfl <| hs _

theorem function_of_address (hs : ∀ s', s ≠ .deref s') (hk : s.kind? b = some .function) :
    ∃ name, s = .base ∧ b = .function name := by
  cases s
  case base    =>
    cases b
    case function name => exact ⟨name, rfl, rfl⟩
    case pointer       => exact nomatch Option.some.inj hk
  case deref   => exact absurd rfl <| hs _
  case address =>
    have ⟨_, h⟩ := Spelling.kind?_address.mp hk
    contradiction

theorem lowerVarAddress_function {l : Lowering} (hv : CalleeBase.Valid scope st (.function name))
    (he : st.Extends st₁) (hr : Run (l.lowerVarAddress name scope) st₁ (instrs, op) st') :
    instrs = [] ∧ op = .function name := by
  have ⟨hl, hf⟩ := hv.entity
  obtain ⟨_, _, hl', hr⟩ := run_value_bind_iff.mp hr
  obtain ⟨rfl, rfl⟩ := run_lookupVarMaybe_iff.mp hl'
  rw [hl] at hr
  obtain ⟨_, _, hl', hr⟩ := run_value_bind_iff.mp hr
  obtain ⟨rfl, rfl⟩ := run_lookupFunction_iff.mp hl'
  simp only [he.functions, hf, if_true] at hr
  obtain ⟨h, _⟩ := run_value_pure_iff.mp hr
  exact ⟨(Prod.mk.inj h).left.symm, (Prod.mk.inj h).right.symm⟩

theorem lowerExpr_spelling (hv : b.Valid scope st) (hk : s.kind? b = some kind) (he : st.Extends st₁)
    (hr : Run ((lowering n).lowerExpr (s.expr b) scope) st₁ (instrs, op) st') :
    ReadsOrLoads b scope st s.loads instrs op := by
  fun_induction Spelling.loads generalizing n kind st₁ instrs op st'
  case case1 => exact reads_base hv he hr
  case case2 s hi =>
    obtain ⟨_, hk, _⟩ := Option.map_eq_some_iff.mp <| Spelling.kind?_deref ▸ hk
    obtain ⟨hk, _⟩ := Spelling.kind?_address.mp hk
    cases n
    case zero => exact absurd hr not_run_outOfFuel
    case succ => exact hi hk he hr
  case case3 s hs =>
    cases n
    case zero => exact absurd hr not_run_outOfFuel
    case succ n =>
      change Run ((lowering n).lowerUnaryExpr "*" (s.expr b) scope) st₁ (instrs, op) st' at hr
      rw [lowerUnaryExpr_deref (expr_ne_address hv hs)] at hr
      obtain ⟨⟨lvInstrs, lvalue⟩, st₂, hl, hr⟩ := run_value_bind_iff.mp hr
      obtain ⟨⟨readInstrs, readOp⟩, st₃, hr', hr⟩ := run_value_bind_iff.mp hr
      obtain ⟨h, _⟩ := run_value_pure_iff.mp hr
      obtain ⟨rfl, rfl⟩ := Prod.mk.inj h
      obtain ⟨m, addr, st₄, type, _, hx, ht, rfl⟩ := lowerLValue_deref hl
      have hx' := (lowering_steady m).lowerExpr _ hx
      obtain ⟨rfl, hk'⟩ := pointer_of_deref hv hk (he.trans hx') ht
      obtain ⟨ret, params, rfl⟩ := exprType_typed hv hk (he.trans hx') ht
      obtain ⟨out, instr, hi, rfl⟩ := readLValue_func hr'
      have hr := reads_base hv he <| base_of_pointer hs hk' ▸ hx
      exact ⟨lvInstrs, addr, out, instr, hr, hi, rfl⟩
  case case4 s hi =>
    obtain ⟨hk, _⟩ := Spelling.kind?_address.mp hk
    obtain ⟨_, hk', _⟩ := Option.map_eq_some_iff.mp <| Spelling.kind?_deref ▸ hk
    cases n
    case zero => exact absurd hr not_run_outOfFuel
    case succ n =>
      change Run ((lowering n).lowerNonFunctionAddress (.unary "*" (s.expr b)) scope) st₁ (instrs, op) st' at hr
      obtain ⟨⟨lvInstrs, lvalue⟩, st₂, hl, hr⟩ := run_value_bind_iff.mp hr
      obtain ⟨m, addr, st₄, type, _, hx, _, rfl⟩ := lowerLValue_deref hl
      obtain ⟨h, _⟩ := run_value_pure_iff.mp hr
      obtain ⟨rfl, rfl⟩ := Prod.mk.inj h
      exact hi hk' he hx
  case case5 s hs =>
    obtain ⟨hk, _⟩ := Spelling.kind?_address.mp hk
    obtain ⟨name, rfl, rfl⟩ := function_of_address hs hk
    cases n
    case zero => exact absurd hr not_run_outOfFuel
    case succ n => exact lowerVarAddress_function hv he hr

end Reading

section Calls

variable {σ : Type} {sem : IrSemantics σ} {v : σ} {a : Int} {result : Option Temp} {callee : Expr}
variable {argInstrs : List Instr} {argOps : List Operand}

theorem IrSemantics.mem_readsOf_of_loads {instr : Instr} {out : Temp} (hl : instr.LoadsWord out op)
    (hv : sem.value (sem.exec instrs v) op = a) : a ∈ sem.readsOf (instrs ++ [instr]) v := by
  refine mem_readsOf_concat <| hv ▸ ?_
  rcases hl with rfl | rfl
  · exact sem.reads_load32
  · exact sem.reads_load64

theorem lowerIndirectCallInstrs_reaches (hv : b.Valid scope st) (hk : s.kind? b = some kind)
    (hh : b.Holds sem v a scope st) (he : st.Extends st₁)
    (hr : Run ((lowering n).lowerIndirectCallInstrs result (s.expr b) args scope) st₁ instrs st') :
    ReachesCallee sem v a scope st (s.expr b) args result instrs ↔ s.loads = false := by
  obtain ⟨⟨calleeInstrs, calleeOp⟩, st₂, hc, hr⟩ := run_value_bind_iff.mp hr
  obtain ⟨⟨argInstrs, argOps⟩, st₃, ha, hr⟩ := run_value_bind_iff.mp hr
  obtain ⟨rfl, rfl⟩ := run_value_pure_iff.mp hr
  constructor
  case mp =>
    intro h
    generalize hi : calleeInstrs ++ argInstrs ++ [.callIndirect result calleeOp argOps] = instrs at h
    cases h
    case direct => exact nomatch (eq_of_append_singleton hi).right
    case indirect he' hc' _ hy =>
      by_contra hl
      have h := lowerExpr_spelling hv hk he' hc'
      rw [ReadsOrLoads, if_pos (Bool.eq_true_of_not_eq_false hl)] at h
      obtain ⟨baseInstrs, baseOp, out, instr, hb, hw, rfl⟩ := h
      exact hy.right <| IrSemantics.mem_readsOf_of_loads hw (hh hb).left
  case mpr =>
    intro hl
    have h := lowerExpr_spelling hv hk he hc
    rw [ReadsOrLoads, if_neg (ne_true_of_eq_false hl)] at h
    exact .indirect n n he hc ha <| hh h

theorem direct_reaches (hr : Run ((lowering n).lowerCallArgs args scope) st₁ (argInstrs, argOps) st₂) :
    ReachesCallee sem v a scope st callee args result (argInstrs ++ [.call result name argOps]) ↔
      sem.value v (.function name) = a := by
  constructor
  case mp =>
    intro h
    generalize hi : argInstrs ++ [.call result name argOps] = instrs at h
    cases h
    case indirect => exact nomatch (eq_of_append_singleton hi).right
    case direct hv =>
      obtain ⟨_, rfl, _⟩ := Instr.call.inj (eq_of_append_singleton hi).right
      exact hv
  case mpr => exact .direct n hr

-- A function that is called by name is the one that is held.
def NamedFunction (sem : IrSemantics σ) (v : σ) (a : Int) (st : ValueState) (callee : Expr) : Prop :=
  ∀ name, callee = .var name → symbolMapMember name st.functions → sem.value v (.function name) = a

theorem loads_of_var (h : s.expr b = .var name) : s.loads = false := by
  cases s
  case base => rfl
  all_goals simp [Spelling.expr] at h

theorem lowerCallExpr_of_ne_var {l : Lowering} (h : ∀ name, callee ≠ .var name) :
    l.lowerCallExpr callee args = l.lowerIndirectCall callee args := by
  unfold Lowering.lowerCallExpr
  split
  case h_1 name => exact absurd rfl <| h name
  case h_2      => rfl

theorem lowerCallSideEffect_of_ne_var {l : Lowering} (h : ∀ name, callee ≠ .var name) :
    l.lowerCallSideEffect callee args = l.lowerIndirectCallInstrs none callee args := by
  unfold Lowering.lowerCallSideEffect
  split
  case h_1 name => exact absurd rfl <| h name
  case h_2      => rfl

theorem namedFunction_of_ne_var (h : ∀ name, callee ≠ .var name) : NamedFunction sem v a st callee :=
  fun name he => absurd he <| h name

theorem namedFunction_of_unregistered (hf : ¬symbolMapMember name st.functions) :
    NamedFunction sem v a st (.var name) :=
  fun _ he hm => absurd (Expr.var.inj he ▸ hm) hf

theorem namedFunction_of_registered (hf : symbolMapMember name st.functions) :
    NamedFunction sem v a st (.var name) ↔ sem.value v (.function name) = a :=
  ⟨fun h => h name rfl hf, fun h _ he _ => Expr.var.inj he ▸ h⟩

theorem lowerIndirectCall_reaches (hv : b.Valid scope st) (hk : s.kind? b = some kind)
    (hh : b.Holds sem v a scope st)
    (hr : Run ((lowering n).lowerIndirectCall (s.expr b) args scope) st (instrs, op) st') :
    (∃ out, op = .temp out ∧ ReachesCallee sem v a scope st (s.expr b) args (some out) instrs) ↔
      s.loads = false := by
  obtain ⟨out, _, ht, hr⟩ := run_value_bind_iff.mp hr
  obtain ⟨_, _, hi, hr⟩ := run_value_bind_iff.mp hr
  obtain ⟨h, _⟩ := run_value_pure_iff.mp hr
  obtain ⟨rfl, rfl⟩ := Prod.mk.inj h
  simpa using lowerIndirectCallInstrs_reaches hv hk hh (freshTemp_respects ht) hi

theorem lowerCallExpr_reaches (hv : b.Valid scope st) (hk : s.kind? b = some kind)
    (hh : b.Holds sem v a scope st)
    (hr : Run ((lowering n).lowerCallExpr (s.expr b) args scope) st (instrs, op) st') :
    (∃ out, op = .temp out ∧ ReachesCallee sem v a scope st (s.expr b) args (some out) instrs) ↔
      s.loads = false ∧ NamedFunction sem v a st (s.expr b) := by
  by_cases hc : ∃ name, s.expr b = .var name
  case pos =>
    have ⟨name, hc⟩ := hc
    rw [and_iff_right (loads_of_var hc)]
    rw [hc] at hr
    obtain ⟨_, _, hl, hr⟩ := run_value_bind_iff.mp hr
    obtain ⟨rfl, rfl⟩ := run_lookupFunction_iff.mp hl
    split at hr
    case isTrue hf =>
      obtain ⟨⟨argInstrs, argOps⟩, _, ha, hr⟩ := run_value_bind_iff.mp hr
      obtain ⟨out, _, _, hr⟩ := run_value_bind_iff.mp hr
      obtain ⟨h, _⟩ := run_value_pure_iff.mp hr
      obtain ⟨rfl, rfl⟩ := Prod.mk.inj h
      rw [hc, namedFunction_of_registered hf]
      simpa using direct_reaches ha
    case isFalse hf =>
      have h := lowerIndirectCall_reaches hv hk hh (hc ▸ hr)
      rw [hc] at h ⊢
      exact h.trans <| iff_of_true (loads_of_var hc) (namedFunction_of_unregistered hf)
  case neg =>
    have hc := not_exists.mp hc
    rw [and_iff_left (namedFunction_of_ne_var hc)]
    exact lowerIndirectCall_reaches hv hk hh <| lowerCallExpr_of_ne_var hc ▸ hr

theorem not_reachesCallee_nil : ¬ReachesCallee sem v a scope st callee args result [] := by
  intro h
  generalize hi : [] = instrs at h
  cases h <;> simp at hi

-- The call is not one that is dropped in statement position.
def Kept (callee : Expr) : Prop :=
  ∀ name, callee = .var name → isDroppedCall name = false

theorem lowerCallSideEffect_reaches (hv : b.Valid scope st) (hk : s.kind? b = some kind)
    (hh : b.Holds sem v a scope st)
    (hr : Run ((lowering n).lowerCallSideEffect (s.expr b) args scope) st instrs st') :
    ReachesCallee sem v a scope st (s.expr b) args none instrs ↔
      s.loads = false ∧ NamedFunction sem v a st (s.expr b) ∧ Kept (s.expr b) := by
  by_cases hc : ∃ name, s.expr b = .var name
  case pos =>
    have ⟨name, hc⟩ := hc
    rw [and_iff_right (loads_of_var hc), hc]
    rw [hc] at hr
    simp only [Lowering.lowerCallSideEffect] at hr
    have hd : Kept (.var name) ↔ isDroppedCall name = false :=
      ⟨fun h => h name rfl, fun h _ he => Expr.var.inj he ▸ h⟩
    rw [hd]
    split at hr
    case isTrue ha =>
      refine iff_of_false ?_ (by simp [isDroppedCall, ha])
      split at hr
      case isTrue  => exact (run_value_pure_iff.mp hr).left ▸ not_reachesCallee_nil
      case isFalse => exact absurd hr not_run_value_throw
    case isFalse ha =>
      split at hr
      case isTrue hs =>
        exact iff_of_false ((run_value_pure_iff.mp hr).left ▸ not_reachesCallee_nil) (by simp [isDroppedCall, hs])
      case isFalse hs =>
        rw [and_iff_left (by simp [isDroppedCall, ha, hs])]
        obtain ⟨_, _, hl, hr⟩ := run_value_bind_iff.mp hr
        obtain ⟨rfl, rfl⟩ := run_lookupFunction_iff.mp hl
        split at hr
        case isTrue hf =>
          obtain ⟨⟨argInstrs, argOps⟩, _, ha, hr⟩ := run_value_bind_iff.mp hr
          obtain ⟨rfl, _⟩ := run_value_pure_iff.mp hr
          rw [namedFunction_of_registered hf]
          exact direct_reaches ha
        case isFalse hf =>
          have h := lowerIndirectCallInstrs_reaches hv hk hh .refl (hc ▸ hr)
          rw [hc] at h
          exact h.trans <| iff_of_true (loads_of_var hc) (namedFunction_of_unregistered hf)
  case neg =>
    have hc := not_exists.mp hc
    have hd : Kept (s.expr b) := fun name he => absurd he <| hc name
    rw [and_iff_right (namedFunction_of_ne_var hc), and_iff_left hd]
    exact lowerIndirectCallInstrs_reaches hv hk hh .refl <| lowerCallSideEffect_of_ne_var hc ▸ hr

end Calls

section Examples

def wordValue (v : Temp → Int) : Operand → Int
  | .temp t    => v t
  | .imm value => value
  | _          => 0

-- Loads read words from a memory which is zero everywhere.
def wordSemantics : IrSemantics (Temp → Int) where
  step
    | .load64 t _, v => fun t' => if t' = t then 0 else v t'
    | .load32 t _, v => fun t' => if t' = t then 0 else v t'
    | _,           v => v
  value := wordValue
  reads
    | .load64 _ addr, v => [wordValue v addr]
    | .load32 _ addr, v => [wordValue v addr]
    | _,              _ => []
  reads_load32 := List.mem_singleton_self _
  reads_load64 := List.mem_singleton_self _

theorem pointerVariable_valid : CalleeBase.Valid pointerVariable {} (.pointer (.var "f")) := by
  refine ⟨rfl, fun {n st₁ type st₂} _ hr => ?_⟩
  cases n
  case zero => exact absurd hr not_run_outOfFuel
  case succ => exact ⟨.int, [], (Prod.mk.inj <| Except.ok.inj <| Fueled.done_inj.mp hr).left.symm⟩

-- The function is at 4096.
theorem pointerVariable_holds :
    CalleeBase.Holds wordSemantics (fun _ => 4096) 4096 pointerVariable {} (.pointer (.var "f")) := by
  rintro instrs op ⟨n, st₁, st₂, he, hr⟩
  have h := lowerExpr_var (he.functions ▸ rfl) hr
  rw [if_pos ⟨rfl, rfl, he.constants ▸ rfl⟩] at h
  obtain ⟨entity, hd, hr⟩ := h
  obtain rfl := Option.some.inj hd
  cases hr
  case localVar hr =>
    obtain ⟨rfl, rfl⟩ := Prod.mk.inj (Prod.mk.inj <| Except.ok.inj <| Fueled.done_inj.mp hr).left
    exact ⟨rfl, List.not_mem_nil⟩

end Examples
end Hcc
