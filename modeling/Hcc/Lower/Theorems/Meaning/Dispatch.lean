import Hcc.Lower.Theorems.Meaning.Conditions

open Stateful Fueled CInteger

-- The blocks that select a case of a switch statement go to the first one with the value.
namespace Hcc

variable {w word fuel : Nat} {World : Type} {m : Machine w World} {s s' : Frame w World} {st st' : CompileState}
variable {Γ : String → Option CType} {ρ : String → Int} {t : IntType} {x y : Int} {value : Expr → Int}
variable {scope : Scope} {bid defaultTarget : BlockId} {valueOp : Operand} {pairs : List (Expr × BlockId)}
variable {blocks : List BasicBlock} {code : BlockId → Option BasicBlock}

-- The block for a value, where `value` are the values of the labels.
def switchTarget (value : Expr → Int) (x : Int) (defaultTarget : BlockId) (pairs : List (Expr × BlockId)) :
    BlockId :=
  (pairs.find? fun c => x = value c.1).elim defaultTarget Prod.snd

theorem switchTarget_cons {c : Expr × BlockId} : switchTarget value x defaultTarget (c :: pairs) =
    if x = value c.1 then c.2 else switchTarget value x defaultTarget pairs := by
  by_cases h : x = value c.1 <;> simp [switchTarget, h]

-- The labels have values that are in the range of the type.
def LabelValues (word : Nat) (Γ : String → Option CType) (ρ : String → Int) (t : IntType) (value : Expr → Int)
    (pairs : List (Expr × BlockId)) : Prop :=
  ∀ c ∈ pairs, t.wrap (value c.1) = value c.1 ∧ ∃ u, Expr.Evaluates word Γ ρ c.1 u (value c.1)

section Selection

theorem Context.target_eq {scope : Scope} {st : ValueState} {op op' : Operand} {yes no : BlockId}
    (hc : Context m word Γ ρ scope st s) (ht : t.size ≤ word) (hx : t.wrap x = x) (hy : t.wrap y = y)
    (hd : Denotes m st s op x) (hd' : Denotes m st s op' y) :
    m.target 0 s (.branchCmp .eq op op' yes no) = some (if x = y then yes else no) := by
  have hi := IntType.ofInt_inj (hc.width_le ht) hx hy
  have hm : m.binary .eq (BitVec.ofInt w x) (.ofInt w y) = some (truth w (decide (x = y))) :=
    hc.standard.binary trivial <| congrArg (truth w) <| decide_eq_decide.mpr hi
  rw [Machine.target, hd.word, hd'.word]
  simp only [Option.bind_eq_bind, Option.bind_some, hm]
  by_cases h : x = y <;> simp [truth, h, m.pos.ne']

variable (ht : t.size ≤ word) (hx : t.wrap x = x)

include ht hx

-- The code of one label, and the comparison with it.
theorem Context.label {e : Expr} {u : IntType} {is : List Instr} {op : Operand} {yes no : BlockId}
    (hr : Run (onExprs ((exprLowering fuel).lowerExpr e)) st (is, op) st')
    (hc : Context m word Γ ρ st.vars st.toValueState s) (hd : Denotes m st.toValueState s valueOp x)
    (he : Expr.Evaluates word Γ ρ e u y) (hy : t.wrap y = y)
    (hb : code bid = some ⟨bid, is, .branchCmp .eq valueOp op yes no⟩) :
    ∃ s', m.Steps 0 code (bid, s) (if x = y then yes else no, s') ∧ Frame.Agree st.nextTemp s s' ∧
      Context m word Γ ρ st'.vars st'.toValueState s' ∧ Denotes m st'.toValueState s' valueOp x := by
  obtain ⟨hv, hr⟩ := run_onExprs_onValues hr
  obtain ⟨s', hp, hw, hd'⟩ := lowerExpr_lowers he fuel hc hr
  have hc' := hc.after hp
  have hv' := hd.after hp
  exact ⟨s', Machine.steps_block hb hp.runs <| hc'.target_eq ht hx hy hv' hd', ⟨hw, hp.temps⟩, hv ▸ hc', hv'⟩

theorem lowerSwitchDispatch_selects
    (hr : Run (lowerSwitchDispatch (exprLowering fuel) bid valueOp defaultTarget pairs) st blocks st')
    (hl : LabelValues word Γ ρ t value pairs) (hb : ∀ block ∈ blocks, code block.id = some block)
    (hc : Context m word Γ ρ st.vars st.toValueState s) (hd : Denotes m st.toValueState s valueOp x) :
    ∃ s', m.Steps 0 code (bid, s) (switchTarget value x defaultTarget pairs, s') ∧
      Frame.Agree st.nextTemp s s' := by
  fun_induction lowerSwitchDispatch generalizing st blocks s
  case case1 =>
    obtain ⟨rfl, rfl⟩ := run_pure_iff.mp hr
    exact ⟨s, Machine.steps_block (hb _ <| List.mem_singleton_self _) rfl rfl, rfl, fun _ _ => rfl⟩
  case case2 =>
    simp only [run_bind_iff, run_pure_iff] at hr
    obtain ⟨⟨_, _⟩, _, hr, rfl, rfl⟩ := hr
    obtain ⟨hy, _, he⟩ := hl _ <| List.mem_singleton_self _
    obtain ⟨s', hs, hg, -⟩ := Context.label ht hx hr hc hd he hy <| hb _ <| List.mem_singleton_self _
    rw [switchTarget_cons]
    exact ⟨s', hs, hg⟩
  case case3 hi =>
    simp only [run_bind_iff, run_pure_iff] at hr
    obtain ⟨_, _, hf, ⟨_, _⟩, st₂, hre, _, _, hr, rfl, rfl⟩ := hr
    obtain ⟨-, rfl⟩ := run_freshBlock hf
    obtain ⟨hy, _, he⟩ := hl _ List.mem_cons_self
    obtain ⟨s₁, hs₁, hg₁, hc₁, hd₁⟩ := Context.label ht hx hre hc hd he hy <| hb _ List.mem_cons_self
    rw [switchTarget_cons]
    split_ifs
    case pos h => exact ⟨s₁, by rwa [if_pos h] at hs₁, hg₁⟩
    case neg h =>
      rw [if_neg h] at hs₁
      obtain ⟨s₂, hs₂, hg₂⟩ := hi _ hr (fun c hm => hl c <| List.mem_cons_of_mem _ hm)
        (fun b hm => hb b <| List.mem_cons_of_mem _ hm) hc₁ hd₁
      obtain ⟨-, hn⟩ := run_onExprs_onValues hre
      exact ⟨s₂, hs₁.trans hs₂, hg₁.trans hg₂ ((lowering_steady fuel).lowerExpr _ hn).nextTemp⟩

end Selection

-- The blocks are emitted if enough fuel is given.
theorem lowerSwitchDispatch_emitted (hw : word = 4 ∨ word = 8) (hΓ : Names Γ scope)
    (h : ∀ c ∈ pairs, ∃ t, Expr.Typed word Γ c.1 t) : Enough fun fuel => ∀ bid valueOp defaultTarget,
      Emitted word Γ scope (lowerSwitchDispatch (exprLowering fuel) bid valueOp defaultTarget pairs) := by
  induction pairs
  case nil => exact .of fun _ _ _ _ => .pure
  case cons c rest hi =>
    obtain ⟨t, ht⟩ := h c List.mem_cons_self
    have hi := hi fun c hm => h c <| List.mem_cons_of_mem _ hm
    refine (hi.and (lowerExpr_generates hw hΓ ht)).mono fun fuel h bid valueOp defaultTarget => ?_
    obtain ⟨hi, hg⟩ := h
    cases rest
    case nil => exact (Emitted.onExprs hg).bind fun _ => .pure
    case cons c' rest =>
      rw [lowerSwitchDispatch]
      · exact Emitted.freshBlock.bind fun _ => (Emitted.onExprs hg).bind fun _ => (hi ..).bind fun _ => .pure
      · simp

section Example

-- A switch on a variable with a case for its value.
def minusSevenCase : List (Expr × BlockId) :=
  [(.unary "-" (.int "7".toList), ⟨1⟩)]

theorem minusSevenCase_values : LabelValues 8 magnitudeVars (fun _ => -7) .int (fun _ => -7) minusSevenCase := by
  intro c h
  obtain rfl := List.mem_singleton.mp h
  have h₇ : IntegerText 10 ['7'] [] "7".toList := .decimal (by decide) (List.forall_mem_singleton.mpr rfl) (by simp)
  have h₇ : Expr.Evaluates 8 magnitudeVars (fun _ => -7) (.int "7".toList) .int 7 := .int h₇ (by decide) (by decide)
  have hneg : unaryOp? "-" = some .neg := rfl
  exact ⟨by decide, _, .unary hneg h₇⟩

end Example

end Hcc
