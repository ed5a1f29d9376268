import Hcc.Lower.Theorems.Meaning.Generation
import Hcc.Lower.Theorems.Meaning.Scalars
import Hcc.Lower.Theorems.Meaning.Values
import Hcc.Lower.Theorems.Steady.Expression

open Stateful CInteger

-- The code for the operators that evaluate both of their operands.
namespace Hcc

variable {w word fuel : Nat} {World : Type} {m : Machine w World} {s s₁ s' : Frame w World} {st st₁ st' : ValueState}
variable {scope : Scope} {op op₁ op' : Operand} {is js : List Instr} {ty : CType} {t u : IntType} {x y z : Int}
variable {Γ : String → Option CType} {ρ : String → Int} {e a b : Expr} {iop : BinOp} {bop : BinaryOp}

-- The temporaries of the variables hold their values.
structure Context (m : Machine w World) (word : Nat) (Γ : String → Option CType) (ρ : String → Int) (scope : Scope)
    (st : ValueState) (s : Frame w World) : Prop extends Ready word Γ scope st where
  standard : m.Standard
  sizes    : word = 4 ∨ word = 8
  width    : w = 8 * word
  values   : ∀ {name ty temp}, Γ name = some ty → scopeMapLookup name scope = some (temp, ty) →
             temp.index < st.nextTemp ∧ ∃ b, s.temps temp = some b ∧
             ∀ t, ty.Integer word t → ρ name = ty.convert word b.toInt

namespace Context

variable (hc : Context m word Γ ρ scope st s)
include hc

theorem after (hp : Performs m st st' is s s') : Context m word Γ ρ scope st' s' where
  toReady    := hc.toReady.congr hp.bits hp.constants
  standard   := hc.standard
  sizes      := hc.sizes
  width      := hc.width
  values h k := by
    obtain ⟨hl, b, hb, hv⟩ := hc.values h k
    exact ⟨hl.trans_le hp.next, b, (hp.temps _ hl).trans hb, hv⟩

-- Code that is not executed leaves the frame alone.
theorem extend (he : st.Extends st') : Context m word Γ ρ scope st' s where
  toReady    := hc.toReady.congr he.targetBits he.constants
  standard   := hc.standard
  sizes      := hc.sizes
  width      := hc.width
  values h k := (hc.values h k).imp_left (·.trans_le he.nextTemp)

theorem ranged : Ranged word Γ ρ := by
  intro name ty t h ht
  obtain ⟨temp, hs⟩ := hc.bound h
  obtain ⟨-, _, -, hv⟩ := hc.values h hs
  rw [hv t ht]
  exact ht.wrap_convert

theorem width_le (h : t.size ≤ word) : 8 * t.size ≤ w := by
  have hw := hc.width
  omega

theorem fits (h : Expr.Evaluates word Γ ρ e t x) : t.size ≤ word ∧ t.wrap x = x :=
  ⟨h.typed.size_le hc.sizes, h.wrap hc.sizes hc.ranged⟩

theorem value_lt (ht : t.size ≤ word) (hx : t.wrap x = x) : x < 2 ^ w := by
  have hm : t.modulus ≤ 2 ^ w := IntType.modulus_eq ▸ Nat.pow_le_pow_right Nat.two_pos (hc.width_le ht)
  have hm : (t.modulus : Int) ≤ 2 ^ w := by exact_mod_cast hm
  have hx := IntType.wrap_eq_self_iff.mp hx
  split at hx <;> omega

theorem exprType (h : Expr.Typed word Γ e t) : Answers word scope ((typing fuel).exprType e) (Types word t) :=
  exprType_answers hc.sizes hc.names h fuel

theorem promoted (h : Expr.Typed word Γ e t) : Answers word scope ((typing fuel).promotedExprType e)
    (·.Integer word t.promote) :=
  h.promoted_answers hc.sizes hc.names fuel

theorem usual (ha : Expr.Typed word Γ a t) (hb : Expr.Typed word Γ b u) :
    Answers word scope ((typing fuel).usualArithmeticType a b) (·.Integer word (t.promote.common u.promote)) :=
  ha.usual_answers hc.sizes hc.names hb fuel

theorem comparison (ha : Expr.Typed word Γ a t) (hb : Expr.Typed word Γ b u) :
    Answers word scope ((typing fuel).comparisonOperandType a b) (·.Integer word (t.promote.common u.promote)) :=
  ha.comparison_answers hc.sizes hc.names hb fuel

theorem coerce (ht : ty.Integer word t) (hx : ∃ u : IntType, u.size ≤ word ∧ u.wrap x = x)
    (h : Denotes m st s op x) (hr : Run ((typing fuel).coerceScalar ty op scope) st (is, op') st') :
    Realizes m st st' s is op' (ty.convert word x) := by
  refine coerceScalar_realizes hc.standard hc.sizes hc.width ht hc.target hr h fun hb => ?_
  obtain ⟨u, hu, hx⟩ := hx
  exact IntType.ofInt_eq_zero_iff (hc.width_le hu) hx

-- A conversion to one of the types that operands are converted to.
theorem coerceWide (ht : ty.Integer word t) (hl : 4 ≤ t.size) (h : Denotes m st s op x)
    (hr : Run ((typing fuel).coerceScalar ty op scope) st (is, op') st') : Realizes m st st' s is op' (t.wrap x) := by
  have hb : ty ≠ .bool := by
    rintro rfl
    obtain rfl := Option.some.inj ht.left
    exact absurd hl <| by decide
  have he : ty.convert word x = t.wrap x := by
    unfold CType.convert
    split
    case h_1 => exact absurd rfl hb
    case h_2 => rw [ht.left]; rfl
  rw [←he]
  exact coerceScalar_realizes hc.standard hc.sizes hc.width ht hc.target hr h fun h => absurd h hb

end Context

-- Code that goes on after other code.
theorem Performs.realizes (hp : Performs m st st₁ is s s₁) (hw : s₁.world = s.world)
    (h : Realizes m st₁ st' s₁ js op y) : Realizes m st st' s (is ++ js) op y := by
  obtain ⟨s', hp', hw', hd⟩ := h
  exact ⟨s', hp.append hp', hw'.trans hw, hd⟩

theorem Realizes.then (h : Realizes m st st₁ s is op x)
    (hf : ∀ s₁, Performs m st st₁ is s s₁ → Denotes m st₁ s₁ op x → Realizes m st₁ st' s₁ js op' y) :
    Realizes m st st' s (is ++ js) op' y := by
  obtain ⟨s₁, hp, hw, hd⟩ := h
  exact hp.realizes hw <| hf s₁ hp hd

-- The code of a computation computes an integer.
def LowersTo (m : Machine w World) (word : Nat) (Γ : String → Option CType) (ρ : String → Int) (scope : Scope)
    (act : ValueM (List Instr × Operand)) (x : Int) : Prop :=
  ∀ ⦃st s is op st'⦄, Context m word Γ ρ scope st s → Run (act scope) st (is, op) st' → Realizes m st st' s is op x

-- The results do not depend on the temporaries that have been allocated.
theorem Answers.fresh {α : Type} {act : ValueM α} {p : α → Prop} {n : Nat} {v : α} (h : Answers word scope act p)
    (hw : targetLongSize st = word) (hr : Run (act scope) { st with nextTemp := n } v st') :
    p v ∧ st' = { st with nextTemp := n } := by
  have hw : targetLongSize { st with nextTemp := n } = word := hw
  exact h hw rfl hr

section Instructions

theorem const_realizes {v : Int} :
    Realizes m st { st with nextTemp := st.nextTemp + 1 } s [.const ⟨st.nextTemp⟩ v] (.temp ⟨st.nextTemp⟩) v :=
  fresh_realizes rfl

theorem Machine.Standard.binary {v v' r : BitVec w} (hm : m.Standard) (hd : iop.Defined v v')
    (he : iop.eval v v' = r) : m.binary iop v v' = some r := by
  rw [Machine.binary, ←he]
  split
  case isTrue     => rfl
  case isFalse hi => exact hm.arithmetic (by simpa using hi) hd

theorem bin_realizes (h : Denotes m st s op x) (h₁ : Denotes m st s op₁ y)
    (hv : m.binary iop (BitVec.ofInt w x) (.ofInt w y) = some (.ofInt w z)) :
    Realizes m st { st with nextTemp := st.nextTemp + 1 } s [.bin ⟨st.nextTemp⟩ iop op op₁] (.temp ⟨st.nextTemp⟩)
      z := by
  refine fresh_realizes ?_
  rw [Machine.exec, h.word, h₁.word]
  exact congrArg (· >>= fun value => some (m.set 0 s ⟨st.nextTemp⟩ value)) hv

end Instructions

section Operators

theorem instruction_comparison {unsigned : Bool} (hs : bop.Strict) :
    isComparisonBinOp (instruction unsigned bop) = bop.IsTest := by
  cases bop
  case logicalAnd => exact absurd rfl hs.left
  case logicalOr  => exact absurd rfl hs.right
  all_goals cases unsigned <;> rfl

-- The instruction for the operands that have been converted to their common type.
theorem instruction_binary (hc : Context m word Γ ρ scope st s) (hu : (t.common u).size ≤ word)
    (hs : bop.IsShift = false) (hl : bop.Strict)
    (hd : bop = .div ∨ bop = .mod → (t.common u).Divides ((t.common u).wrap x) ((t.common u).wrap y)) :
    m.binary (instruction (t.common u).unsigned bop) (BitVec.ofInt w ((t.common u).wrap x))
      (.ofInt w ((t.common u).wrap y)) = some (.ofInt w (bop.eval t u x y)) := by
  have hw := hc.width_le hu
  rw [BinaryOp.eval_common hs hl]
  exact hc.standard.binary (defined_instruction hw m.pos IntType.wrap_wrap IntType.wrap_wrap hs hd) <|
    eval_instruction hw IntType.wrap_wrap IntType.wrap_wrap hs hl

end Operators

section Binary

variable {l : Lowering}

theorem common_size_le (hc : Context m word Γ ρ scope st s) (ht : Expr.Typed word Γ a t) (hu : Expr.Typed word Γ b u) :
    4 ≤ (t.promote.common u.promote).size ∧ (t.promote.common u.promote).size ≤ word := by
  rw [IntType.size_common]
  exact ⟨le_max_of_le_left promote_size, max_le (unaryPromote_size_le hc.sizes <| ht.size_le hc.sizes)
    (unaryPromote_size_le hc.sizes <| hu.size_le hc.sizes)⟩

-- The code of both operands, with their conversions to the common type.
theorem operands_perform {st₂ st₃ st₄ : ValueState} {ai bi aci bci : List Instr} {ao bo aco bco : Operand}
    (ha : LowersTo m word Γ ρ scope (l.lowerExpr a) x) (hb : LowersTo m word Γ ρ scope (l.lowerExpr b) y)
    (hc : Context m word Γ ρ scope st s) (hra : Run (l.lowerExpr a scope) st (ai, ao) st₁)
    (hrb : Run (l.lowerExpr b scope) st₁ (bi, bo) st₂) (hl : 4 ≤ t.size)
    (hty : ∀ s, Context m word Γ ρ scope st₂ s → ty.Integer word t ∧ st₃ = st₂)
    (hrac : Run ((typing fuel).coerceScalar ty ao scope) st₃ (aci, aco) st₄)
    (hrbc : Run ((typing fuel).coerceScalar ty bo scope) st₄ (bci, bco) st') :
    ∃ s', Performs m st st' (ai ++ (bi ++ (aci ++ bci))) s s' ∧ s'.world = s.world ∧ ty.Integer word t ∧
      Denotes m st' s' aco (t.wrap x) ∧ Denotes m st' s' bco (t.wrap y) := by
  obtain ⟨s₁, hp₁, hw₁, hd₁⟩ := ha hc hra
  have hc₁ := hc.after hp₁
  obtain ⟨s₂, hp₂, hw₂, hd₂⟩ := hb hc₁ hrb
  have hc₂ := hc₁.after hp₂
  obtain ⟨ht, rfl⟩ := hty s₂ hc₂
  obtain ⟨s₃, hp₃, hw₃, hd₃⟩ := hc₂.coerceWide ht hl (hd₁.after hp₂) hrac
  have hc₃ := hc₂.after hp₃
  obtain ⟨s₄, hp₄, hw₄, hd₄⟩ := hc₃.coerceWide ht hl (hd₂.after hp₃) hrbc
  have hw := ((hw₄.trans hw₃).trans hw₂).trans hw₁
  exact ⟨s₄, hp₁.append <| hp₂.append <| hp₃.append hp₄, hw, ht, hd₃.after hp₄, hd₄⟩

variable (hT : l.toTyping = typing fuel) (ht : Expr.Typed word Γ a t) (hu : Expr.Typed word Γ b u)
variable (ha : LowersTo m word Γ ρ scope (l.lowerExpr a) x) (hb : LowersTo m word Γ ρ scope (l.lowerExpr b) y)
include hT ht hu ha hb

theorem lowerPlainBin_lowers (hs : bop.IsShift = false) (hl : bop.Strict)
    (hd : bop = .div ∨ bop = .mod → (t.promote.common u.promote).Divides ((t.promote.common u.promote).wrap x)
      ((t.promote.common u.promote).wrap y)) :
    LowersTo m word Γ ρ scope (l.lowerPlainBin (instruction (t.promote.common u.promote).unsigned bop) a b)
      (bop.value t.promote u.promote x y) := by
  intro st s is op st' hc hr
  obtain ⟨hle, hw⟩ := common_size_le hc ht hu
  unfold Lowering.lowerPlainBin at hr
  rw [hT, instruction_comparison hl] at hr
  obtain ⟨⟨ai, ao⟩, st₁, hra, hr⟩ := run_value_bind_iff.mp hr
  obtain ⟨⟨bi, bo⟩, st₂, hrb, hr⟩ := run_value_bind_iff.mp hr
  obtain ⟨ty, st₃, hrt, hr⟩ := run_value_bind_iff.mp hr
  obtain ⟨⟨aci, aco⟩, st₄, hrac, hr⟩ := run_value_bind_iff.mp hr
  obtain ⟨⟨bci, bco⟩, st₅, hrbc, hr⟩ := run_value_bind_iff.mp hr
  obtain ⟨out, _, hf, hr⟩ := run_value_bind_iff.mp hr
  obtain ⟨rfl, rfl⟩ := run_freshTemp_iff.mp hf
  obtain ⟨⟨ci, co⟩, st₆, hrc, hr⟩ := run_value_bind_iff.mp hr
  obtain ⟨he, rfl⟩ := run_pure_iff.mp hr
  obtain ⟨rfl, rfl⟩ := Prod.mk.inj he
  have hty (s₂ : Frame w World) (hc₂ : Context m word Γ ρ scope st₂ s₂) :
      ty.Integer word (t.promote.common u.promote) ∧ st₃ = st₂ := by
    split at hrt
    case isTrue  => exact hc₂.comparison ht hu hc₂.target rfl hrt
    case isFalse => exact hc₂.usual ht hu hc₂.target rfl hrt
  obtain ⟨s₅, hp₅, hw₅, hty, hd₁, hd₂⟩ := operands_perform ha hb hc hra hrb hle hty hrac hrbc
  have hc₅ := hc.after hp₅
  suffices h : Realizes m st st₆ s ((ai ++ (bi ++ (aci ++ bci))) ++ ([.bin ⟨st₅.nextTemp⟩ _ aco bco] ++ ci)) co _ by
    simpa only [List.append_assoc] using h
  refine hp₅.realizes hw₅ <| (bin_realizes hd₁ hd₂ <| instruction_binary hc₅ hw hs hl hd).then fun s₆ hp₆ hd₆ => ?_
  rw [BinaryOp.value_strict hs]
  split at hrc
  case isTrue hi  =>
    obtain ⟨he, rfl⟩ := run_pure_iff.mp hrc
    obtain ⟨rfl, rfl⟩ := Prod.mk.inj he
    rw [if_pos hi]
    exact hd₆.realizes
  case isFalse hi =>
    rw [if_neg hi]
    exact (hc₅.after hp₆).coerceWide hty hle hd₆ hrc

theorem lowerDivision_lowers {name : String} (hn : binaryOp? name = some bop) (ho : bop = .div ∨ bop = .mod)
    (hd : (t.promote.common u.promote).Divides ((t.promote.common u.promote).wrap x)
      ((t.promote.common u.promote).wrap y)) :
    LowersTo m word Γ ρ scope (l.lowerDivision name a b) (bop.value t.promote u.promote x y) := by
  intro st s is op st' hc hr
  have hs : bop.IsShift = false ∧ bop.Strict := by
    rcases ho with rfl | rfl <;> exact ⟨rfl, by decide, by decide⟩
  unfold Lowering.lowerDivision at hr
  rw [hT] at hr
  obtain ⟨ty, st₁, hrt, hr₁⟩ := run_value_bind_iff.mp hr
  obtain ⟨hty, rfl⟩ := hc.usual ht hu hc.target rfl hrt
  have hi : (if isUnsignedType ty then (if name = "/" then BinOp.udiv else .umod)
      else if name = "/" then .div else .mod) = instruction (t.promote.common u.promote).unsigned bop := by
    rw [hty.isUnsignedType]
    unfold binaryOp? at hn
    split at hn <;> cases hn
    case h_4 => rfl
    case h_5 => rfl
    all_goals rcases ho with ho | ho <;> cases ho
  rw [hi] at hr₁
  exact lowerPlainBin_lowers hT ht hu ha hb hs.left hs.right (fun _ => hd) hc hr₁

theorem lowerComparisonOperands_performs {ao bo : Operand} (hc : Context m word Γ ρ scope st s)
    (hr : Run (l.lowerComparisonOperands a b scope) st (is, ao, bo) st') :
    ∃ s', Performs m st st' is s s' ∧ s'.world = s.world ∧
      Denotes m st' s' ao ((t.promote.common u.promote).wrap x) ∧
      Denotes m st' s' bo ((t.promote.common u.promote).wrap y) := by
  unfold Lowering.lowerComparisonOperands at hr
  rw [hT] at hr
  obtain ⟨⟨ai, ao⟩, st₁, hra, hr⟩ := run_value_bind_iff.mp hr
  obtain ⟨⟨bi, bo⟩, st₂, hrb, hr⟩ := run_value_bind_iff.mp hr
  obtain ⟨ty, st₃, hrt, hr⟩ := run_value_bind_iff.mp hr
  obtain ⟨⟨aci, aco⟩, st₄, hrac, hr⟩ := run_value_bind_iff.mp hr
  obtain ⟨⟨bci, bco⟩, st₅, hrbc, hr⟩ := run_value_bind_iff.mp hr
  obtain ⟨he, rfl⟩ := run_pure_iff.mp hr
  cases he
  have hty (s₂ : Frame w World) (hc₂ : Context m word Γ ρ scope st₂ s₂) := hc₂.comparison ht hu hc₂.target rfl hrt
  obtain ⟨s', hp, hw, -, hd₁, hd₂⟩ :=
    operands_perform ha hb hc hra hrb (common_size_le hc ht hu).left hty hrac hrbc
  simp only [List.append_assoc]
  exact ⟨s', hp, hw, hd₁, hd₂⟩

omit hT ha hb in
theorem comparisonOp_answers {name : String} (hc : Context m word Γ ρ scope st s) (hn : binaryOp? name = some bop)
    (ho : isComparisonOpString name) : Answers word scope ((typing fuel).comparisonOp name a b)
      (· = instruction (t.promote.common u.promote).unsigned bop) := by
  refine (hc.comparison ht hu).bind fun ty hty => .pure ?_
  rw [hty.isUnsignedType]
  unfold binaryOp? at hn
  split at hn <;> cases hn
  case h_10 | h_11 | h_12 | h_13 => cases (t.promote.common u.promote).unsigned <;> rfl
  all_goals cases ho

omit hT ha hb in
theorem comparison_binary {name : String} (hc : Context m word Γ ρ scope st s) (hn : binaryOp? name = some bop)
    (ho : isBranchComparisonOpString name) :
    m.binary (instruction (t.promote.common u.promote).unsigned bop)
      (BitVec.ofInt w ((t.promote.common u.promote).wrap x)) (.ofInt w ((t.promote.common u.promote).wrap y)) =
        some (.ofInt w (bop.value t.promote u.promote x y)) := by
  have hs : bop.IsShift = false ∧ bop.IsTest ∧ bop.Strict ∧ bop ≠ .div ∧ bop ≠ .mod := by
    unfold binaryOp? at hn
    split at hn <;> cases hn
    case h_8 | h_9 | h_10 | h_11 | h_12 | h_13 =>
      exact ⟨rfl, rfl, ⟨by decide, by decide⟩, by decide, by decide⟩
    all_goals cases ho
  obtain ⟨hs, hb, hl, hd, hm⟩ := hs
  rw [BinaryOp.value_strict hs, if_pos hb]
  exact instruction_binary hc (common_size_le hc ht hu).right hs hl fun h => (h.elim hd hm).elim

theorem lowerComparisonExpr_lowers {name : String} (hn : binaryOp? name = some bop) (ho : isComparisonOpString name) :
    LowersTo m word Γ ρ scope (l.lowerComparisonExpr name a b) (bop.value t.promote u.promote x y) := by
  intro st s is op st' hc hr
  obtain ⟨⟨instrs, ao, bo⟩, st₁, hro, hr⟩ := run_value_bind_iff.mp hr
  obtain ⟨out, _, hf, hr⟩ := run_value_bind_iff.mp hr
  obtain ⟨rfl, rfl⟩ := run_freshTemp_iff.mp hf
  obtain ⟨iop, st₂, hri, hr⟩ := run_value_bind_iff.mp hr
  obtain ⟨he, rfl⟩ := run_pure_iff.mp hr
  cases he
  obtain ⟨s₁, hp, hw, hd₁, hd₂⟩ := lowerComparisonOperands_performs hT ht hu ha hb hc hro
  have hc₁ := hc.after hp
  rw [hT] at hri
  obtain ⟨rfl, rfl⟩ := (comparisonOp_answers ht hu hc₁ hn ho).fresh hc₁.target hri
  have ho : isBranchComparisonOpString name := by
    simp only [isComparisonOpString, isBranchComparisonOpString, decide_eq_true_eq] at ho ⊢
    exact List.mem_cons_of_mem _ <| List.mem_cons_of_mem _ ho
  exact hp.realizes hw <| bin_realizes hd₁ hd₂ <| comparison_binary ht hu hc₁ hn ho

-- The comparison that is done by a branch.
theorem lowerBranchComparison_performs {name : String} {iop : BinOp} {ao bo : Operand}
    (hc : Context m word Γ ρ scope st s) (hn : binaryOp? name = some bop) (ho : isBranchComparisonOpString name)
    (hr : Run (l.lowerBranchComparison name a b scope) st (is, iop, ao, bo) st') :
    ∃ s', Performs m st st' is s s' ∧ s'.world = s.world ∧ ∃ v v', m.operand 0 s' ao = some v ∧
      m.operand 0 s' bo = some v' ∧ m.binary iop v v' = some (.ofInt w (bop.value t.promote u.promote x y)) := by
  obtain ⟨⟨instrs, ao, bo⟩, st₁, hro, hr⟩ := run_value_bind_iff.mp hr
  obtain ⟨iop, st₂, hri, hr⟩ := run_value_bind_iff.mp hr
  obtain ⟨he, rfl⟩ := run_pure_iff.mp hr
  cases he
  obtain ⟨s₁, hp, hw, hd₁, hd₂⟩ := lowerComparisonOperands_performs hT ht hu ha hb hc hro
  have hc₁ := hc.after hp
  have hi : iop = instruction (t.promote.common u.promote).unsigned bop ∧ st₂ = st₁ := by
    rw [hT] at hri
    split at hri
    case isTrue h =>
      subst h
      cases hn
      obtain ⟨rfl, rfl⟩ := run_pure_iff.mp hri
      exact ⟨rfl, rfl⟩
    case isFalse h =>
      split at hri
      case isTrue h =>
        subst h
        cases hn
        obtain ⟨rfl, rfl⟩ := run_pure_iff.mp hri
        exact ⟨rfl, rfl⟩
      case isFalse h' =>
        refine comparisonOp_answers ht hu hc₁ hn ?_ hc₁.target rfl hri
        simp only [isComparisonOpString, isBranchComparisonOpString, decide_eq_true_eq] at ho ⊢
        simpa [h, h'] using ho
  obtain ⟨rfl, rfl⟩ := hi
  exact ⟨s₁, hp, hw, _, _, hd₁.word, hd₂.word, comparison_binary ht hu hc₁ hn ho⟩

theorem lowerShiftExpr_lowers {name : String} (hn : binaryOp? name = some bop) (hs : bop.IsShift)
    (hd : bop.Defined t.promote y) (hx : t.wrap x = x) :
    LowersTo m word Γ ρ scope (l.lowerShiftExpr name a b) (bop.value t.promote u.promote x y) := by
  intro st s is op st' hc hr
  have hw := hc.width_le <| unaryPromote_size_le hc.sizes <| ht.size_le hc.sizes
  unfold Lowering.lowerShiftExpr at hr
  rw [hT] at hr
  obtain ⟨⟨ai, ao⟩, st₁, hra, hr⟩ := run_value_bind_iff.mp hr
  obtain ⟨⟨bi, bo⟩, st₂, hrb, hr⟩ := run_value_bind_iff.mp hr
  obtain ⟨out, _, hf, hr⟩ := run_value_bind_iff.mp hr
  obtain ⟨rfl, rfl⟩ := run_freshTemp_iff.mp hf
  obtain ⟨iop, st₃, hri, hr⟩ := run_value_bind_iff.mp hr
  obtain ⟨mty, st₄, hrt, hr⟩ := run_value_bind_iff.mp hr
  obtain ⟨⟨ci, co⟩, st₅, hrc, hr⟩ := run_value_bind_iff.mp hr
  obtain ⟨he, rfl⟩ := run_pure_iff.mp hr
  cases he
  simp only [List.append_assoc]
  refine (ha hc hra).then fun s₁ hp₁ hd₁ => ?_
  have hc₁ := hc.after hp₁
  refine (hb hc₁ hrb).then fun s₂ hp₂ hd₂ => ?_
  have hc₂ := hc₁.after hp₂
  have hi : iop = instruction t.promote.unsigned bop ∧ st₃ = { st₂ with nextTemp := st₂.nextTemp + 1 } := by
    unfold binaryOp? at hn
    split at hn <;> cases hn
    case h_6 =>
      obtain ⟨rfl, rfl⟩ := run_pure_iff.mp hri
      exact ⟨rfl, rfl⟩
    case h_7 =>
      obtain ⟨ty, st₃, hrp, hri⟩ := run_value_bind_iff.mp hri
      obtain ⟨hty, rfl⟩ := (hc₂.promoted ht).fresh hc₂.target hrp
      obtain ⟨rfl, rfl⟩ := run_pure_iff.mp hri
      rw [hty.isUnsignedType]
      exact ⟨rfl, rfl⟩
    all_goals cases hs
  obtain ⟨rfl, rfl⟩ := hi
  obtain ⟨⟨ty, rfl, hty⟩, rfl⟩ := (hc₂.exprType (.binary hn ht hu)).fresh hc₂.target hrt
  have hy : 0 ≤ y ∧ y < 8 * t.promote.size := by
    cases bop
    case shl | shr => exact hd
    all_goals cases hs
  have hyw : y < w := by omega
  have hb₃ : Realizes m st₂ { st₂ with nextTemp := st₂.nextTemp + 1 } s₂
      [.bin ⟨st₂.nextTemp⟩ (instruction t.promote.unsigned bop) ao bo] (.temp ⟨st₂.nextTemp⟩)
      (bop.eval t.promote u.promote x y) := by
    refine bin_realizes (hd₁.after hp₂) hd₂ <| hc₂.standard.binary ?_ <|
      eval_shift hw (IntType.promote_wrap hx) hy.left hyw hs
    have hlt : (BitVec.ofInt w y).toNat < w := by
      have hp : w < 2 ^ w := Nat.lt_two_pow_self
      rw [BitVec.toNat_ofInt, Int.emod_eq_of_lt hy.left (by omega)]
      omega
    cases bop
    case shl => exact hlt
    case shr => cases t.promote.unsigned <;> exact hlt
    all_goals cases hs
  refine hb₃.then fun s₃ hp₃ hd₃ => ?_
  have hr : bop.resultType t.promote u.promote = t.promote := if_pos hs
  rw [hr] at hty
  rw [BinaryOp.value, hr]
  exact (hc₂.after hp₃).coerceWide hty promote_size hd₃ hrc

theorem lowerAddExpr_lowers :
    LowersTo m word Γ ρ scope (l.lowerAddExpr a b) (BinaryOp.add.value t.promote u.promote x y) := by
  intro st s is op st' hc hr
  unfold Lowering.lowerAddExpr at hr
  rw [hT] at hr
  obtain ⟨aty, st₁, hra, hr₁⟩ := run_value_bind_iff.mp hr
  obtain ⟨hta, rfl⟩ := hc.exprType ht hc.target rfl hra
  obtain ⟨bty, st₂, hrb, hr₂⟩ := run_value_bind_iff.mp hr₁
  obtain ⟨htb, rfl⟩ := hc.exprType hu hc.target rfl hrb
  rw [hta.pointer, htb.pointer] at hr₂
  exact lowerPlainBin_lowers hT ht hu ha hb rfl ⟨by decide, by decide⟩ (fun h => absurd h <| by decide) hc hr₂

theorem lowerSubExpr_lowers :
    LowersTo m word Γ ρ scope (l.lowerSubExpr a b) (BinaryOp.sub.value t.promote u.promote x y) := by
  intro st s is op st' hc hr
  unfold Lowering.lowerSubExpr at hr
  rw [hT] at hr
  obtain ⟨aty, st₁, hra, hr₁⟩ := run_value_bind_iff.mp hr
  obtain ⟨hta, rfl⟩ := hc.exprType ht hc.target rfl hra
  obtain ⟨bty, st₂, hrb, hr₂⟩ := run_value_bind_iff.mp hr₁
  rw [hta.pointer] at hr₂
  obtain ⟨htb, rfl⟩ := hc.exprType hu hc.target rfl hrb
  exact lowerPlainBin_lowers hT ht hu ha hb rfl ⟨by decide, by decide⟩ (fun h => absurd h <| by decide) hc hr₂

-- An operator that evaluates both of its operands.
theorem binary_lowers {name : String} (hn : binaryOp? name = some bop) (hl : bop.Strict) (hd : bop.Defined t.promote y)
    (hq : bop = .div ∨ bop = .mod → (t.promote.common u.promote).Divides ((t.promote.common u.promote).wrap x)
      ((t.promote.common u.promote).wrap y)) (hx : t.wrap x = x) :
    LowersTo m word Γ ρ scope (l.lowerExprStep (.binary name a b)) (bop.value t.promote u.promote x y) := by
  have hcmp (h : isComparisonOpString name) := lowerComparisonExpr_lowers hT ht hu ha hb hn h
  have hdiv (h : bop = .div ∨ bop = .mod) := lowerDivision_lowers hT ht hu ha hb hn h <| hq h
  have hshift (h : bop.IsShift) := lowerShiftExpr_lowers hT ht hu ha hb hn h hd hx
  have hplain (h : bop.IsShift = false) := lowerPlainBin_lowers hT ht hu ha hb h hl hq
  have hn' := hn
  unfold binaryOp? at hn'
  split at hn' <;> cases hn'
  case h_1 => exact lowerAddExpr_lowers hT ht hu ha hb
  case h_2 => exact lowerSubExpr_lowers hT ht hu ha hb
  case h_4 => exact hdiv <| .inl rfl
  case h_5 => exact hdiv <| .inr rfl
  case h_6 | h_7 => exact hshift rfl
  case h_10 | h_11 | h_12 | h_13 => exact hcmp rfl
  case h_3 | h_8 | h_9 | h_14 | h_15 | h_16 => exact hplain rfl
  case h_17 => exact absurd rfl hl.left
  case h_18 => exact absurd rfl hl.right

end Binary

end Hcc
