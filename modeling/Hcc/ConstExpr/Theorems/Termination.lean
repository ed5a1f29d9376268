import Hcc.ConstExpr.Basic
import Hcc.ParseLite.Theorems.Returns

namespace Hcc

-- The fuel suffices for the parts of the parser, depending on the number of tokens.
structure Sufficient (fuel : Nat) : Prop where
  expression {toks : List Token} {pp live : Bool} {minPrec : Int} (h : 3 * toks.length + 3 ≤ fuel) :
    Returns (expression pp live minPrec fuel) toks (toks.length - 1)
  climb {toks : List Token} {pp live : Bool} {minPrec : Int} {lhs : Constant}
    (h : 3 * toks.length + 2 ≤ fuel) : Returns (climb pp live minPrec lhs fuel) toks toks.length
  unary {toks : List Token} {pp live : Bool} (h : 3 * toks.length + 2 ≤ fuel) :
    Returns (parseUnary pp live fuel) toks (toks.length - 1)
  primary {toks : List Token} {pp live : Bool} (h : 3 * toks.length + 1 ≤ fuel) :
    Returns (parsePrimary pp live fuel) toks (toks.length - 1)

variable {toks : List Token} {pp live : Bool} {minPrec : Int} {lhs : Constant} {fuel n : Nat}

theorem advanceP_returns (h : toks.length ≤ n + 1) : Returns advanceP toks n :=
  .skip h

theorem constEatPunct_returns (s) (h : toks.length ≤ n) : Returns (constEatPunct s) toks n := by
  apply Returns.pRaw
  intro env a env' rest hr
  split at hr
  case h_1 => split at hr <;> cases hr <;> simp only [List.length_cons] at h ⊢ <;> omega
  case h_2 => cases hr; exact h

theorem constEatPunct_bind {f : Bool → ConstParser β}
    (ht : ∀ sp rest, toks = ⟨sp, .punct s⟩ :: rest → Returns (f true) rest n)
    (hf : Returns (f false) toks n) : Returns (constEatPunct s >>= f) toks n := by
  intro env
  simp only [Bind.bind, P.bind, constEatPunct, pRaw]
  split
  case h_1 sp p rest =>
    split
    case isTrue hp =>
      subst hp
      obtain ⟨reply, hr, hn⟩ := ht sp rest rfl env
      exact ⟨.consumed (forceConsumed reply), by simp [hr], hn⟩
    case isFalse => exact hf env
  case h_2 => exact hf env

theorem constNeedPunct_returns (s e) (h : toks.length ≤ n) :
    Returns (constNeedPunct s e) toks n := by
  refine (constEatPunct_returns s le_rfl).bind fun found rest hr => ?_
  cases found
  case true  => exact .pure (Nat.le_trans hr h)
  case false => exact .fail

theorem applyOp_returns (op a b) (h : toks.length ≤ n) :
    Returns (applyOp pp live op a b) toks n := by
  unfold applyOp
  split
  case h_1 => split; exacts [.fail, .pure h]
  case h_2 => exact .pure h

theorem constLeaf_returns (tok) (h : toks.length ≤ n) : Returns (constLeaf pp tok) toks n := by
  unfold constLeaf
  split
  case h_1 =>
    refine (Returns.pEnv h).bind fun env rest hr => ?_
    split
    case h_1 => exact .pure hr
    case h_2 => split; exacts [.pure hr, .fail]
  case h_2 =>
    refine (Returns.pEnv h).bind fun env rest hr => ?_
    split
    case h_1 => exact .pure hr
    case h_2 => exact .fail
  case h_3 => exact .pure h
  case h_4 => exact .fail

namespace Sufficient

theorem expression_succ (hs : Sufficient fuel) (h : 3 * toks.length + 3 ≤ fuel + 1) :
    Returns (Hcc.expression pp live minPrec (fuel + 1)) toks (toks.length - 1) := by
  rw [Hcc.expression]
  refine (hs.unary (by omega)).bind fun lhs rest hr => ?_
  exact (hs.climb (by omega)).mono hr

-- The operator is consumed before any operand.
theorem climb_succ (hs : Sufficient fuel) (h : 3 * toks.length + 2 ≤ fuel + 1) :
    Returns (Hcc.climb pp live minPrec lhs (fuel + 1)) toks toks.length := by
  rw [Hcc.climb]
  apply Returns.peek_bind
  cases toks
  case nil => exact .pure le_rfl
  case cons tok toks =>
    simp only [List.length_cons] at h ⊢
    split
    case h_2 => exact .pure le_rfl
    case h_1 op hk =>
      have ha : Returns advanceP (tok :: toks) toks.length := advanceP_returns le_rfl
      split
      case isTrue =>
        refine ha.bind fun _ t₁ h₁ => ?_
        refine (hs.expression (by omega)).bind fun yes t₂ h₂ => ?_
        refine (constNeedPunct_returns _ _ le_rfl).bind fun _ t₃ h₃ => ?_
        refine (hs.expression (by omega)).bind fun no t₄ h₄ => ?_
        exact (hs.climb (by omega)).mono (by omega)
      case isFalse =>
        split
        case h_1 => exact .pure le_rfl
        case h_2 =>
          split
          case isFalse => exact .pure le_rfl
          case isTrue =>
            refine ha.bind fun _ t₁ h₁ => ?_
            refine (hs.expression (by omega)).bind fun rhs t₂ h₂ => ?_
            refine (applyOp_returns _ _ _ le_rfl).bind fun value t₃ h₃ => ?_
            exact (hs.climb (by omega)).mono (by omega)

theorem unary_succ (hs : Sufficient fuel) (h : 3 * toks.length + 2 ≤ fuel + 1) :
    Returns (parseUnary pp live (fuel + 1)) toks (toks.length - 1) := by
  rw [parseUnary]
  apply Returns.peek_bind
  cases toks
  case nil => exact .fail
  case cons tok toks =>
    simp only [List.length_cons] at h ⊢
    have ha : Returns advanceP (tok :: toks) toks.length := advanceP_returns le_rfl
    have hu {t₁ : List Token} (h₁ : t₁.length ≤ toks.length) :
        Returns (parseUnary pp live fuel) t₁ toks.length :=
      (hs.unary (by omega)).mono (by omega)
    split
    case h_1 => exact .fail
    case h_6 => exact hs.primary (by simpa using Nat.le_of_succ_le_succ h)
    case h_3 => exact ha.bind fun _ t₁ h₁ => hu h₁
    all_goals exact ha.bind fun _ t₁ h₁ => (hu h₁).bind fun _ t₂ h₂ => .pure h₂

theorem primary_succ (hs : Sufficient fuel) (h : 3 * toks.length + 1 ≤ fuel + 1) :
    Returns (parsePrimary pp live (fuel + 1)) toks (toks.length - 1) := by
  rw [parsePrimary]
  apply constEatPunct_bind
  case ht =>
    rintro sp rest rfl
    simp only [List.length_cons] at h ⊢
    refine (hs.expression (by omega)).bind fun value t₁ h₁ => ?_
    refine (constNeedPunct_returns _ _ le_rfl).bind fun _ t₂ h₂ => ?_
    exact .pure (by omega)
  case hf => exact (Returns.take (by omega)).bind fun tok rest hr => constLeaf_returns tok hr

end Sufficient

theorem sufficient (fuel) : Sufficient fuel := by
  induction fuel
  case zero => constructor <;> intros <;> omega
  case succ fuel hi =>
    exact ⟨hi.expression_succ, hi.climb_succ, hi.unary_succ, hi.primary_succ⟩

-- The parser of conditions does not run out of fuel.
theorem parsePPConstExpr_terminates (toks) : ∃ result, parsePPConstExpr toks = some result := by
  have h : Returns (expression true true 0 (3 * toks.length + 3)) toks _ :=
    (sufficient _).expression le_rfl
  have ⟨result, hr⟩ := h.parseRest (8, [])
  exact ⟨_, by rw [parsePPConstExpr, hr, Option.map_some]⟩

end Hcc
