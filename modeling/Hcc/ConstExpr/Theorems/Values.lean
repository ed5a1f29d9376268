import Hcc.ConstExpr.Basic
import Hcc.Literal.Theorems.Integer
import Hcc.ParseLite.Theorems.Reads

open CInteger Digits

namespace Hcc

-- The constants of the types `int`, `long` and `long long`, and of their unsigned counterparts.
structure Constant.Integral (c : Constant) : Prop where
  wellFormed : c.WellFormed
  standard   : c.Standard

-- The results of a parser that leaves its environment alone.
def Gives (Q : α → Prop) (p : P ρ τ ε α) (env : ρ) : Prop :=
  ∀ toks a env' rest, Yields p env toks a env' rest → Q a ∧ env' = env

section Parsers

variable {ρ τ ε α β : Type} {Q : α → Prop} {R : β → Prop} {p : P ρ τ ε α} {f : α → P ρ τ ε β} {env : ρ}

theorem Gives.pure {a : α} (h : Q a) : Gives Q (Pure.pure a : P ρ τ ε α) env := by
  intro toks a' env' rest hy
  have ⟨ha, he, _⟩ := Yields.pure.unique hy
  exact ⟨ha ▸ h, he.symm⟩

theorem Gives.fail {e : ε} : Gives Q (pFail e : P ρ τ ε α) env :=
  fun _ _ _ _ h => nomatch Option.some.inj h

theorem Gives.outOfFuel : Gives Q (outOfFuelP : P ρ τ ε α) env :=
  fun _ _ _ _ h => nomatch h

theorem Gives.bind (hp : Gives Q p env) (hf : ∀ a, Q a → Gives R (f a) env) : Gives R (p >>= f) env := by
  intro toks b env' rest hy
  have ⟨a, env₁, toks₁, ha, hb⟩ := hy.exists_of_bind
  have ⟨hq, he⟩ := hp _ _ _ _ ha
  subst he
  exact hf a hq _ _ _ _ hb

theorem Gives.environment : Gives (· = env) (pEnv : P ρ τ ε ρ) env := by
  intro toks a env' rest hy
  have ⟨ha, he, _⟩ := Yields.pEnv.unique hy
  exact ⟨ha.symm, he.symm⟩

theorem Gives.peek : Gives (fun _ => True) (pPeekMaybe : P ρ τ ε (Option τ)) env := by
  intro toks a env' rest hy
  have ⟨_, he, _⟩ := Yields.peek.unique hy
  exact ⟨trivial, he.symm⟩

theorem Gives.skip {e : ε} : Gives (fun _ => True) (pSkip e : P ρ τ ε Unit) env := by
  intro toks a env' rest hy
  cases toks
  case nil  => exact nomatch Option.some.inj hy
  case cons =>
    have ⟨_, he, _⟩ := Yields.skip.unique hy
    exact ⟨trivial, he.symm⟩

theorem Gives.take {e : ε} : Gives (fun _ => True) (pTake e : P ρ τ ε τ) env := by
  intro toks a env' rest hy
  cases toks
  case nil  => exact nomatch Option.some.inj hy
  case cons =>
    cases hy
    exact ⟨trivial, rfl⟩

end Parsers

section Rests

variable {ρ τ ε α : Type} {p : P ρ τ ε α} {env : ρ} {toks rest : List τ} {a : α}

theorem yields_of_parseRest (h : parseRest p env toks = some (.ok (a, rest))) :
    ∃ env', Yields p env toks a env' rest := by
  have ⟨reply, hr, hp⟩ := Option.map_eq_some_iff.mp h
  cases hf : forceConsumed reply
  case error e => simp [hf] at hp
  case ok a' env' rest' =>
    simp only [hf, Except.ok.injEq, Prod.mk.injEq] at hp
    exact ⟨env', by rw [Yields, hr, Option.map_some, hf, hp.left, hp.right]⟩

end Rests

section Constants

variable {a b c : Constant} {long : Nat} {text : List Char}

theorem Constant.Represents.integral {t : IntType} {x : Int} (h : c.Represents t x) (ht : t.size = 4 ∨ t.size = 8) :
    c.Integral where
  wellFormed := h.wellFormed
  standard   := by
    have hs : c.size = t.size := congrArg IntType.size h.type
    rwa [Constant.Standard, hs]

theorem constantInt_integral {n : Nat} {v : Int} (h : n = 4 ∨ n = 8) : (constantInt n v).Integral where
  wellFormed := ⟨length_intBytes, proper_intBytes⟩
  standard   := h

theorem constantUnary_integral {op : String} (h : a.Integral) (ho : unaryOp? op ≠ none) :
    (constantUnary op a).Integral := by
  cases hu : unaryOp? op
  case none => exact absurd hu ho
  case some => exact (constantUnary_represents h.wellFormed hu).integral h.standard

theorem constantBinary_integral {op : String} (ha : a.Integral) (hb : b.Integral)
    (h : constantBinary op a b = .ok c) : c.Integral := by
  cases ho : binaryOp? op
  case none =>
    unfold constantBinary at h
    unfold binaryOp? at ho
    split at ho <;> simp_all
  case some bop =>
    have hr := constantBinary_represents ha.wellFormed hb.wellFormed ha.standard hb.standard ho
    split at hr
    case isFalse =>
      have ⟨_, he⟩ := hr
      exact nomatch h.symm.trans he
    case isTrue =>
      have ⟨c', hc, hr⟩ := hr
      cases h.symm.trans hc
      apply hr.integral
      unfold BinaryOp.resultType
      split_ifs
      · exact ha.standard
      · exact .inl rfl
      · rw [IntType.size_common]
        rcases ha.standard with h | h <;> rcases hb.standard with h' | h' <;> simp [Constant.type, h, h']

theorem constantCommon_integral (ha : a.Integral) (hb : b.Integral) :
    (constantCommon a b).1.Integral ∧ (constantCommon a b).2.Integral := by
  have ⟨a', b', hc, hra, hrb⟩ := constantCommon_represents ha.wellFormed hb.wellFormed
  have hs : (a.type.common b.type).size = 4 ∨ (a.type.common b.type).size = 8 := by
    rw [IntType.size_common]
    rcases ha.standard with h | h <;> rcases hb.standard with h' | h' <;> simp [Constant.type, h, h']
  rw [hc]
  exact ⟨hra.integral hs, hrb.integral hs⟩

theorem naturalLiteralBytes_proper :
    Proper 256 (naturalLiteralBytes text) ∧ (naturalLiteralBytes text).length = 8 := by
  have hz : Proper 256 zeroByteWord ∧ zeroByteWord.length = 8 := ⟨by simp [zeroByteWord], rfl⟩
  have hr {base bytes} (cs : List Char) (h : Proper 256 bytes ∧ bytes.length = 8) :
      Proper 256 (readBaseBytesFrom base bytes cs) ∧ (readBaseBytesFrom base bytes cs).length = 8 := by
    fun_induction readBaseBytesFrom base bytes cs
    case case1    => exact h
    case case2 hi =>
      apply hi
      unfold byteWordMulAdd
      exact ⟨proper_byteWordAddSmallCarry.take, by simp [h.right]⟩
    case case3    => exact h
  unfold naturalLiteralBytes
  split
  all_goals exact hr _ hz

-- Every literal that is accepted has one of the types.
theorem constantLiteralChecked_integral (hl : long = 4 ∨ long = 8)
    (h : constantLiteralChecked long false text = .ok c) : c.Integral := by
  have ⟨hp, hw⟩ := @naturalLiteralBytes_proper (stripIntSuffix text)
  have hr : ∃ types x, constantLiteralRanked long false text = typedLiteral long x (firstType long x types) := by
    rw [constantLiteralRanked_eq, ←Bool.not_not (isNonDecimal text), rankedCandidates_eq]
    exact ⟨_, _, choose_eq _ hl hp hw⟩
  have ⟨types, x, hr⟩ := hr
  have hc : c = (constantLiteralRanked long false text).2 := by
    unfold constantLiteralChecked at h
    unfold constantLiteralRankedChecked at h
    dsimp only at h
    split_ifs at h
    case pos => exact (Except.ok.inj h).symm
    case neg => cases h
  rw [hc, hr]
  exact ⟨⟨length_intBytes, proper_intBytes⟩, literalType_size hl⟩

end Constants

section Evaluation

variable {env : Nat × List (String × Constant)} {live : Bool} {minPrec : Int} {fuel : Nat}

-- The constants of the environment, and the ones that it is asked for.
structure Sound (env : Nat × List (String × Constant)) : Prop where
  long      : env.1 = 4 ∨ env.1 = 8
  constants : ∀ item ∈ env.2, item.2.Integral

theorem constEatPunct_gives : Gives (fun _ => True) (constEatPunct s) env := by
  intro toks a env' rest h
  refine ⟨trivial, ?_⟩
  simp only [Yields, constEatPunct, pRaw, Option.map_some, Option.some.injEq] at h
  split at h
  · split at h <;> cases h <;> rfl
  · cases h
    rfl

theorem constNeedPunct_gives : Gives (fun _ => True) (constNeedPunct s e) env := by
  refine constEatPunct_gives.bind fun found _ => ?_
  cases found
  case true  => exact .pure trivial
  case false => exact .fail

theorem applyOp_gives (ha : a.Integral) (hb : b.Integral) :
    Gives Constant.Integral (applyOp false live op a b) env := by
  unfold applyOp
  split
  case h_1 =>
    split
    case isTrue  => exact .fail
    case isFalse =>
      have hc : (if op = "<<" || op = ">>" then a else (constantCommon a b).1).Integral := by
        split
        case isTrue  => exact ha
        case isFalse => exact (constantCommon_integral ha hb).left
      exact .pure ⟨⟨List.length_replicate, proper_replicate le_rfl (by decide)⟩, hc.standard⟩
  case h_2 value hv =>
    apply Gives.pure
    split
    case isTrue  => exact constantInt_integral <| .inl rfl
    case isFalse => exact constantBinary_integral ha hb hv

theorem constLeaf_gives (h : Sound env) (tok) : Gives Constant.Integral (constLeaf false tok) env := by
  unfold constLeaf
  split
  case h_1 name _ =>
    refine Gives.environment.bind fun _ he => ?_
    subst he
    split
    case h_1 value hv =>
      have ⟨before, after, he, _⟩ := List.lookup_eq_some_iff.mp hv
      exact .pure <| h.constants (name, value) <| by simp [he]
    case h_2          => exact .fail
  case h_2 =>
    refine Gives.environment.bind fun _ he => ?_
    subst he
    split
    case h_1 hv => exact .pure <| constantLiteralChecked_integral h.long hv
    case h_2    => exact .fail
  case h_3 => exact .pure <| constantInt_integral <| .inl rfl
  case h_4 => exact .fail

-- The parts of an expression have integer constants as their values.
structure Evaluates (env : Nat × List (String × Constant)) (fuel : Nat) : Prop where
  expression live minPrec : Gives Constant.Integral (expression false live minPrec fuel) env
  climb live minPrec      : ∀ lhs : Constant, lhs.Integral →
                            Gives Constant.Integral (climb false live minPrec lhs fuel) env
  unary live              : Gives Constant.Integral (parseUnary false live fuel) env
  primary live            : Gives Constant.Integral (parsePrimary false live fuel) env

namespace Evaluates

theorem climb_succ (hs : Evaluates env fuel) {lhs : Constant} (hl : lhs.Integral) :
    Gives Constant.Integral (Hcc.climb false live minPrec lhs (fuel + 1)) env := by
  rw [Hcc.climb]
  refine Gives.peek.bind fun tok _ => ?_
  split
  case h_2      => exact .pure hl
  case h_1 op _ =>
    split
    case isTrue =>
      refine Gives.skip.bind fun _ _ => (hs.expression _ _).bind fun yes hy => ?_
      refine constNeedPunct_gives.bind fun _ _ => (hs.expression _ _).bind fun no hn => ?_
      have hc := constantCommon_integral hy hn
      apply hs.climb
      split
      case isTrue  => exact hc.left
      case isFalse => exact hc.right
    case isFalse =>
      split
      case h_1 => exact .pure hl
      case h_2 =>
        split
        case isFalse => exact .pure hl
        case isTrue  =>
          refine Gives.skip.bind fun _ _ => (hs.expression _ _).bind fun rhs hr => ?_
          exact (applyOp_gives hl hr).bind fun value hv => hs.climb _ _ _ hv

theorem unary_succ (hs : Evaluates env fuel) : Gives Constant.Integral (parseUnary false live (fuel + 1)) env := by
  rw [parseUnary]
  refine Gives.peek.bind fun tok _ => ?_
  split
  case h_1 => exact .fail
  case h_2 =>
    exact Gives.skip.bind fun _ _ => (hs.unary _).bind fun _ _ => .pure <| constantInt_integral <| .inl rfl
  case h_3 => exact Gives.skip.bind fun _ _ => hs.unary _
  case h_4 | h_5 =>
    exact Gives.skip.bind fun _ _ => (hs.unary _).bind fun _ h => .pure <| constantUnary_integral h (by decide)
  case h_6 => exact hs.primary _

theorem primary_succ (hs : Evaluates env fuel) (he : Sound env) :
    Gives Constant.Integral (parsePrimary false live (fuel + 1)) env := by
  rw [parsePrimary]
  refine constEatPunct_gives.bind fun found _ => ?_
  cases found
  case true  => exact (hs.expression _ _).bind fun _ h => constNeedPunct_gives.bind fun _ _ => .pure h
  case false => exact Gives.take.bind fun tok _ => constLeaf_gives he tok

end Evaluates

theorem evaluates (h : Sound env) (fuel) : Evaluates env fuel := by
  induction fuel
  case zero =>
    exact ⟨fun _ _ => .outOfFuel, fun _ _ _ _ => .outOfFuel, fun _ => .outOfFuel, fun _ => .outOfFuel⟩
  case succ fuel hi =>
    have he live minPrec : Gives Constant.Integral (Hcc.expression false live minPrec (fuel + 1)) env := by
      rw [Hcc.expression]
      exact (hi.unary _).bind fun lhs hl => hi.climb _ _ lhs hl
    exact ⟨he, fun _ _ _ hl => hi.climb_succ hl, fun _ => hi.unary_succ, fun _ => hi.primary_succ h⟩

-- The value of an initializer is an integer constant.
theorem parseTypedConstExprTarget_integral {bits : Nat} {constants : List (String × Constant)}
    {toks rest : List Token} (hc : ∀ item ∈ constants, item.2.Integral)
    (h : parseTypedConstExprTarget bits constants toks = some (.ok (c, rest))) : c.Integral := by
  unfold parseTypedConstExprTarget at h
  have ⟨env', hy⟩ := yields_of_parseRest h
  refine ((evaluates ⟨?_, hc⟩ _).expression _ _ _ _ _ _ hy).left
  split
  case isTrue  => exact .inl rfl
  case isFalse => exact .inr rfl

end Evaluation
end Hcc
