import Hcc.M1.Alu
import Hcc.M1.Theorems.Machine
import Mathlib.Data.List.TakeWhile

-- What the instructions for arithmetic leave in the registers.
namespace Hcc.M1

open Machine Words

variable {t : Target} {s s' : Core t} {labels : String → Word t} {w : Nat} {a b : BitVec w}

section Runs

variable {code code₁ code₂ : List Step} {insn : Insn}

@[simp]
theorem runSteps_nil : runSteps labels s [] = some (.falls s) := by
  rw [runSteps]

@[simp]
theorem runSteps_alu {alu : Alu} :
    runSteps labels s (.alu alu :: code) = (alu.exec s).bind (runSteps labels · code) := by
  rw [runSteps]
  rfl

@[simp]
theorem runSteps_insn : runSteps labels s (.insn insn :: code) =
    runSteps labels ⟨s.machine.exec labels insn, if keepsFlags insn then s.flags else none⟩ code := by
  rw [runSteps]

@[simp]
theorem runSteps_mark {label : String} :
    runSteps labels s (.mark label :: code) = runSteps labels s code := by
  rw [runSteps]

theorem runSteps_skip {c : Condition} {f : Flags} (m : Machine t) :
    runSteps labels ⟨m, some f⟩ (.skip c :: code) =
      if f.satisfy c then (skipStep code).bind (runSteps labels ⟨m, some f⟩)
      else runSteps labels ⟨m, some f⟩ code := by
  rw [runSteps]
  simp only [Option.bind_eq_bind, Option.bind_some]
  split
  case isTrue =>
    split
    case h_1 h => rw [h, Option.bind_some]
    case h_2 h => rw [h, Option.bind_none]
  case isFalse => rfl

theorem runSteps_jumpTo {src : Reg} :
    runSteps labels s (.jumpTo src :: code) = some (.jumps (s.machine.get src) s) := by
  rw [runSteps]

theorem runSteps_jump {label : String} :
    runSteps labels s (.jump none label :: code) = some (.jumps (labels label) s) := by
  rw [runSteps]

theorem runSteps_jump_some {c : Condition} {f : Flags} {label : String} (m : Machine t) :
    runSteps labels ⟨m, some f⟩ (.jump (some c) label :: code) =
      if f.satisfy c then some (.jumps (labels label) ⟨m, some f⟩)
      else runSteps labels ⟨m, some f⟩ code := by
  rw [runSteps]
  rfl

theorem runSteps_branch {c : Condition} {a b : Reg} {label : String} :
    runSteps labels s (.branch c a b label :: code) =
      if c.holds (s.machine.get a) (s.machine.get b) then
        if .mark label ∈ code then runSteps labels s (code.dropWhile (· ≠ .mark label)) else none
      else runSteps labels s code := by
  rw [runSteps]

theorem runSteps_alus {alus : List Alu} (h : alus.foldlM Alu.exec s = some s') :
    runSteps labels s (alus.map .alu) = some (.falls s') := by
  induction alus generalizing s
  case nil =>
    cases h
    exact runSteps_nil
  case cons alu alus hi =>
    rw [List.foldlM_cons] at h
    have ⟨s₁, he, h⟩ := Option.bind_eq_some_iff.mp h
    rw [List.map_cons, runSteps_alu, he]
    exact hi h

theorem skipStep_append {rest : List Step} (h : skipStep code = some rest) :
    skipStep (code ++ code₂) = some (rest ++ code₂) := by
  unfold skipStep at h
  split at h
  case h_3 => contradiction
  all_goals
    cases h
    rfl

-- What is run behind code with an outcome.
def Outcome.andThen (o : Outcome t) (f : Core t → Option (Outcome t)) : Option (Outcome t) :=
  match o with
  | falls s         => f s
  | jumps address s => some <| .jumps address s

theorem runSteps_append {o : Outcome t} (h : runSteps labels s code₁ = some o) :
    runSteps labels s (code₁ ++ code₂) = o.andThen (runSteps labels · code₂) := by
  fun_induction runSteps labels s code₁
  case case1 =>
    cases h
    rfl
  case case2 s alu rest hi =>
    obtain ⟨s₁, he, h⟩ := Option.bind_eq_some_iff.mp h
    rw [List.cons_append, runSteps_alu, he]
    exact hi s₁ h
  case case3 hi =>
    rw [List.cons_append, runSteps_insn]
    exact hi h
  case case4 s c rest hb hi =>
    obtain ⟨f, hf, h⟩ := Option.bind_eq_some_iff.mp h
    rw [List.cons_append, runSteps, hf]
    simp only [Option.bind_eq_bind, Option.bind_some]
    by_cases hc : f.satisfy c
    case neg =>
      rw [if_neg hc] at h ⊢
      exact hi h
    case pos =>
      rw [if_pos hc] at h ⊢
      split at h
      case h_2 => contradiction
      case h_1 behind hs =>
        split
        case h_1 he =>
          cases (skipStep_append hs).symm.trans he
          exact hb behind hs h
        case h_2 he => cases (skipStep_append hs).symm.trans he
  case case5 =>
    cases h
    rw [List.cons_append, runSteps]
    rfl
  case case6 s c label rest hi =>
    obtain ⟨f, hf, h⟩ := Option.bind_eq_some_iff.mp h
    rw [List.cons_append, runSteps, hf]
    by_cases hc : f.satisfy c
    case pos =>
      rw [if_pos hc] at h
      cases h
      exact if_pos hc
    case neg =>
      rw [if_neg hc] at h
      exact (if_neg hc).trans <| hi h
  case case7 =>
    cases h
    rw [List.cons_append, runSteps]
    rfl
  case case8 s c a b label rest hc hm hi =>
    have hd : (rest ++ code₂).dropWhile (· ≠ .mark label) =
        rest.dropWhile (· ≠ .mark label) ++ code₂ := by
      rw [List.dropWhile_append, if_neg]
      rw [List.isEmpty_iff, List.dropWhile_eq_nil_iff]
      exact fun h => by simpa using h _ hm
    rw [List.cons_append, runSteps, if_pos hc, if_pos <| List.mem_append_left _ hm, hd]
    exact hi h
  case case9 => cases h
  case case10 s c a b label rest hc hi =>
    rw [List.cons_append, runSteps, if_neg hc]
    exact hi h
  case case11 hi =>
    rw [List.cons_append, runSteps_mark]
    exact hi h

end Runs

section Lines

variable {code code₁ code₂ : List CodeLine} {steps : List Step}

theorem runLines_eq (h : code.mapM (decode t) = some steps) :
    runLines labels s code = runSteps labels s steps := by
  rw [runLines, h]
  rfl

theorem runLines_append (h : runLines labels s code₁ = some (.falls s')) :
    runLines labels s (code₁ ++ code₂) = runLines labels s' code₂ := by
  have ⟨steps, hs, h⟩ := Option.bind_eq_some_iff.mp h
  rw [runLines, runLines, List.mapM_append, hs]
  cases code₂.mapM (decode t)
  case none => rfl
  case some => exact runSteps_append h

theorem runLines_append_jumps {address : Word t} (h : runLines labels s code₁ = some (.jumps address s'))
    (hc : code₂.mapM (decode t) = some steps) :
    runLines labels s (code₁ ++ code₂) = some (.jumps address s') := by
  have ⟨steps, hs, h⟩ := Option.bind_eq_some_iff.mp h
  rw [runLines, List.mapM_append, hs, hc]
  exact runSteps_append h

def Plain : Insn → Prop
  | .call _ | .callReg _ | .ret => False
  | _                           => True

theorem decode_insn {insn : Insn} (h : Plain insn) : decode t (.insn insn) = some (.insn insn) := by
  cases insn
  case call | callReg | ret => contradiction
  all_goals rfl

theorem runLines_insns {insns : List Insn} (h : ∀ insn ∈ insns, Plain insn) :
    ∃ flags, runLines labels s (insns.map .insn) = some (.falls ⟨s.machine.run labels insns, flags⟩) := by
  induction insns generalizing s
  case nil => exact ⟨s.flags, runSteps_nil⟩
  case cons insn insns hi =>
    have ⟨hp, h⟩ := List.forall_mem_cons.mp h
    let s₁ : Core t := ⟨s.machine.exec labels insn, if keepsFlags insn then s.flags else none⟩
    have ⟨flags, hr⟩ := hi (s := s₁) h
    have hd : [CodeLine.insn insn].mapM (decode t) = some [.insn insn] := by simp [decode_insn hp]
    have hs : runLines labels s [.insn insn] = some (.falls s₁) := by
      rw [runLines_eq hd, runSteps_insn, runSteps_nil]
    exact ⟨flags, (runLines_append hs).trans hr⟩

end Lines

section Division

theorem append_sign : ((if a.toInt < 0 then -1 else 0 : BitVec w) ++ a).toInt = a.toInt := by
  rw [BitVec.toInt_append]
  cases w
  case zero => rfl
  case succ n =>
    have hm := BitVec.toInt_neg_iff (x := a)
    have ha := BitVec.toInt_eq_toNat_cond a
    have h₁ : (-1#(n + 1)).toInt = -1 := by
      rw [BitVec.neg_one_eq_allOnes, BitVec.toInt_allOnes]
      rfl
    split
    case isTrue h => simp at h
    case isFalse =>
      split
      case isTrue h =>
        rw [BitVec.ofNat_eq_ofNat, h₁]
        grind
      case isFalse h =>
        rw [BitVec.ofNat_eq_ofNat, BitVec.toInt_zero]
        grind

theorem divideWide_signed (hb : b ≠ 0) (hd : ¬(a = .intMin w ∧ b = -1)) :
    divideWide true ((if a.toInt < 0 then -1 else 0 : BitVec w) ++ a) b =
      some (BinOp.div.eval a b, BinOp.mod.eval a b) := by
  have hq : (BitVec.ofInt w (a.toInt.tdiv b.toInt)).toInt = a.toInt.tdiv b.toInt := by
    rw [BitVec.toInt_ofInt, ←BitVec.toInt_sdiv]
    exact BitVec.toInt_sdiv_of_ne_or_ne _ _ <| not_and_or.mp hd
  simp only [divideWide, if_neg hb, if_true, append_sign, if_pos hq]
  rfl

theorem divideWide_unsigned (hb : b ≠ 0) :
    divideWide false ((0 : BitVec w) ++ a) b = some (BinOp.udiv.eval a b, BinOp.umod.eval a b) := by
  have ha : ((0 : BitVec w) ++ a).toNat = a.toNat := by simp
  have hq : a.toNat / b.toNat < 2 ^ w := Nat.lt_of_le_of_lt (Nat.div_le_self ..) a.isLt
  simp only [divideWide, if_neg hb, Bool.false_eq_true, if_false, ha, if_pos hq]
  rfl

theorem sub_mul_div : a - b * BinOp.div.eval a b = BinOp.mod.eval a b := by
  simp only [BinOp.eval, Int.tmod_def]
  rw [Int.sub_eq_add_neg, BitVec.ofInt_add, BitVec.ofInt_neg, BitVec.ofInt_mul, BitVec.ofInt_toInt,
    BitVec.ofInt_toInt, BitVec.sub_eq_add_neg]

theorem sub_mul_udiv : a - b * BinOp.udiv.eval a b = BinOp.umod.eval a b := by
  rw [BitVec.sub_eq_iff_eq_add]
  have h := congrArg (BitVec.ofNat w) <| Nat.mod_add_div a.toNat b.toNat
  rw [BitVec.ofNat_add, BitVec.ofNat_mul, BitVec.ofNat_toNat, BitVec.ofNat_toNat, BitVec.setWidth_eq,
    BitVec.setWidth_eq] at h
  exact h.symm

end Division

end Hcc.M1
