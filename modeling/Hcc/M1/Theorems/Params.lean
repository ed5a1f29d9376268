import Hcc.M1.Theorems.Arguments

-- The parameters of a called function.
namespace Hcc.M1

open Machine CInteger

variable {t : Target} {labels : String → Word t} {fr : Frame} {v : Nat → Word t} {base : Word t}
         {m m' : Machine t} {state state' : EmitState} {code : List Insn} {temps done : List Int}
         {elided temp : Int} {argc i j k : Nat}

-- The argument with a given index, as it is found in the callee.
def incoming (fr : Frame) (m : Machine t) (k : Nat) : Word t :=
  if k < targetRegisterArgCount t then m.get (argReg t k)
  else m.word (m.get t.sp) (fr.totalSlots + 1 + (k - targetRegisterArgCount t : Nat))

theorem stackParam_eq (hf : Fits t fr count) (hj : j < count) (hr : targetRegisterArgCount t ≤ j) :
    IntType.int.wrap (fr.totalSlots * t.wordBytes + t.wordBytes +
      (j - targetRegisterArgCount t : Int) * t.wordBytes) =
      t.wordBytes * (fr.totalSlots + 1 + (j - targetRegisterArgCount t : Nat)) := by
  have hp := wordBytes_pos (t := t)
  have ht := fr.total
  have he : fr.totalSlots * t.wordBytes + t.wordBytes + (j - targetRegisterArgCount t : Int) * t.wordBytes =
      t.wordBytes * (fr.totalSlots + 1 + (j - targetRegisterArgCount t : Nat)) := by
    push_cast [hr]
    ring
  rw [he]
  refine int_wrap_eq_self (by nlinarith) ?_
  rw [Fits] at hf
  have : (1 + (j - targetRegisterArgCount t : Nat) : Int) ≤ (count - targetRegisterArgCount t : Nat) := by
    omega
  nlinarith

theorem loads_registerParam (hv : m.get (argReg t j) = x) (hj : j < targetRegisterArgCount t) :
    Loads labels m (emitLoadParam t total j) x := by
  cases t
  case amd64 =>
    simp only [targetRegisterArgCount] at hj
    interval_cases j <;> exact hv ▸ .of_set rfl
  case i386 => exact absurd hj <| Nat.not_lt_zero _
  case aarch64 =>
    have hj : (j : Int) < 8 := Int.ofNat_lt.mpr hj
    simp only [emitLoadParam, if_pos hj]
    split
    case isTrue hz =>
      cases Int.natCast_eq_zero.mp hz
      exact .nil hv
    case isFalse => exact hv ▸ .of_set rfl
  case riscv64 =>
    have hj : (j : Int) < 8 := Int.ofNat_lt.mpr hj
    simp only [emitLoadParam, if_pos hj]
    split
    case isTrue hz => exact hv ▸ .of_set (run_riscv64EmitMovReg <| by decide)
    case isFalse hz =>
      cases Int.natCast_eq_zero.mp <| not_not.mp hz
      exact .nil hv

theorem emitLoadParam_stack (h : targetRegisterArgCount t ≤ j) :
    emitLoadParam t total j = emitLoadStack t (IntType.int.wrap (total * t.wordBytes + t.wordBytes +
      (j - targetRegisterArgCount t : Int) * t.wordBytes)) := by
  cases t
  case amd64 =>
    simp only [targetRegisterArgCount] at h
    rw [emitLoadParam]
    repeat rw [if_neg (by omega)]
    rfl
  case i386 => rfl
  all_goals exact if_neg <| Int.not_lt.mpr <| Int.ofNat_le.mpr h

theorem loads_loadParam (hf : Fits t fr count) (hj : j < count) :
    Loads labels m (emitLoadParam t fr.totalSlots j) (incoming fr m j) := by
  rw [incoming]
  split
  case isTrue hr => exact loads_registerParam rfl hr
  case isFalse hr =>
    have hr := Nat.le_of_not_lt hr
    have ho : (0 : Int) ≤ t.wordBytes * (fr.totalSlots + 1 + (j - targetRegisterArgCount t : Nat)) :=
      Int.mul_nonneg (Int.natCast_nonneg _) <| by have := fr.total; omega
    rw [emitLoadParam_stack hr, stackParam_eq hf hj hr]
    exact loads_loadStack ho

theorem emitStoreTemp_ok (h : emitStoreTemp t locs temp state = .ok (code, state')) :
    ∃ loc, locs temp = some loc ∧ loc.kind = .stack ∧ state' = emitRememberRaxTemp state temp ∧
      code = if state.omitStoreTemp = temp then []
        else emitStoreStack t (IntType.int.wrap (t.wordBytes * loc.slot)) := by
  have ⟨loc, hl, h⟩ := Except.bind_eq_ok.mp h
  refine ⟨loc, lookupLoc_ok hl, ?_⟩
  split at h
  case h_1 => contradiction
  case h_2 hk =>
    split at h
    case isTrue ho =>
      cases Except.ok.inj h
      exact ⟨hk, rfl, (if_pos ho).symm⟩
    case isFalse ho =>
      cases Except.ok.inj h
      exact ⟨hk, rfl, (if_neg ho).symm⟩

-- The store of a temp changes its slot only.
theorem keeps_storeTemp (hf : Fits t fr count) (hl : fr.locs temp = some loc)
    (hsp : m.get t.sp = base) :
    Keeps (m.storeWord base loc.slot (m.get t.acc))
      (m.run labels (emitStoreStack t (IntType.int.wrap (t.wordBytes * loc.slot)))) (Helper t) := by
  obtain ⟨h₁, h₂, h₃⟩ := fr.bounds hl
  have hp := wordBytes_pos (t := t)
  have ho : (0 : Int) ≤ t.wordBytes * loc.slot := Int.mul_nonneg (Int.natCast_nonneg _) h₁
  have hw : IntType.int.wrap (t.wordBytes * loc.slot) = t.wordBytes * loc.slot := by
    rw [Fits] at hf
    exact int_wrap_eq_self ho (by nlinarith)
  rw [hw]
  subst hsp
  exact keeps_storeStack ho

-- The state after some parameters have been received.
structure Receiving (fr : Frame) (v : Nat → Word t) (base : Word t) (argc count : Nat)
    (done : List Int) (m : Machine t) : Prop where
  sp       : m.get t.sp = base
  values   : ∀ k, done.length ≤ k → k < argc → k < count → incoming fr m k = v k
  received : ∀ i, (h : i < done.length) → i < argc →
             ∃ loc, fr.locs done[i] = some loc ∧ m.word base loc.slot = v i

theorem Receiving.load (h : Receiving fr v base argc count done m) (hl : Loads labels m code x)
    (h₁ : done.length < k) (h₂ : k < argc) (h₃ : k < count) :
    incoming fr (m.run labels code) k = v k := by
  have hsp : (m.run labels code).get t.sp = base := (hl.keeps.regs _ not_scratch_sp).trans h.sp
  rw [←h.values k (Nat.le_of_lt h₁) h₂ h₃, incoming, incoming, hsp, h.sp, hl.keeps.word]
  split
  case isTrue hr => exact hl.keeps.regs _ fun hs => Nat.ne_zero_of_lt h₁ (argReg_scratch hr hs).left
  case isFalse => rfl

theorem argReg_not_helper (h : k < targetRegisterArgCount t) : ¬Helper t (argReg t k) := by
  rintro (⟨rfl, he⟩ | ⟨rfl, he⟩)
  case inl =>
    have he : k = 16 := he
    exact absurd (he ▸ h) (by decide)
  case inr =>
    have he : k + 10 = 5 ∨ k + 10 = 6 := he
    omega

-- The parameter is stored in the slot of its temp, which is apart from all other slots and arguments.
theorem Receiving.store (h : Receiving fr v base argc count done m) (hf : Fits t fr count)
    (hd : done.length < count) (hn : temp ∉ done) (ht : fr.locs temp = some loc)
    (hl : Loads labels m code₁ (incoming fr m done.length))
    (hc : code₂ = emitStoreStack t (IntType.int.wrap (t.wordBytes * loc.slot))) :
    Receiving fr v base argc count (done ++ [temp]) (m.run labels (code₁ ++ code₂)) := by
  have hw := hf.words
  obtain ⟨h₁, h₂, h₃⟩ := fr.bounds ht
  have hsp : (m.run labels code₁).get t.sp = base := (hl.keeps.regs _ not_scratch_sp).trans h.sp
  have hk : Keeps _ (Machine.run labels _ _) (Helper t) := keeps_storeTemp hf ht hsp
  rw [run_append, hc]
  rw [hl.acc] at hk
  have hsp' := (hk.regs _ fun hs => not_scratch_sp <| .inr hs).trans hsp
  refine ⟨hsp', ?values, ?received⟩
  case values =>
    intro k hk₁ hk₂ hk₃
    rw [List.length_append, List.length_singleton] at hk₁
    rw [←h.load hl hk₁ hk₂ hk₃, incoming, incoming, hsp', hsp]
    split
    case isTrue hr => exact hk.regs _ <| argReg_not_helper hr
    case isFalse hr =>
      rw [hk.word]
      exact word_storeWord_of_ne (by omega) (by rw [abs_lt]; omega)
  case received =>
    intro i hi ha
    rw [List.length_append, List.length_singleton] at hi
    cases Nat.eq_or_lt_of_le <| Nat.le_of_lt_succ hi
    case inl he =>
      subst he
      rw [List.getElem_concat_length rfl]
      exact ⟨loc, ht, hk.word.trans <| word_storeWord.trans <| h.values _ (Nat.le_refl _) ha hd⟩
    case inr hi =>
      obtain ⟨loc', hl', hv⟩ := h.received i hi ha
      rw [List.getElem_append_left hi]
      refine ⟨loc', hl', hk.word.trans ?_⟩
      have hne : temp ≠ done[i] := fun he => hn <| he ▸ List.getElem_mem hi
      have ha := fr.apart ht hl' hne
      obtain ⟨h₄, h₅, h₆⟩ := fr.bounds hl'
      rw [word_storeWord_of_ne (by omega) (by rw [abs_lt]; omega), hl.keeps.word, hv]

-- A parameter is in the slot of its temp, or in the accumulator if its store is elided.
def Receives (fr : Frame) (base : Word t) (elided : Int) (m : Machine t) (state : EmitState)
    (temp : Int) (x : Word t) : Prop :=
  ∃ loc, fr.locs temp = some loc ∧
    (m.word base loc.slot = x ∨ elided = temp ∧ state.raxTemp = temp ∧ m.get t.acc = x)

theorem run_params (hf : Fits t fr (done ++ temps).length) (hn : (done ++ temps).Nodup)
    (h : Receiving fr v base argc (done ++ temps).length done m)
    (he : emitParams t fr.locs fr.totalSlots elided done.length temps state = .ok (code, state')) :
    (m.run labels code).get t.sp = base ∧
      ∀ i, (hi : i < (done ++ temps).length) → i < argc →
        Receives fr base elided (m.run labels code) state' (done ++ temps)[i] (v i) := by
  induction temps generalizing done m code state
  case nil =>
    cases Except.ok.inj he
    refine ⟨h.sp, fun i hi ha => ?_⟩
    have hi' : i < done.length := by simpa using hi
    have ⟨loc, hl, hv⟩ := h.received i hi' ha
    exact ⟨loc, by simpa using hl, .inl hv⟩
  case cons temp temps ih =>
    have ⟨⟨param, state₁⟩, h₁, he⟩ := Except.bind_eq_ok.mp he
    have ⟨⟨rest, state₂⟩, h₂, he⟩ := Except.bind_eq_ok.mp he
    have ⟨⟨store, state₃⟩, h₃, h₁⟩ := Except.bind_eq_ok.mp h₁
    cases Except.ok.inj he
    cases Except.ok.inj h₁
    have ⟨loc, hl, _, hs, hc⟩ := emitStoreTemp_ok h₃
    have hd : done.length < (done ++ temp :: temps).length := by simp
    have hlp : Loads labels m _ _ := loads_loadParam hf hd
    have hcat : done ++ temp :: temps = (done ++ [temp]) ++ temps := by simp
    by_cases ho : (if temps = [] then elided else -1) = temp
    case neg =>
      have hnd : temp ∉ done := fun hm =>
        List.disjoint_of_nodup_append hn hm List.mem_cons_self
      have hs := h.store hf hd hnd hl hlp (hc.trans <| if_neg ho)
      rw [run_append]
      simp only [hcat] at hf hn hs ⊢
      exact ih hf hn hs (by simpa using h₂)
    case pos =>
      have ⟨hz, hel⟩ : temps = [] ∧ elided = temp := by
        split at ho
        case isTrue hz => exact ⟨hz, ho⟩
        case isFalse => exact absurd (ho ▸ fr.nonneg hl) <| by decide
      subst hz
      cases Except.ok.inj h₂
      rw [hc.trans <| if_pos ho, List.append_nil, List.append_nil]
      refine ⟨(hlp.keeps.regs _ not_scratch_sp).trans h.sp, fun i hi ha => ?_⟩
      rw [List.length_append, List.length_singleton] at hi
      cases Nat.eq_or_lt_of_le <| Nat.le_of_lt_succ hi
      case inl he =>
        subst he
        rw [List.getElem_concat_length rfl]
        exact ⟨loc, hl, .inr ⟨hel, by rw [hs]; rfl, hlp.acc.trans <| h.values _ (Nat.le_refl _) ha hd⟩⟩
      case inr hi =>
        have ⟨loc', hl', hv⟩ := h.received i hi ha
        rw [List.getElem_append_left hi]
        exact ⟨loc', hl', .inl <| hlp.keeps.word.trans hv⟩

theorem run_allParams (hf : Fits t fr temps.length) (hn : temps.Nodup)
    (h : Receiving fr v base argc temps.length [] m)
    (he : emitParams t fr.locs fr.totalSlots elided 0 temps state = .ok (code, state')) :
    (m.run labels code).get t.sp = base ∧
      ∀ i, (hi : i < temps.length) → i < argc →
        Receives fr base elided (m.run labels code) state' temps[i] (v i) := by
  have hp : [] ++ temps = temps := rfl
  rw [←hp] at hf hn h
  exact run_params hf hn h he

end Hcc.M1
