import Hcc.Compile.Run
import Hcc.Ir.Bytewise
import Hcc.Lower.Object
import Hcc.Lower.Theorems.Layout
import Hcc.Lower.Theorems.Temps.Objects
import Mathlib.Algebra.Order.Ring.Int

open Stateful ByteMemory Words

-- What the code for objects does to the bytes of the memory.
namespace Hcc

variable {w steps size : Nat} {World : Type} {m : Machine w World} {memory : World → Memory w}
variable {s s' : Frame w World} {st st₁ st' : ValueState} {scope : Scope} {op op' dst src : Operand} {is : List Instr}
variable {a b x : BitVec w} {offset remaining word width : Int} {t : Typing} {ty : CType}

section Instructions

theorem add_ofInt_zero : a + BitVec.ofInt w 0 = a := by
  simp

theorem zextBytes_of_lt (h : x.toNat < 256 ^ size) : zextBytes size x = x := by
  refine BitVec.eq_of_toNat_eq ?_
  have hp : 256 ^ size = 2 ^ (8 * size) := by rw [Nat.pow_mul]
  rw [zextBytes, zeroExtend, BitVec.toNat_setWidth, BitVec.toNat_setWidth, ←hp, Nat.mod_eq_of_lt h]
  exact Nat.mod_eq_of_lt x.isLt

theorem accessWidth_cases (hw : word = 4 ∨ word = 8) (hr : 0 < remaining) :
    (accessWidth word remaining = 8 ∨ accessWidth word remaining = 4 ∨ accessWidth word remaining = 1) ∧
      accessWidth word remaining ≤ word ∧ accessWidth word remaining ≤ remaining := by
  unfold accessWidth
  split_ifs <;> omega

-- A store of some bytes of a word.
theorem store_performs (hb : m.Bytewise memory) (hw : width = 8 ∨ width = 4 ∨ width = 1)
    (hd : m.operand 0 s dst = some a) (hv : m.operand 0 s op = some x) :
    ∃ s', Performs m st st [unsignedStoreAt width dst op] s s' ∧ s'.temps = s.temps ∧
      memory s'.world = write (memory s.world) a width.toNat x.toNat := by
  obtain ⟨world, hs, hm⟩ := hb.store width.toNat s.world a x
  refine ⟨{ s with world }, ⟨?_, fun _ _ => rfl, le_rfl, rfl, rfl⟩, rfl, hm⟩
  have he : m.exec 0 (unsignedStoreAt width dst op) s = m.store 0 s width.toNat dst op := by
    rcases hw with rfl | rfl | rfl <;> rfl
  rw [Machine.execs_singleton, he, Machine.store, hd, hv]
  exact congrArg (· >>= fun world => some { s with world }) hs

-- A value that is put into a new temporary.
theorem fresh_performs {i : Instr} (h : m.exec 0 i s = some (m.set 0 s ⟨st.nextTemp⟩ x)) :
    ∃ s', Performs m st { st with nextTemp := st.nextTemp + 1 } [i] s s' ∧ s'.world = s.world ∧
      m.operand 0 s' (.temp ⟨st.nextTemp⟩) = some x := by
  refine ⟨m.set 0 s ⟨st.nextTemp⟩ x, ⟨?_, fun t ht => ?_, Nat.le_succ _, rfl, rfl⟩, rfl, ?_⟩
  · rw [Machine.execs_singleton, h]
  · rw [Machine.set_zero]
    refine Function.update_of_ne (fun he => ?_) ..
    rw [he] at ht
    exact Nat.lt_irrefl _ ht
  · rw [Machine.set_zero]
    exact Function.update_self ..

theorem load_performs (hb : m.Bytewise memory) (hw : width = 8 ∨ width = 4 ∨ width = 1) (hl : 8 * width ≤ w)
    (hs : m.operand 0 s src = some b) :
    ∃ s', Performs m st { st with nextTemp := st.nextTemp + 1 } [unsignedLoadAt width ⟨st.nextTemp⟩ src] s s' ∧
      s'.world = s.world ∧
      m.operand 0 s' (.temp ⟨st.nextTemp⟩) = some (.ofNat w (read (memory s.world) b width.toNat)) := by
  have hp : 256 ^ width.toNat ≤ 2 ^ w := by
    have he : 256 ^ width.toNat = 2 ^ (8 * width.toNat) := by rw [Nat.pow_mul]
    exact he ▸ Nat.pow_le_pow_right Nat.two_pos (by omega)
  have hx : (BitVec.ofNat w (read (memory s.world) b width.toNat)).toNat = read (memory s.world) b width.toNat :=
    (BitVec.toNat_ofNat ..).trans <| Nat.mod_eq_of_lt <| read_lt.trans_le hp
  have hz : zextBytes width.toNat (BitVec.ofNat w (read (memory s.world) b width.toNat)) =
      .ofNat w (read (memory s.world) b width.toNat) := zextBytes_of_lt <| by rw [hx]; exact read_lt
  have hload {extend : BitVec w → BitVec w} : m.load 0 s width.toNat extend ⟨st.nextTemp⟩ src =
      some (m.set 0 s ⟨st.nextTemp⟩ (extend (.ofNat w (read (memory s.world) b width.toNat)))) := by
    rw [Machine.load, hs]
    exact congrArg (· >>= fun value => some (m.set 0 s ⟨st.nextTemp⟩ (extend value))) <| hb.load ..
  refine fresh_performs ?_
  rcases hw with rfl | rfl | rfl
  · exact hload
  · exact hload.trans <| congrArg (fun v => some (m.set 0 s ⟨st.nextTemp⟩ v)) hz
  · exact hload.trans <| congrArg (fun v => some (m.set 0 s ⟨st.nextTemp⟩ v)) hz

theorem offsetAddress_performs (hb : m.Bytewise memory) (hr : Run (offsetAddress op offset scope) st (is, op') st')
    (ho : op.Below st.nextTemp) (ha : m.operand 0 s op = some a) :
    ∃ s', Performs m st st' is s s' ∧ s'.world = s.world ∧ op'.Below st'.nextTemp ∧
      m.operand 0 s' op' = some (a + .ofInt w offset) := by
  unfold offsetAddress at hr
  split at hr
  case isTrue hz =>
    obtain ⟨he, rfl⟩ := run_pure_iff.mp hr
    obtain ⟨rfl, rfl⟩ := Prod.mk.inj he
    refine ⟨s, .nil, rfl, ho, ?_⟩
    rw [ha, hz, add_ofInt_zero]
  case isFalse =>
    obtain ⟨out, _, hf, hr⟩ := run_value_bind_iff.mp hr
    obtain ⟨rfl, rfl⟩ := run_freshTemp_iff.mp hf
    obtain ⟨he, rfl⟩ := run_pure_iff.mp hr
    obtain ⟨rfl, rfl⟩ := Prod.mk.inj he
    have hx : m.exec 0 (.bin ⟨st.nextTemp⟩ .add op (.imm offset)) s =
        some (m.set 0 s ⟨st.nextTemp⟩ (a + .ofInt w offset)) := by
      rw [Machine.exec, ha]
      exact congrArg (· >>= fun value => some (m.set 0 s ⟨st.nextTemp⟩ value)) <| hb.add ..
    obtain ⟨s', he, hw, hv⟩ := fresh_performs hx
    exact ⟨s', he, hw, Operand.below_temp <| Nat.lt_succ_self _, hv⟩

end Instructions

section Objects

theorem run_targetWordSize_iff : Run (targetWordSize scope) st word st' ↔
    (if st.targetBits = 32 then 4 else 8) = word ∧ st = st' :=
  Fueled.done_inj.trans <| by simp

theorem ofInt_offset (hw : 0 ≤ width) :
    a + BitVec.ofInt w (offset + width) = a + .ofInt w offset + .ofNat w width.toNat := by
  rw [BitVec.ofInt_add, BitVec.add_assoc, ←BitVec.ofInt_natCast, Int.toNat_of_nonneg hw]

-- The bytes of the object from the offset on are cleared, and nothing else is changed.
theorem zeroObjectBytes_performs (hb : m.Bytewise memory)
    (hr : Run (zeroObjectBytes dst offset steps remaining scope) st is st') (hd : dst.Below st.nextTemp)
    (ha : m.operand 0 s dst = some a) (hs : remaining ≤ steps) (hn : remaining.toNat ≤ 2 ^ w) :
    ∃ s', Performs m st st' is s s' ∧
      Stored (a + .ofInt w offset) remaining.toNat (fun _ => 0) (memory s.world) (memory s'.world) := by
  induction steps generalizing offset remaining st s is
  case zero =>
    obtain ⟨rfl, rfl⟩ := run_pure_iff.mp hr
    rw [Int.toNat_of_nonpos hs]
    exact ⟨s, .nil, .zero⟩
  case succ steps hi =>
    rw [zeroObjectBytes] at hr
    split at hr
    case isTrue hz =>
      obtain ⟨rfl, rfl⟩ := run_pure_iff.mp hr
      rw [Int.toNat_of_nonpos hz]
      exact ⟨s, .nil, .zero⟩
    case isFalse hz =>
      obtain ⟨word, _, hword, hr⟩ := run_value_bind_iff.mp hr
      obtain ⟨hsz, rfl⟩ := run_targetWordSize_iff.mp hword
      have hw : word = 4 ∨ word = 8 := by
        rw [←hsz]
        split <;> simp
      obtain ⟨hc, hwd, hwr⟩ := accessWidth_cases hw (Int.not_le.mp hz)
      generalize accessWidth word remaining = width at *
      obtain ⟨⟨dstInstrs, dstAddr⟩, st₁, hoff, hr⟩ := run_value_bind_iff.mp hr
      obtain ⟨rest, st₂, hrest, hr⟩ := run_value_bind_iff.mp hr
      obtain ⟨rfl, rfl⟩ := run_pure_iff.mp hr
      obtain ⟨s₁, he₁, hw₁, -, hv₁⟩ := offsetAddress_performs hb hoff hd ha
      obtain ⟨s₂, he₂, -, hm₂⟩ := store_performs hb hc hv₁ (show m.operand 0 s₁ (.imm 0) = some (.ofInt w 0) from rfl)
      have he := he₁.append he₂
      obtain ⟨s₃, he₃, hst⟩ := hi hrest (hd.mono he.next) ((he.operand hd).trans ha) (by omega) (by omega)
      refine ⟨s₃, he.append he₃, ?_⟩
      have hfirst := stored_write 0 (memory s₁.world) (a + .ofInt w offset) (show width.toNat ≤ 2 ^ w by omega)
      have hzero : (BitVec.ofInt w 0).toNat = 0 := by simp
      rw [hzero] at hm₂
      rw [ofInt_offset (by omega)] at hst
      have hlen : remaining.toNat = width.toNat + (remaining - width).toNat := by omega
      rw [hlen]
      refine Stored.append (by omega) ?_ hst
      rw [hm₂, ←hw₁]
      exact ⟨fun i hi => (hfirst.stored i hi).trans <| by rw [Nat.zero_div]; rfl, hfirst.frame⟩

-- The bytes of the source from the offset on are copied.
theorem copyObjectBytes_performs (hb : m.Bytewise memory)
    (hr : Run (copyObjectBytes dst src offset steps remaining scope) st is st') (hw : 8 * wordSize st.targetBits ≤ w)
    (hd : dst.Below st.nextTemp) (ha : m.operand 0 s dst = some a) (hsrc : src.Below st.nextTemp)
    (hb' : m.operand 0 s src = some b) (hs : remaining ≤ steps) (hn : remaining.toNat ≤ 2 ^ w)
    (hap : Ahead (a + .ofInt w offset) (b + .ofInt w offset) remaining.toNat) :
    ∃ s', Performs m st st' is s s' ∧ Stored (a + .ofInt w offset) remaining.toNat
      (fun i => memory s.world (b + .ofInt w offset + .ofNat w i)) (memory s.world) (memory s'.world) := by
  induction steps generalizing offset remaining st s is
  case zero =>
    obtain ⟨rfl, rfl⟩ := run_pure_iff.mp hr
    rw [Int.toNat_of_nonpos hs]
    exact ⟨s, .nil, .zero⟩
  case succ steps hi =>
    rw [copyObjectBytes] at hr
    split at hr
    case isTrue hz =>
      obtain ⟨rfl, rfl⟩ := run_pure_iff.mp hr
      rw [Int.toNat_of_nonpos hz]
      exact ⟨s, .nil, .zero⟩
    case isFalse hz =>
      obtain ⟨word, _, hword, hr⟩ := run_value_bind_iff.mp hr
      obtain ⟨hsz, rfl⟩ := run_targetWordSize_iff.mp hword
      have hw' : 8 * word ≤ w := hsz ▸ hw
      have hc : word = 4 ∨ word = 8 := by
        rw [←hsz]
        split <;> simp
      obtain ⟨hc, hwd, hwr⟩ := accessWidth_cases hc (Int.not_le.mp hz)
      generalize accessWidth word remaining = width at *
      obtain ⟨⟨dstInstrs, dstAddr⟩, st₁, hoff, hr⟩ := run_value_bind_iff.mp hr
      obtain ⟨⟨srcInstrs, srcAddr⟩, st₂, hoff', hr⟩ := run_value_bind_iff.mp hr
      obtain ⟨val, _, hf, hr⟩ := run_value_bind_iff.mp hr
      obtain ⟨rfl, rfl⟩ := run_freshTemp_iff.mp hf
      obtain ⟨rest, st₄, hrest, hr⟩ := run_value_bind_iff.mp hr
      obtain ⟨rfl, rfl⟩ := run_pure_iff.mp hr
      obtain ⟨s₁, he₁, hw₁, hbd, hv₁⟩ := offsetAddress_performs hb hoff hd ha
      obtain ⟨s₂, he₂, hw₂, -, hv₂⟩ := offsetAddress_performs hb hoff' (hsrc.mono he₁.next) ((he₁.operand hsrc).trans hb')
      obtain ⟨s₃, he₃, hw₃, hv₃⟩ := load_performs hb hc (by omega) hv₂
      have he := he₁.append <| he₂.append he₃
      have hv₁' := (((he₂.append he₃).operand hbd).trans hv₁)
      obtain ⟨s₄, he₄, ht₄, hm₄⟩ := store_performs hb hc hv₁' hv₃
      have he := he.append he₄
      have hdst := hd.mono he.next
      have hlen : remaining.toNat = width.toNat + (remaining - width).toNat := by omega
      have hoffs {p : BitVec w} : p + .ofInt w (offset + width) = p + .ofInt w offset + .ofNat w width.toNat :=
        ofInt_offset (by omega)
      rw [hlen] at hap
      have hap' : Ahead (a + .ofInt w (offset + width)) (b + .ofInt w (offset + width)) (remaining - width).toNat := by
        rw [hoffs, hoffs]
        exact hap.drop
      have hbits : st₂.targetBits = st.targetBits := he₂.bits.trans he₁.bits
      obtain ⟨s₅, he₅, hst⟩ := hi hrest (by rw [hbits]; exact hw) hdst ((he.operand hd).trans ha)
        (hsrc.mono he.next) ((he.operand hsrc).trans hb') (by omega) (by omega) hap'
      have hmem : memory s₃.world = memory s.world := by rw [hw₃, hw₂, hw₁]
      have hread : memory s₄.world = write (memory s.world) (a + .ofInt w offset) width.toNat
          (read (memory s.world) (b + .ofInt w offset) width.toNat) := by
        have hp : 256 ^ width.toNat ≤ 2 ^ w := by
          have he : 256 ^ width.toNat = 2 ^ (8 * width.toNat) := by rw [Nat.pow_mul]
          exact he ▸ Nat.pow_le_pow_right Nat.two_pos (by omega)
        have hw₂' : memory s₂.world = memory s.world := by rw [hw₂, hw₁]
        rw [hm₄, hmem, hw₂', BitVec.toNat_ofNat, Nat.mod_eq_of_lt <| read_lt.trans_le hp]
      have hfirst := stored_write_read (memory s.world) (memory s.world) (a + .ofInt w offset) (b + .ofInt w offset)
        (show width.toNat ≤ 2 ^ w by omega)
      rw [←hread] at hfirst
      refine ⟨s₅, ?_, ?_⟩
      case refine_1 =>
        have h := he.append he₅
        simp only [List.append_assoc, List.cons_append, List.nil_append] at h ⊢
        exact h
      case refine_2 =>
        rw [hlen]
        refine Stored.append (by omega) hfirst ?_
        rw [←hoffs]
        refine ⟨fun i hi => (hst.stored i hi).trans ?_, hst.frame⟩
        rw [hoffs, add_ofNat_add]
        exact hfirst.frame _ <| hap.outside hi

end Objects

section Types

variable {tags : Tags} {bits fuel : Nat} {slot : RecordLayout.Slot} {known : Set String} {n : Int}

-- No temporaries are allocated when the size is computed.
theorem Performs.of_typeSize {n : Int} (hr : Run ((typing fuel).typeSize ty scope) st n st₁)
    (h : Performs m st₁ st' is s s') : Performs m st st' is s s' := by
  have hq : ValueState.Quiet st st₁ := (typing_respects fuel).typeSize ty hr
  have he : st.Extends st₁ := (typing_respects fuel).typeSize ty hr
  exact ⟨h.runs, fun t k => h.temps t <| hq.nextTemp ▸ k, he.nextTemp.trans h.next, h.bits.trans he.targetBits,
    h.constants.trans he.constants⟩

theorem Operand.Below.typeSize {n : Int} (hr : Run ((typing fuel).typeSize ty scope) st n st₁)
    (h : op.Below st.nextTemp) : op.Below st₁.nextTemp :=
  h.mono ((typing_respects fuel).typeSize (R := ValueState.Extends) ty hr).nextTemp

-- An object of a type is cleared as a whole.
theorem zeroObject_clears (hb : m.Bytewise memory) (hl : HasLayout tags bits ty slot) (hst : st.Layouts tags bits known)
    (hr : Run ((typing fuel).zeroObject dst ty scope) st is st') (hd : dst.Below st.nextTemp)
    (ha : m.operand 0 s dst = some a) (hn : slot.size.toNat ≤ 2 ^ w) :
    ∃ s', Performs m st st' is s s' ∧ Stored a slot.size.toNat (fun _ => 0) (memory s.world) (memory s'.world) := by
  obtain ⟨size, st₁, hsize, hr⟩ := run_value_bind_iff.mp hr
  obtain ⟨rfl, -⟩ := (hl.lays fuel).size known scope hst hsize
  obtain ⟨s', he, hz⟩ := zeroObjectBytes_performs hb hr (hd.typeSize hsize) ha (Int.self_le_toNat _) hn
  rw [add_ofInt_zero] at hz
  exact ⟨s', he.of_typeSize hsize, hz⟩

theorem zeroObject_clears_pair : ∃ is st s', Run ((typing 5).zeroObject (.imm 32) (.struct "P") scopeMapEmpty)
    pairState is st ∧ (byteMachine 64 (by decide)).execs 0 is ⟨fun _ => 1, fun _ => none⟩ = some s' ∧
      Stored 32 16 (fun _ => 0) (fun _ => 1) s'.world := by
  obtain ⟨is, st, hr, -⟩ := exists_run_of_yields (s := pairState) (p := fun _ => true)
    (m := (typing 5).zeroObject (.imm 32) (.struct "P") scopeMapEmpty) (by decide +kernel)
  obtain ⟨s', hs, hz⟩ := zeroObject_clears (m := byteMachine 64 (by decide)) (s := ⟨fun _ => 1, fun _ => none⟩)
    byteMachine_bytewise pair_layout pairState_layouts hr Operand.below_imm rfl (by decide)
  exact ⟨is, st, s', hr, hs.runs, hz⟩

-- An object is copied as a whole.
theorem copyObject_copies (hb : m.Bytewise memory) (hl : HasLayout tags bits ty slot) (hst : st.Layouts tags bits known)
    (hw : 8 * wordSize bits ≤ w) (hr : Run ((typing fuel).copyObject dst src ty scope) st is st')
    (hd : dst.Below st.nextTemp) (ha : m.operand 0 s dst = some a) (hsrc : src.Below st.nextTemp)
    (hb' : m.operand 0 s src = some b) (hn : slot.size.toNat ≤ 2 ^ w) (hap : Ahead a b slot.size.toNat) :
    ∃ s', Performs m st st' is s s' ∧
      Stored a slot.size.toNat (fun i => memory s.world (b + .ofNat w i)) (memory s.world) (memory s'.world) := by
  obtain ⟨size, st₁, hsize, hr⟩ := run_value_bind_iff.mp hr
  obtain ⟨rfl, hst'⟩ := (hl.lays fuel).size known scope hst hsize
  have hw' : 8 * wordSize st₁.targetBits ≤ w := by
    rw [hst'.target]
    exact hw
  obtain ⟨s', he, hc⟩ := copyObjectBytes_performs hb hr hw' (hd.typeSize hsize) ha (hsrc.typeSize hsize) hb' (Int.self_le_toNat _) hn <| by
    rw [add_ofInt_zero, add_ofInt_zero]
    exact hap
  rw [add_ofInt_zero, add_ofInt_zero] at hc
  exact ⟨s', he.of_typeSize hsize, hc⟩

theorem copyObject_copies_pair : ∃ is st s', Run ((typing 5).copyObject (.imm 32) (.imm 64) (.struct "P") scopeMapEmpty)
    pairState is st ∧ (byteMachine 64 (by decide)).execs 0 is ⟨fun x => x.setWidth 8, fun _ => none⟩ = some s' ∧
      Stored 32 16 (fun i => (64 + .ofNat 64 i : BitVec 64).setWidth 8) (fun x => x.setWidth 8) s'.world := by
  obtain ⟨is, st, hr, -⟩ := exists_run_of_yields (s := pairState) (p := fun _ => true)
    (m := (typing 5).copyObject (.imm 32) (.imm 64) (.struct "P") scopeMapEmpty) (by decide +kernel)
  obtain ⟨s', hs, hc⟩ := copyObject_copies (m := byteMachine 64 (by decide)) (s := ⟨fun x => x.setWidth 8, fun _ => none⟩)
    byteMachine_bytewise pair_layout pairState_layouts (by decide) hr Operand.below_imm rfl Operand.below_imm rfl
    (by decide) (by unfold Ahead; decide +kernel)
  exact ⟨is, st, s', hr, hs.runs, hc⟩

end Types

end Hcc
