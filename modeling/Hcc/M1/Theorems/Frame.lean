import Hcc.M1.Function
import Hcc.M1.Theorems.Call

-- The frames of functions.
namespace Hcc.M1

open Machine CInteger

-- The size is that of a stack object.
structure Definition where
  temp : Int
  size : Option Int := none
deriving DecidableEq, Repr

mutual

-- The definitions of an instruction, in the order of the code.
def definitions : Instr → List Definition
  | .mk fields condInstrs trueInstrs falseInstrs _ _ _ =>
    if fields.kind = IK_ALLOCA then [⟨fields.temp, some fields.value⟩]
    else if fields.kind = IK_COND then
      allDefinitions condInstrs ++ allDefinitions trueInstrs ++ allDefinitions falseInstrs ++
        [⟨fields.temp, none⟩]
    else if instrDefTemp fields ≥ 0 then [⟨instrDefTemp fields, none⟩]
    else []

def allDefinitions : List Instr → List Definition
  | []              => []
  | instr :: instrs => definitions instr ++ allDefinitions instrs

end

def Function.definitions (fn : Function) : List Definition :=
  fn.blocks.flatMap fun block => allDefinitions block.instrs

section Allocation

variable {t : Target} {fr : Frame} {d : Definition} {ds : List Definition} {instr : Instr}
         {instrs : List Instr} {fn : Function} {loc : Loc} {temp size : Int}

def Frame.define (t : Target) (fr : Frame) (d : Definition) : Frame :=
  match d.size with
  | none      => fr.allocDef d.temp
  | some size => fr.allocObject t d.temp (IntType.int.wrap size)

theorem allocDef_of_neg (h : ¬temp ≥ 0) : fr.allocDef temp = fr :=
  dif_neg fun hc => h hc.left

-- The kinds of the other instructions exclude each other.
theorem definitions_simple (ha : fields.kind ≠ IK_ALLOCA) (hc : fields.kind ≠ IK_COND) :
    (definitions (.mk fields cs ts fs co top fop)).foldl (Frame.define t) fr =
      if instrDefTemp fields ≥ 0 then fr.allocDef (instrDefTemp fields) else fr := by
  rw [definitions, if_neg ha, if_neg hc]
  split <;> rfl

mutual

theorem allocInstr_eq : ∀ (fr : Frame) (instr : Instr),
    Frame.allocInstr t fr instr = (definitions instr).foldl (Frame.define t) fr
  | fr, .mk fields condInstrs trueInstrs falseInstrs _ _ _ => by
    rw [Frame.allocInstr]
    split_ifs with ha hd hr hn hc
    case pos => simp [definitions, ha, Frame.define]
    case pos =>
      have hk : fields.kind ≠ IK_COND := fun he => by simp [he, IK_COND] at hd
      rw [definitions_simple ha hk, instrDefTemp, if_pos hd]
      split
      case isTrue => rfl
      case isFalse h => exact allocDef_of_neg h
    case pos =>
      have hk : fields.kind ≠ IK_COND := fun he => by simp [he, IK_COND, IK_CALL, IK_CALLI] at hr
      rw [definitions_simple ha hk, instrDefTemp, if_neg hd, if_pos hr, if_pos hn]
    case neg =>
      have hk : fields.kind ≠ IK_COND := fun he => by simp [he, IK_COND, IK_CALL, IK_CALLI] at hr
      rw [definitions_simple ha hk, instrDefTemp, if_neg hd, if_pos hr, if_neg hn]
    case pos =>
      simp only [definitions, if_neg ha, if_pos hc, List.foldl_append, ←allocInstrs_eq]
      rfl
    case neg => rw [definitions_simple ha hc, instrDefTemp, if_neg hd, if_neg hr, if_neg (by decide)]

theorem allocInstrs_eq : ∀ (fr : Frame) (instrs : List Instr),
    Frame.allocInstrs t fr instrs = (allDefinitions instrs).foldl (Frame.define t) fr
  | _,  []              => rfl
  | fr, instr :: instrs => by
    rw [Frame.allocInstrs, allDefinitions, List.foldl_append, allocInstr_eq, allocInstrs_eq]

end

theorem allocFunction_eq : Frame.allocFunction t fn = fn.definitions.foldl (Frame.define t) .empty := by
  simp only [Frame.allocFunction, Function.definitions, List.foldl_flatMap, allocInstrs_eq]

-- The location of a temp is one for its definition.
def Loc.Suits (t : Target) (loc : Loc) (d : Definition) : Prop :=
  match d.size with
  | none      => loc.slots = 1
  | some size => size < 2 ^ 31 → size ≤ loc.slots * t.wordBytes

theorem le_objectSlots : size ≤ Frame.objectSlots t size * t.wordBytes := by
  have h := le_max_left size 1
  cases t
  all_goals
    simp only [Frame.objectSlots, Target.wordBytes]
    omega

theorem suits_object (h : slots = Frame.objectSlots t (IntType.int.wrap size)) :
    Loc.Suits t ⟨.object, slot, slots⟩ ⟨temp, some size⟩ := by
  intro hs
  have hp : 0 < Frame.objectSlots t (IntType.int.wrap size) := Frame.objectSlots_pos t
  have hw := wordBytes_pos (t := t)
  cases Int.lt_or_le size 0
  case inl hn => exact Int.le_of_lt <| Int.lt_trans hn <| Int.mul_pos (h ▸ hp) hw
  case inr hn =>
    rw [h, int_wrap_eq_self hn hs]
    exact le_objectSlots

-- A definition either adds a location for its temp or changes nothing.
theorem define_cases (t : Target) (fr : Frame) (d : Definition) :
    (∃ kind slots ht hs, fr.locs d.temp = none ∧ fr.define t d = fr.insert kind d.temp slots ht hs ∧
      Loc.Suits t ⟨kind, fr.totalSlots, slots⟩ d) ∨
    ¬(0 ≤ d.temp ∧ fr.locs d.temp = none) ∧ fr.define t d = fr := by
  have ⟨temp, size⟩ := d
  by_cases h : 0 ≤ temp ∧ fr.locs temp = none
  case neg =>
    refine .inr ⟨h, ?_⟩
    cases size
    case none => exact dif_neg h
    case some => exact dif_neg h
  case pos =>
    refine .inl ?_
    cases size
    case none => exact ⟨_, _, h.left, Int.one_pos, h.right, dif_pos h, rfl⟩
    case some size => exact ⟨_, _, h.left, Frame.objectSlots_pos t, h.right, dif_pos h, suits_object rfl⟩

theorem define_locs_of_some (h : fr.locs temp = some loc) : (fr.define t d).locs temp = some loc := by
  rcases define_cases t fr d with ⟨_, _, _, _, hn, he, _⟩ | ⟨_, he⟩
  case inr => rwa [he]
  case inl =>
    have ht : temp ≠ d.temp := by
      rintro rfl
      exact absurd (hn.symm.trans h) nofun
    rw [he]
    exact (Function.update_of_ne ht ..).trans h

theorem define_locs_of_ne (h : temp ≠ d.temp) : (fr.define t d).locs temp = fr.locs temp := by
  rcases define_cases t fr d with ⟨_, _, _, _, _, he, _⟩ | ⟨_, he⟩
  case inr => rw [he]
  case inl =>
    rw [he]
    exact Function.update_of_ne h ..

theorem define_locs (hn : fr.locs d.temp = none) (ht : 0 ≤ d.temp) :
    ∃ loc, (fr.define t d).locs d.temp = some loc ∧ loc.Suits t d := by
  rcases define_cases t fr d with ⟨_, _, _, _, _, he, hs⟩ | ⟨hc, _⟩
  case inr => exact absurd ⟨ht, hn⟩ hc
  case inl =>
    rw [he]
    exact ⟨_, Function.update_self .., hs⟩

theorem foldl_define_of_some (h : fr.locs temp = some loc) :
    (ds.foldl (Frame.define t) fr).locs temp = some loc := by
  induction ds generalizing fr
  case nil => exact h
  case cons d ds ih => exact ih <| define_locs_of_some h

-- The first definition of a temp determines its location.
theorem foldl_define (hn : fr.locs temp = none) (ht : 0 ≤ temp)
    (h : ds.find? (·.temp = temp) = some d) :
    ∃ loc, (ds.foldl (Frame.define t) fr).locs temp = some loc ∧ loc.Suits t d := by
  induction ds generalizing fr
  case nil => contradiction
  case cons d' ds ih =>
    by_cases hd : d'.temp = temp
    case pos =>
      rw [List.find?_cons_of_pos (by simpa using hd)] at h
      cases Option.some.inj h
      have ⟨loc, hl, hs⟩ : ∃ loc, (fr.define t d).locs d.temp = _ ∧ Loc.Suits t _ _ :=
        define_locs (hd ▸ hn) (hd ▸ ht)
      subst hd
      rw [List.foldl_cons]
      exact ⟨loc, foldl_define_of_some hl, hs⟩
    case neg =>
      rw [List.find?_cons_of_neg (by simpa using hd)] at h
      exact ih ((define_locs_of_ne <| Ne.symm hd).trans hn) h

theorem find_definition (h : d ∈ ds) : ∃ d', ds.find? (·.temp = d.temp) = some d' ∧ d'.temp = d.temp := by
  have hs : (ds.find? (·.temp = d.temp)).isSome := List.find?_isSome.mpr ⟨d, h, by simp⟩
  have ⟨d', hf⟩ := Option.isSome_iff_exists.mp hs
  exact ⟨d', hf, by simpa using List.find?_some hf⟩

end Allocation
section Return

variable {t : Target} {fr : Frame} {m m₀ : Machine t} {labels : String → Word t} {state state' : EmitState}
         {op : Operand} {code : List Insn} {address : Word t} {argc : Nat}

-- `TK_RET`
def emitTerminatorRet (t : Target) (locs : LocArray) (totalSlots : Int) (op : Operand)
    (state : EmitState) : Emitted := do
  let (load, state) ←
    if op.kind = 0 then pure (emitLoadImmediate t 0, emitForgetRax state)
    else emitLoadOperand t locs 0 op state
  return (load ++ emitReturn t totalSlots, emitForgetRax state)

theorem exists_holds : ∃ v, Holds m base loc v := by
  unfold Holds
  split
  case h_1 => exact ⟨_, rfl⟩
  case h_2 => exact ⟨_, rfl⟩

-- Some value is loaded, which is all that matters for the stack pointer.
theorem get_sp_loadOperand (hf : Fits t fr argc) (hv : op.Valid)
    (h : emitLoadOperand t fr.locs 0 op state = .ok (code, state')) :
    (m.run labels code).get t.sp = m.get t.sp := by
  by_cases hk : op.kind = OP_TEMP
  case neg =>
    obtain ⟨hl, _⟩ : Loads labels m _ (operandValue _ (fun _ => 0) _) ∧ _ := emitLoadOperand_other hv hk h
    exact hl.keeps.regs _ not_scratch_sp
  case pos =>
    obtain ⟨loc, hl, h⟩ := emitLoadOperand_temp hk h
    split at h
    case isTrue => rw [h.left, run_nil]
    case isFalse =>
      obtain ⟨h₁, h₂, h₃⟩ := fr.bounds hl
      have hb := hf.mono (Nat.cast_nonneg _)
      have hp := wordBytes_pos (t := t)
      obtain ⟨v, hh⟩ : ∃ v, Holds m (m.get t.sp) loc v := exists_holds
      have hld : Loads labels m _ _ := loads_loadLocation (j := 0) (by simp) (Int.le_refl _) h₁ (by nlinarith) hh
      rw [h.left]
      rw [Int.mul_zero] at hld
      exact hld.keeps.regs _ not_scratch_sp

theorem get_sp_prologue (hf : Fits t fr argc) :
    ((m.enter address).run labels (emitPrologue t fr.totalSlots)).get t.sp =
      wordAddress (m.get t.sp) (-(fr.totalSlots + 1)) := by
  have ⟨m₁, x, hm, _⟩ : ∃ m₁ x, (m.enter address).run labels (emitLink t) = _ ∧
    (Passed labels (fun _ => 0) 0 [] m → _) := run_link
  have hi : -1 + -fr.totalSlots = -(fr.totalSlots + 1) := by omega
  rw [emitPrologue_eq, run_append, hm, run_frame hf, get_set writable_sp, get_set writable_sp,
    wordAddress_add, hi]

theorem get_sp_terminatorRet (hf : Fits t fr argc) (hv : op.kind = 0 ∨ op.Valid)
    (h : emitTerminatorRet t fr.locs fr.totalSlots op state = .ok (code, state')) :
    (m.run labels code).get t.sp = wordAddress (m.get t.sp) (fr.totalSlots + 1) := by
  simp only [emitTerminatorRet] at h
  split at h
  case isTrue =>
    cases Except.ok.inj h
    have hl : Loads labels m (emitLoadImmediate t 0) _ := loads_immediate
    rw [run_append, run_return hf, hl.keeps.regs _ not_scratch_sp]
  case isFalse hk =>
    have ⟨⟨load, state₁⟩, hl, h⟩ := Except.bind_eq_ok.mp h
    cases Except.ok.inj h
    rw [run_append, run_return hf, get_sp_loadOperand hf (hv.resolve_left hk) hl]

end Return

-- An alloca that defines a temp for the first time reserves the bytes of its object.
theorem allocFunction_frame (t : Target) (fn : Function)
    (hf : (Frame.allocFunction t fn).totalSlots * t.wordBytes < 2 ^ 31) :
    let fr := Frame.allocFunction t fn
    (∀ d ∈ fn.definitions, 0 ≤ d.temp → ∃ loc first,
      fr.locs d.temp = some loc ∧
      0 ≤ loc.slot ∧ 0 < loc.slots ∧ loc.slot + loc.slots ≤ fr.totalSlots ∧
      fn.definitions.find? (·.temp = d.temp) = some first ∧
      match first.size with
      | none      => loc.slots = 1
      | some size => size < 2 ^ 31 → size ≤ loc.slots * t.wordBytes) ∧
    (∀ temp temp' loc loc', fr.locs temp = some loc → fr.locs temp' = some loc' → temp ≠ temp' →
      loc.slot + loc.slots ≤ loc'.slot ∨ loc'.slot + loc'.slots ≤ loc.slot) ∧
    ∀ (labels : String → Word t) (m m' : Machine t) (address : Word t) (op : Operand)
      (state state' : EmitState) (code : List Insn), op.kind = 0 ∨ op.Valid →
      emitTerminatorRet t fr.locs fr.totalSlots op state = .ok (code, state') →
      ((m.enter address).run labels (emitPrologue t fr.totalSlots)).get t.sp =
          m.get t.sp - .ofInt _ (t.wordBytes * (fr.totalSlots + 1)) ∧
        (m'.run labels code).get t.sp =
          m'.get t.sp + .ofInt _ (t.wordBytes * (fr.totalSlots + 1)) := by
  have hf' : Fits t (Frame.allocFunction t fn) 0 := by
    rw [Int.mul_comm] at hf
    simpa [Fits] using hf
  refine ⟨?locations, ?apart, ?sizes⟩
  case locations =>
    intro d hd ht
    obtain ⟨first, hfind, he⟩ := find_definition hd
    obtain ⟨loc, hl, hs⟩ : ∃ loc, (fn.definitions.foldl (Frame.define t) .empty).locs d.temp = some loc ∧
        loc.Suits t first := foldl_define rfl ht hfind
    rw [←allocFunction_eq] at hl
    obtain ⟨h₁, h₂, h₃⟩ := Frame.bounds _ hl
    exact ⟨loc, first, hl, h₁, h₂, h₃, hfind, hs⟩
  case apart => exact fun _ _ _ _ h h' hn => Frame.apart _ h h' hn
  case sizes =>
    intro labels m m' address op state state' code hv h
    refine ⟨?_, get_sp_terminatorRet hf' hv h⟩
    rw [get_sp_prologue hf', wordAddress, Int.mul_neg, BitVec.ofInt_neg, BitVec.sub_eq_add_neg]

def allocaInstr (temp size : Int) : Instr :=
  .mk { kind := IK_ALLOCA, temp, value := size } [] [] [] {} {} {}

def allocasFunction (allocas : List Instr) : Function where
  name   := "f"
  blocks := [{ instrs := allocas, termKind := TK_RET }]

def twoAllocas : Function :=
  allocasFunction [allocaInstr 0 1, allocaInstr 0 16]

theorem allocFunction_frame_allocas :
    (∃ loc first, (Frame.allocFunction .amd64 twoAllocas).locs 0 = some loc ∧
      twoAllocas.definitions.find? (·.temp = 0) = some first ∧
      match first.size with
      | none      => loc.slots = 1
      | some size => size < 2 ^ 31 → size ≤ loc.slots * 8) ∧
    ∀ (labels : String → Word .amd64) (m : Machine .amd64) (address : Word .amd64),
      ((m.enter address).run labels (emitPrologue .amd64 1)).get 4 = m.get 4 - .ofInt 64 16 ∧
        (m.run labels (.const 0 0 :: emitReturn .amd64 1)).get 4 = m.get 4 + .ofInt 64 16 := by
  have ⟨h, _, hr⟩ := allocFunction_frame .amd64 twoAllocas (by decide)
  have ⟨loc, first, hl, _, _, _, hf, hs⟩ := h ⟨0, some 1⟩ (by decide) (by decide)
  exact ⟨⟨loc, first, hl, hf, hs⟩,
    fun labels m address => hr labels m m address {} {} _ _ (.inl rfl) rfl⟩

-- The second alloca does not get the bytes that it asks for.
theorem not_allocFunction_covers :
    ¬∀ (t : Target) (fn : Function), (Frame.allocFunction t fn).totalSlots * t.wordBytes < 2 ^ 31 →
      ∀ d ∈ fn.definitions, 0 ≤ d.temp → ∃ loc, (Frame.allocFunction t fn).locs d.temp = some loc ∧
        ∀ size, d.size = some size → size ≤ loc.slots * t.wordBytes := by
  intro h
  have ⟨loc, hl, hs⟩ := h .amd64 twoAllocas (by decide) ⟨0, some 16⟩ (by decide) (by decide)
  cases Option.some.inj <| hl.symm.trans
    (show (Frame.allocFunction .amd64 twoAllocas).locs 0 = some ⟨.object, 0, 1⟩ by decide)
  exact absurd (hs 16 rfl) (by decide)

end Hcc.M1
