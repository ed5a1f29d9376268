import Hcc.M1.Theorems.Function

open CInteger Fields Fueled

namespace Hcc.M1

section Data

def DataValueNamed : Hcc.DataValue → Prop
  | .byte _        => True
  | .address label => label ≠ ""

-- The values that are read for the text of a list of values, where numbers are converted by `int`.
def readDataValues (int : Int → Int) : List Hcc.DataValue → List DataValue
  | []              => []
  | .byte 0 :: rest =>
    List.replicate (int ((zeroRun rest).1 + 1)).toNat zeroDataValue ++
      readDataValues int (zeroRun rest).2
  | value :: rest   => encodeDataValue int value :: readDataValues int rest
termination_by values => values.length
decreasing_by
  · exact Nat.lt_succ_of_le (zeroRun_length rest)
  · simp

theorem zeroRun_append (values) :
    List.replicate (zeroRun values).1 (.byte 0) ++ (zeroRun values).2 = values := by
  fun_induction zeroRun <;> simp_all [List.replicate_succ]

theorem forall_zeroRun {p : Hcc.DataValue → Prop} (h : p (.byte 0)) :
    (∀ value ∈ (zeroRun values).2, p value) ↔ ∀ value ∈ values, p value := by
  conv_rhs => rw [←zeroRun_append values]
  simp only [List.mem_append, List.mem_replicate, or_imp, forall_and]
  exact ⟨fun hv => ⟨fun _ hv => hv.right ▸ h, hv⟩, And.right⟩

theorem zeroRunLengths_cons (h : value ≠ .byte 0) :
    zeroRunLengths (value :: rest) = zeroRunLengths rest := by
  rw [zeroRunLengths]
  simpa using h

def RunsReadable (values : List Hcc.DataValue) : Prop :=
  ∀ run ∈ zeroRunLengths values, 0 ≤ IntType.int.wrap run

def DataReadable (values : List Hcc.DataValue) : Prop :=
  (∀ value ∈ values, DataValueNamed value) ∧ RunsReadable values

theorem parseIrDataValue_zeros : Accepts (parseIrDataValue (Line [['z'], digits n]))
    (0 ≤ IntType.int.wrap n) (List.replicate (IntType.int.wrap n).toNat zeroDataValue) := by
  have hz : IsField isBlank ['z'] := ⟨nofun, by simp [isBlank]⟩
  simp only [parseIrDataValue, needToken_line hz, ok_bind, if_true, parseIntToken_line, pure_eq_ok]
  constructor
  · intro hn
    rw [if_neg (not_lt.mpr hn)]
  · intro hn
    rw [if_pos (not_le.mp hn)]
    exact ⟨_, rfl⟩

def dataValueFields : Hcc.DataValue → List (List Char)
  | .byte value    => [['b'], digits value]
  | .address label => [['a'], label.toList]

theorem toList_dataValueIrLine (value) :
    (dataValueIrLine value).toList = Line (dataValueFields value) := by
  cases value <;> simp [dataValueIrLine, dataValueFields, Line, join, digits]

theorem clear_char {c : Char} (h : isSpaceChar c = false ∧ c ≠ '\x00') : Clear [c] := by
  simpa [Clear] using h

theorem dataValueFields_clear (hs : ∀ name ∈ dataValueNames value, Solid name) :
    ∀ tok ∈ dataValueFields value, Clear tok := by
  cases value
  case byte         => simpa [dataValueFields, digits_clear] using clear_char (by decide)
  case address name => simpa [dataValueFields] using ⟨clear_char (by decide), hs name (.head _)⟩

theorem parseIrDataValue_line (hs : ∀ name ∈ dataValueNames value, Solid name) :
    Accepts (parseIrDataValue (Line (dataValueFields value))) (DataValueNamed value)
      [encodeDataValue IntType.int.wrap value] := by
  cases value
  case byte value =>
    have hb : IsField isBlank ['b'] := ⟨by simp, by simp [isBlank]⟩
    refine .of_ok ?_
    simp only [dataValueFields, parseIrDataValue, needToken_line hb, ok_bind]
    rw [if_neg (by decide), if_pos trivial]
    simp only [parseIntToken_line, ok_bind, pure_eq_ok]
    rfl
  case address name =>
    have ha : IsField isBlank ['a'] := ⟨by simp, by simp [isBlank]⟩
    simp only [dataValueFields, parseIrDataValue, needToken_line ha, ok_bind]
    rw [if_neg (by decide), if_neg (by decide), if_pos trivial]
    exact (needName_line <| hs name (.head _)).map fun r =>
      [({ kind := 2, label := r.1 } : DataValue)]

-- A line of a data item that is read as the given values.
theorem parseIrDataItem.values_step {line : String} (ht : line.toList = Line toks)
    (hc : ∀ tok ∈ toks, Clear tok) (hl : line.length < LINE_CAP) (hn : ¬Line toks = ['E'])
    (hp : Accepts (parseIrDataValue (Line toks)) p vs)
    (hi : Decides (fun n => parseIrDataItem.values n (irText lines)) q (vs', irText ls)) :
    Decides (fun n => parseIrDataItem.values n (irText (line :: lines))) (p ∧ q)
      (vs ++ vs', irText ls) := by
  have hr := readLine_line lines <| .of_fields ht hc hl
  refine .of_succ ?_
  simp only [values, hr, liftM_eq_done, done_ok_bind, ht, if_neg hn]
  exact hp.decides.bind hi.map

theorem readDataValues_cons {int : Int → Int} (h : value ≠ .byte 0) :
    readDataValues int (value :: rest) = encodeDataValue int value :: readDataValues int rest := by
  rw [readDataValues]
  simpa using h

theorem dataReadable_zero : DataReadable (.byte 0 :: rest) ↔
    0 ≤ IntType.int.wrap ((zeroRun rest).1 + 1) ∧ DataReadable (zeroRun rest).2 := by
  have hz : DataValueNamed (.byte 0) := trivial
  simp only [DataReadable, RunsReadable, zeroRunLengths, List.mem_cons, forall_eq_or_imp, hz,
    true_and, forall_zeroRun hz, Nat.cast_add, Nat.cast_one]
  exact and_left_comm

theorem dataReadable_cons (h : value ≠ .byte 0) : DataReadable (value :: rest) ↔
    DataValueNamed value ∧ DataReadable rest := by
  simp only [DataReadable, RunsReadable, zeroRunLengths_cons h, List.mem_cons, forall_eq_or_imp,
    and_assoc]

theorem parseIrDataItem.values_text (vs)
    (hs : ∀ value ∈ vs, ∀ name ∈ dataValueNames value, Solid name)
    (hl : ∀ line ∈ emitDataValuesIr vs, line.length < LINE_CAP) (ls) :
    Decides (fun n => parseIrDataItem.values n (irText (emitDataValuesIr vs ++ "E" :: ls)))
      (DataReadable vs) (readDataValues IntType.int.wrap vs, irText ls) := by
  fun_induction emitDataValuesIr vs
  case case1 =>
    have hr := readLine_line ls <| legible_mark "E" (by simp)
    refine .of_succ ?_
    simp only [List.nil_append, values, hr, liftM_eq_done, done_ok_bind, readDataValues]
    exact Decides.ok.congr (by simp [DataReadable, RunsReadable, zeroRunLengths])
  case case2 rest hi =>
    simp only [List.mem_cons, forall_eq_or_imp] at hs hl
    have hs' := (forall_zeroRun (p := fun value => ∀ name ∈ dataValueNames value, Solid name) hs.left).mpr hs.right
    have ht : ("z " ++ toString ((zeroRun rest).1 + 1 : Int)).toList =
        Line [['z'], digits ((zeroRun rest).1 + 1)] := by simp [Line, join, digits]
    have hc : ∀ tok ∈ [['z'], digits ((zeroRun rest).1 + 1)], Clear tok := by
      simpa [digits_clear] using clear_char (by decide)
    have hv := values_step ht hc hl.left (by simp [Line, join]) parseIrDataValue_zeros (hi hs' hl.right)
    rw [readDataValues]
    exact hv.congr dataReadable_zero.symm
  case case3 value rest hn hi =>
    simp only [List.mem_cons, forall_eq_or_imp] at hs hl
    have hz : value ≠ .byte 0 := by simpa using hn
    have he : ¬Line (dataValueFields value) = ['E'] := by cases value <;> simp [dataValueFields, join]
    have hv := values_step (toList_dataValueIrLine value) (dataValueFields_clear hs.left) hl.left he
      (parseIrDataValue_line hs.left) (hi hs.right hl.right)
    rw [readDataValues_cons hz]
    exact hv.congr (dataReadable_cons hz).symm

theorem readsDataItem (item) (hs : ∀ name ∈ itemNames (.data item), Solid name)
    (hl : ∀ line ∈ emitDataItemIr item, line.length < LINE_CAP) :
    Reads parseIrDataItem (['D', ' '].isPrefixOf ·) (emitDataItemIr item)
      (item.label ≠ "" ∧ DataReadable item.values)
      { label := item.label, values := readDataValues IntType.int.wrap item.values } := by
  simp only [emitDataItemIr, List.mem_append, or_imp, forall_and, List.mem_singleton, forall_eq] at hl
  simp only [itemNames, List.mem_cons, forall_eq_or_imp, List.mem_flatMap, forall_exists_index,
    and_imp] at hs
  have ht : ("D " ++ item.label).toList = Line [['D'], item.label.toList] := by simp [Line, join]
  have hc : Clear ['D'] := clear_char (by decide)
  have hf : ∀ tok ∈ [['D'], item.label.toList], Clear tok := by simpa using ⟨hc, hs.left⟩
  refine ⟨_, emitDataValuesIr item.values ++ ["E"], rfl, .of_fields ht hf hl.left.left, by simp,
    fun ls => ?_⟩
  have hv := parseIrDataItem.values_text item.values (fun v hv n hn => hs.right n v hv hn) hl.left.right ls
  simp only [ht, parseIrDataItem, needToken_line <| hc.isField nofun, liftM_eq_done, done_ok_bind,
    ne_eq, not_true, if_false, List.append_assoc, List.singleton_append]
  exact (needName_line hs.left).decides.bind hv.map

end Data

section Module

def ItemReadable : TopItemIr → Prop
  | .data item   => item.label ≠ "" ∧ DataReadable item.values
  | .function fn => fn.name ≠ "" ∧ ∀ block ∈ fn.blocks, BlockReadable block

-- The item that is read for the text of an item.
def readItem : TopItemIr → Item
  | .data item   => .data { label := item.label, values := readDataValues IntType.int.wrap item.values }
  | .function fn => .function (encodeFunction IntType.int.wrap long.wrap fn)

theorem translateIrModule_text (items) (hs : ∀ item ∈ items, ∀ name ∈ itemNames item, Solid name)
    (hl : ∀ line ∈ emitTopItemsIr items, line.length < LINE_CAP) :
    Decides (fun n => translateIrModule n (irText (emitTopItemsIr items)))
      (∀ item ∈ items, ItemReadable item) (items.map readItem) := by
  induction items
  case nil =>
    refine .of_succ ?_
    simp only [emitTopItemsIr, List.flatMap_nil, translateIrModule, irText, readLine_nil,
      liftM_eq_done, done_ok_bind]
    exact Decides.ok.congr (by simp)
  case cons item items hi =>
    simp only [emitTopItemsIr, List.flatMap_cons, List.mem_append, List.mem_cons, or_imp, forall_and,
      forall_eq] at hs hl
    have hi := hi hs.right hl.right
    refine .of_succ ?_
    cases item
    case data item =>
      obtain ⟨line, lines, he, hr, hm, hd⟩ := readsDataItem item hs.left hl.left
      have hr := readLine_line (lines ++ emitTopItemsIr items) hr
      simp only [emitTopItemsIr, List.flatMap_cons, emitTopItemIr, he, List.cons_append] at hr hd hi ⊢
      simp only [translateIrModule, hr, liftM_eq_done, done_ok_bind, hm, if_true]
      exact ((hd _).bind hi.map).congr (by simp [ItemReadable])
    case function fn =>
      obtain ⟨line, lines, he, hr, hm, hd⟩ := readsFunction fn hs.left hl.left
      have hn : ¬['D', ' '].isPrefixOf line.toList := by
        obtain ⟨cs, hc⟩ := List.isPrefixOf_iff_prefix.mp hm
        simp [←hc, List.isPrefixOf]
      have hr := readLine_line (lines ++ emitTopItemsIr items) hr
      simp only [emitTopItemsIr, List.flatMap_cons, emitTopItemIr, he, List.cons_append] at hr hd hi ⊢
      simp only [translateIrModule, hr, liftM_eq_done, done_ok_bind, hm, if_true, if_neg hn]
      exact ((hd _).bind hi.map).congr (by simp [ItemReadable])

end Module

section Fits

variable {op : Hcc.Operand}

theorem map_inj_iff {f g : α → β} {p : α → Prop} (h : ∀ a, f a = g a ↔ p a) (as : List α) :
    as.map f = as.map g ↔ ∀ a ∈ as, p a := by
  simp only [List.map_inj_left, h]

-- The representation in fields of the given types equals the representation in unbounded fields.
theorem encodeOperand_wrap_iff (op) :
    encodeOperand IntType.int.wrap long.wrap op = encodeOperand id id op ↔ OperandFits op := by
  cases op
  case immBytes bytes =>
    have h := map_inj_iff (g := id) (@wrap_int_iff) bytes
    simpa [encodeOperand, OperandFits] using h
  all_goals simp [encodeOperand, OperandFits, wrap_long_iff]

theorem encodeResult_wrap_iff :
    encodeResult IntType.int.wrap result = encodeResult id result ↔ ∀ t ∈ result, FitsInt t.index := by
  cases result <;> simp [encodeResult, wrap_int_iff]

theorem encodeFields_wrap_iff (hc : ¬IsCond instr) (hn : InstrNamed instr) :
    encodeFields IntType.int.wrap long.wrap instr = encodeFields id id instr ↔ InstrFits instr := by
  have ho := @encodeOperand_wrap_iff
  have hr := @encodeResult_wrap_iff
  cases instr
  case cond => exact absurd trivial hc
  case call => simp_all [encodeFields, InstrFits, InstrNamed, List.map_inj_left]
  case callIndirect =>
    simp only [encodeFields, InstrFits, Fields.mk.injEq, List.map_inj_left, ho, hr, true_and, and_true]
    exact and_left_comm
  all_goals
    simp [encodeFields, encodeTempValue, encodeTempOp, encodeOpOp, encodeExt, InstrFits, ho,
      wrap_int_iff, wrap_long_iff]

mutual

theorem encodeInstr_wrap_iff (instr) (hn : InstrNamed instr) :
    encodeInstr IntType.int.wrap long.wrap instr = encodeInstr id id instr ↔ InstrFits instr := by
  by_cases hc : IsCond instr
  case neg => simp [encodeInstr_eq hc, encodeFields_wrap_iff hc hn]
  case pos =>
    cases instr
    case cond t condInstrs condOp trueInstrs trueOp falseInstrs falseOp =>
      have ⟨hnc, hnt, hnf⟩ := hn
      have hc := encodeInstrs_wrap_iff condInstrs hnc
      have ht := encodeInstrs_wrap_iff trueInstrs hnt
      have hf := encodeInstrs_wrap_iff falseInstrs hnf
      simp [encodeInstr, InstrFits, wrap_int_iff, hc, ht, hf, encodeOperand_wrap_iff]
      tauto
    all_goals exact hc.elim

theorem encodeInstrs_wrap_iff (instrs) (hn : InstrsNamed instrs) :
    encodeInstrs IntType.int.wrap long.wrap instrs = encodeInstrs id id instrs ↔ InstrsFit instrs := by
  match instrs with
  | []              => simp [encodeInstrs, InstrsFit]
  | instr :: instrs =>
    simp only [encodeInstrs, InstrsFit, List.cons.injEq, encodeInstr_wrap_iff instr hn.left,
      encodeInstrs_wrap_iff instrs hn.right]

end

mutual

theorem instrNamed_of_fits {instr} (h : InstrFits instr) : InstrNamed instr := by
  match instr with
  | .call .. => exact h.left
  | .cond .. =>
    have ⟨_, hc, _, ht, _, hf, _⟩ := h
    exact ⟨instrsNamed_of_fit hc, instrsNamed_of_fit ht, instrsNamed_of_fit hf⟩
  | .param .. | .alloca .. | .const .. | .copy .. | .addrOf .. | .load64 .. | .load32 .. | .loadS32 ..
  | .load16 .. | .loadS16 .. | .load8 .. | .loadS8 .. | .store64 .. | .store32 .. | .store16 ..
  | .store8 .. | .sext .. | .zext .. | .trunc .. | .bin .. | .callIndirect .. => trivial

theorem instrsNamed_of_fit {instrs} (h : InstrsFit instrs) : InstrsNamed instrs := by
  match instrs with
  | []     => trivial
  | _ :: _ => exact ⟨instrNamed_of_fits h.left, instrsNamed_of_fit h.right⟩

end

theorem encodeBlock_wrap_iff (block) (hn : BlockReadable block) :
    encodeBlock IntType.int.wrap long.wrap block = encodeBlock id id block ↔
      FitsInt block.id.index ∧ InstrsFit block.instrs ∧ TermFits block.term := by
  have hi := encodeInstrs_wrap_iff block.instrs hn.left
  rcases block with ⟨bid, instrs, term⟩
  cases term
  case ret value =>
    cases value <;> simp [encodeBlock, encodeTerm, TermFits, encodeOperand_wrap_iff, wrap_int_iff, hi]
  all_goals simp [encodeBlock, encodeTerm, TermFits, encodeOperand_wrap_iff, wrap_int_iff, hi]

theorem toNat_wrap_le (n : Nat) : (IntType.int.wrap n).toNat ≤ n := by
  by_cases h : FitsInt n
  case pos => simp [wrap_int_iff.mpr h]
  case neg =>
    have hf : FitsInt (IntType.int.wrap n) := wrap_int_iff.mp IntType.wrap_wrap
    simp only [FitsInt] at h hf
    omega

theorem toNat_wrap_eq_iff {n : Nat} (h : 0 < n) : n ≤ (IntType.int.wrap n).toNat ↔ FitsInt n := by
  constructor
  · intro hn
    have hf : FitsInt (IntType.int.wrap n) := wrap_int_iff.mp IntType.wrap_wrap
    simp only [FitsInt] at hf ⊢
    omega
  · intro hf
    simp [wrap_int_iff.mpr hf]

theorem map_zeroRun (f : Hcc.DataValue → DataValue) (vs) :
    vs.map f = List.replicate (zeroRun vs).1 (f (.byte 0)) ++ (zeroRun vs).2.map f := by
  conv_lhs => rw [←zeroRun_append vs]
  rw [List.map_append, List.map_replicate]

theorem length_zeroRun (vs) : vs.length = (zeroRun vs).1 + (zeroRun vs).2.length := by
  conv_lhs => rw [←zeroRun_append vs]
  rw [List.length_append, List.length_replicate]

theorem length_readDataValues_le (vs) : (readDataValues IntType.int.wrap vs).length ≤ vs.length := by
  fun_induction readDataValues
  case case1 => simp
  case case2 rest hi =>
    have hw := toNat_wrap_le ((zeroRun rest).1 + 1)
    have hl := length_zeroRun rest
    simp only [List.length_append, List.length_replicate, List.length_cons] at *
    push_cast at hw
    omega
  case case3 hi => simpa using hi

theorem readDataValues_wrap_iff (vs) (hn : DataReadable vs) :
    readDataValues IntType.int.wrap vs = vs.map (encodeDataValue id) ↔
      (∀ value ∈ vs, DataValueFits value) ∧ ∀ run ∈ zeroRunLengths vs, FitsInt run := by
  fun_induction readDataValues
  case case1 => simp [zeroRunLengths]
  case case2 rest hi =>
    have hi := hi (dataReadable_zero.mp hn).right
    have hm : (.byte 0 :: rest).map (encodeDataValue id) =
        List.replicate ((zeroRun rest).1 + 1) zeroDataValue ++ (zeroRun rest).2.map (encodeDataValue id) := by
      rw [List.map_cons, map_zeroRun, List.replicate_succ]
      rfl
    have hk : ((zeroRun rest).1 + 1 : Int) = ((zeroRun rest).1 + 1 : Nat) := by simp
    have hv : (∀ value ∈ Hcc.DataValue.byte 0 :: rest, DataValueFits value) ↔
        ∀ value ∈ (zeroRun rest).2, DataValueFits value := by
      have hz : DataValueFits (.byte 0) := by simp [DataValueFits, FitsInt]
      rw [List.forall_mem_cons, forall_zeroRun hz, and_iff_right hz]
    rw [hm, hk, zeroRunLengths, hv, List.forall_mem_cons]
    by_cases hf : FitsInt ((zeroRun rest).1 + 1 : Nat)
    case pos =>
      rw [wrap_int_iff.mpr hf, Int.toNat_natCast, List.append_cancel_left_eq, hi, and_iff_right hf]
    case neg =>
      refine iff_of_false (fun he => ?_) fun h => hf h.right.left
      have hl := congrArg List.length he
      have hr := length_readDataValues_le (zeroRun rest).2
      have hw := (toNat_wrap_eq_iff (n := (zeroRun rest).1 + 1) <| Nat.succ_pos _).not.mpr hf
      simp only [List.length_append, List.length_replicate, List.length_map] at hl
      omega
  case case3 value rest hv hi =>
    have hz : value ≠ .byte 0 := by simpa using hv
    have ⟨hnv, hnr⟩ := (dataReadable_cons hz).mp hn
    have hf : encodeDataValue IntType.int.wrap value = encodeDataValue id value ↔ DataValueFits value := by
      cases value
      case byte => simp [encodeDataValue, DataValueFits, wrap_int_iff]
      case address => simpa [encodeDataValue, DataValueFits, DataValueNamed] using hnv
    simp only [List.map_cons, List.cons.injEq, hf, hi hnr, zeroRunLengths_cons hz, List.mem_cons,
      forall_eq_or_imp, and_assoc]

theorem readItem_eq_iff (item) :
    ItemReadable item ∧ readItem item = encodeItem id id item ↔ Transmits item := by
  cases item
  case data item =>
    simp only [ItemReadable, readItem, encodeItem, encodeDataItem, Transmits, Item.data.injEq,
      DataItem.mk.injEq, true_and, and_assoc]
    have hn (h : (∀ value ∈ item.values, DataValueFits value) ∧
        ∀ run ∈ zeroRunLengths item.values, FitsInt run) : DataReadable item.values := by
      refine ⟨fun value hv => ?_, fun run hr => ?_⟩
      · cases value
        case byte    => trivial
        case address => exact h.left _ hv
      · simp [wrap_int_iff.mpr <| h.right run hr]
    refine and_congr_right fun _ => ⟨fun h => ?_, fun h => ?_⟩
    · exact (readDataValues_wrap_iff _ h.left).mp h.right
    · exact ⟨hn h, (readDataValues_wrap_iff _ <| hn h).mpr h⟩
  case function fn =>
    simp only [ItemReadable, readItem, encodeItem, encodeFunction, Transmits, Item.function.injEq,
      Function.mk.injEq, true_and, and_assoc, List.map_inj_left, ←forall_and]
    refine and_congr_right fun _ => forall₂_congr fun block _ => ?_
    constructor
    · rintro ⟨hr, he⟩
      obtain ⟨hi, hs, ht⟩ := (encodeBlock_wrap_iff block hr).mp he
      exact ⟨hi, hs, ht, hr.right⟩
    · rintro ⟨hi, hs, ht, hn⟩
      have hr : BlockReadable block := ⟨instrsNamed_of_fit hs, hn⟩
      exact ⟨hr, (encodeBlock_wrap_iff block hr).mpr ⟨hi, hs, ht⟩⟩

end Fits

-- A module is read back from its text exactly if each of its items can be transmitted.
theorem translateIrModule_roundTrip
    (hs : ∀ item ∈ items, ∀ name ∈ itemNames item, Solid name)
    (hl : ∀ line ∈ emitTopItemsIr items, line.length < LINE_CAP) :
    Converges (translateIrModule · <| irText <| emitTopItemsIr items) (.ok <| encode items) ↔
      ∀ item ∈ items, Transmits item := by
  simp only [(translateIrModule_text items hs hl).converges_iff, encode, List.map_inj_left,
    ←forall_and, readItem_eq_iff]

-- A module with a table and a function that branches on the result of a call.
def tableModule : List TopItemIr := [
  .data { label := "table", values := [.byte 0, .byte 0, .address "f"] },
  .function {
    name := "f",
    blocks := [
      { id := ⟨0⟩, instrs := [.call (some ⟨0⟩) "g" [.imm 1]], term := .branch (.temp ⟨0⟩) ⟨1⟩ ⟨1⟩ },
      { id := ⟨1⟩, instrs := [], term := .ret (some (.immBytes [])) }
    ]
  }
]

theorem tableModule_roundTrip :
    Converges (translateIrModule · <| irText <| emitTopItemsIr tableModule) (.ok <| encode tableModule) := by
  have he : emitTopItemsIr tableModule =
      ["D table", "z 2", "a f", "E", "F f", "L 0", "19 0 g 1 I1", "B T0 1 1", "L 1", "R B0", "E"] := by
    simp [tableModule, emitTopItemsIr, emitTopItemIr, emitDataItemIr, emitDataValuesIr, zeroRun,
      dataValueIrLine]
    decide
  refine (translateIrModule_roundTrip ?_ ?_).mpr ?_
  · decide
  · rw [he]
    decide
  · simp [tableModule, Transmits, zeroRunLengths, zeroRun, DataValueFits, InstrsFit, InstrFits, TermFits,
      OperandFits, ReturnsBytes, FitsInt, FitsLong]

-- A function that returns `0x100000000`.
def wideModule : List TopItemIr := [
  .function {
    name := "f",
    blocks := [{ id := ⟨0⟩, instrs := [], term := .ret (some (.immBytes [0, 0, 0, 0, 1, 0, 0, 0])) }]
  }
]

theorem wideModule_rejected :
    (∀ item ∈ wideModule, ∀ name ∈ itemNames item, Solid name) ∧
      (∀ line ∈ emitTopItemsIr wideModule, line.length < LINE_CAP) ∧
      ∃ e, Converges (translateIrModule · <| irText <| emitTopItemsIr wideModule) (.error e) := by
  have hs : ∀ item ∈ wideModule, ∀ name ∈ itemNames item, Solid name := by decide
  have hl : ∀ line ∈ emitTopItemsIr wideModule, line.length < LINE_CAP := by decide
  refine ⟨hs, hl, (translateIrModule_text wideModule hs hl).right fun h => ?_⟩
  have hr := h _ (.head _) |>.right _ (.head _)
  exact hr.right (by simp [ReturnsBytes])

end Hcc.M1
