import Hcc.M1.Theorems.Line
import Mathlib.Data.List.TakeWhile

open CInteger Fields Fueled
open Hcc (BinOp Temp BlockId)

namespace Hcc.M1

section Lines

theorem irText_cons : irText (line :: lines) = line.toList ++ '\n' :: irText lines := by
  simp [irText]

theorem irText_append : irText (ls₁ ++ ls₂) = irText ls₁ ++ irText ls₂ := by
  simp [irText]

theorem readLine.go_line (h : ∀ c ∈ line, c ≠ '\n' ∧ c ≠ '\r')
    (hl : buf.length + line.length < LINE_CAP) :
    go buf (line ++ '\n' :: file) = .ok (some (buf.reverse ++ line), file) := by
  induction line generalizing buf
  case nil => simp [go]
  case cons c line hi =>
    have ⟨hn, hr⟩ := h c (.head _)
    have hb : ¬ buf.length + 1 ≥ LINE_CAP := by simp at hl; omega
    rw [List.cons_append, go, if_neg hn, if_pos hr, if_neg hb,
      hi (fun c hc => h c (.tail _ hc)) (by simp at *; omega)]
    simp

-- A line that can be read.
structure Legible (line : String) : Prop where
  chars : ∀ c ∈ line.toList, c ≠ '\n' ∧ c ≠ '\r' ∧ c ≠ '\x00'
  short : line.length < LINE_CAP

theorem readLine_line (lines) (h : Legible line) :
    readLine (irText (line :: lines)) = .ok (some line.toList, irText lines) := by
  have hg := @readLine.go_line line.toList [] (irText lines)
    (fun c hc => have ⟨hn, hr, _⟩ := h.chars c hc; ⟨hn, hr⟩)
    (by simpa [String.length_toList] using h.short)
  have ht : line.toList.takeWhile (· ≠ '\x00') = line.toList :=
    List.takeWhile_eq_self_iff.mpr fun c hc => by simpa using (h.chars c hc).right.right
  rw [readLine, irText_cons, hg, ok_bind]
  simp only [List.reverse_nil, List.nil_append, Option.map_some, ht, pure_eq_ok]

theorem readLine_nil : readLine [] = .ok (none, []) := rfl

theorem Legible.of_fields (h : line.toList = Line toks) (hc : ∀ tok ∈ toks, Clear tok)
    (hs : line.length < LINE_CAP) : Legible line where
  short := hs
  chars c hm := by
    rcases mem_join <| h ▸ hm with rfl | ⟨tok, ht, hm⟩
    case inl => decide
    case inr =>
      have ⟨hb, hz⟩ := hc tok ht c hm
      exact ⟨fun hn => by simp [hn, isSpaceChar] at hb, fun hr => by simp [hr, isSpaceChar] at hb, hz⟩

theorem length_of_fields {line : String} (h : line.toList = Line toks) (hs : line.length < LINE_CAP) :
    toks.length ≤ LINE_CAP := by
  have hl : toks.length ≤ (Line toks).length + 1 := length_le_join
  rw [←h, String.length_toList] at hl
  omega

-- A parser that is given the first line of a text decides about the text.
def Reads (parse : Nat → File → List Char → Reader (α × File)) (mark : List Char → Prop)
    (text : List String) (p : Prop) (a : α) : Prop :=
  ∃ line lines, text = line :: lines ∧ Legible line ∧ mark line.toList ∧
    ∀ ls, Decides (fun n => parse n (irText (lines ++ ls)) line.toList) p (a, irText ls)

end Lines

section Instrs

variable {instr : Hcc.Instr} {p : File → Reader (List Instr × File)}

theorem wrap_instrKind : IntType.int.wrap (instrKind instr) = instrKind instr := by
  rw [wrap_int_iff]
  cases instr <;> simp [instrKind, IK_COND, FitsInt]

theorem instrKind_eq_cond_iff : instrKind instr = IK_COND ↔ IsCond instr := by
  cases instr <;> simp [instrKind, IsCond, IK_COND]

theorem encodeInstr_eq {int long : Int → Int} (hc : ¬IsCond instr) :
    encodeInstr int long instr = .mk (encodeFields int long instr) [] [] [] {} {} {} := by
  rw [encodeInstr]
  rintro t condInstrs condOp trueInstrs trueOp falseInstrs falseOp rfl
  exact hc trivial

theorem parseIrInstrLine_fields (hc : ¬IsCond instr) (hs : ∀ name ∈ instrNames instr, Solid name)
    (hl : (instrFields instr).length ≤ LINE_CAP) :
    Decides (fun n => parseIrInstrLine (parseIrInstrsUntilEnd n) file
        (Line (digits (instrKind instr) :: instrFields instr)))
      (InstrNamed instr) (encodeInstr IntType.int.wrap long.wrap instr, file) := by
  have hk : ¬instrKind instr = IK_COND := fun h => hc <| instrKind_eq_cond_iff.mp h
  have hf := parseIrFields_line hc hs hl
  simp only [parseIrInstrLine, needToken_line (digits_isField _), parseLongText_digits,
    liftM_eq_done, done_ok_bind, wrap_long, wrap_instrKind, if_neg hk]
  rw [encodeInstr_eq hc]
  exact (hf.decides.bind (f := fun _ fields => pure (Instr.mk fields [] [] [] {} {} {}, file)) .ok).congr (by simp)

theorem expectLine_line (h : Legible line) (he : line.toList = expected) :
    expectLine (irText (line :: lines)) expected = .ok (irText lines) := by
  simp only [expectLine, readLine_line _ h, ok_bind, if_pos he, pure_eq_ok]

theorem readPrefixedOperand_line {op : Hcc.Operand} (hs : ∀ name ∈ operandNames op, Solid name)
    (hl : ("O " ++ operandIrFields op).length < LINE_CAP) :
    readPrefixedOperand (irText (("O " ++ operandIrFields op) :: lines)) missing =
      .ok (encodeOperand IntType.int.wrap long.wrap op, irText lines) := by
  have hf : ("O " ++ operandIrFields op).toList = Line (['O'] :: operandFields op) := by
    simp [line_operand, toList_operandIrFields]
  have ho : Clear ['O'] := by simp [Clear, isSpaceChar]
  have hc : ∀ tok ∈ ['O'] :: operandFields op, Clear tok := by
    simpa using ⟨ho, operandFields_clear hs⟩
  have hl' : (operandFields op).length ≤ LINE_CAP := Nat.le_of_succ_le <| length_of_fields hf hl
  rw [readPrefixedOperand, readLine_line _ <| .of_fields hf hc hl, ok_bind]
  simp only [hf, parseIrPrefixedOperand, needToken_line <| ho.isField (by simp), ok_bind,
    parseIrOperand_last hs hl', pure_eq_ok]
  rw [if_neg (by simp)]
  rfl

-- A line that starts with a digit, such as the first line of an instruction.
def Numeric (line : List Char) : Prop :=
  ∃ c cs, line = c :: cs ∧ c.isDigit

theorem numeric_line (n : Nat) : Numeric (Line (digits n :: toks)) := by
  have hn := digits_ne_nil n
  have hd : ∀ c ∈ digits n, c.isDigit := by
    rw [digits_eq, if_pos (Int.natCast_nonneg n)]
    exact fun c hc => Nat.isDigit_of_mem_toDigits (by decide) (by decide) hc
  rcases hs : digits n with _ | ⟨c, cs⟩
  case nil  => exact absurd hs hn
  case cons => exact ⟨c, Line (cs :: toks), (cons_line c).symm, hd c <| hs ▸ .head _⟩

theorem instrKind_natCast (instr) : ∃ n : Nat, instrKind instr = n := by
  refine ⟨(instrKind instr).toNat, ?_⟩
  cases instr <;> rfl

abbrev ReadsInstr (instr : Hcc.Instr) : Prop :=
  Reads (fun n => parseIrInstrLine <| parseIrInstrsUntilEnd n) Numeric (emitInstrIr instr)
    (InstrNamed instr) (encodeInstr IntType.int.wrap long.wrap instr)

theorem readsInstr_fields (hc : ¬IsCond instr) (hs : ∀ name ∈ instrNames instr, Solid name)
    (hl : ∀ line ∈ emitInstrIr instr, line.length < LINE_CAP) :
    ReadsInstr instr := by
  have he := emitInstrIr_line hc
  rcases hi : emitInstrIr instr with _ | ⟨line, lines⟩
  case nil => simp [hi] at he
  case cons =>
    obtain ⟨ht, hn⟩ : line.toList = Line (digits (instrKind instr) :: instrFields instr) ∧ lines = [] := by
      simpa [hi] using he
    have hl := hl line (by simp [hi])
    have hf : ∀ tok ∈ digits (instrKind instr) :: instrFields instr, Clear tok := by
      simpa [digits_clear] using instrFields_clear hs
    refine ⟨line, lines, hi, .of_fields ht hf hl, ?_, fun ls => ?_⟩
    · have ⟨n, hn⟩ := instrKind_natCast instr
      exact ht ▸ hn ▸ numeric_line n
    · rw [hn, ht]
      exact parseIrInstrLine_fields hc hs <| Nat.le_of_succ_le <| length_of_fields ht hl

theorem Numeric.ne {line : List Char} (h : Numeric line) (hc : c.isDigit = false) :
    line ≠ c :: cs := by
  rintro rfl
  have ⟨_, _, h, hd⟩ := h
  simp [List.cons.inj h |>.left.symm, hc] at hd

theorem legible_mark (line) (h : line ∈ ["[", "]", "Q", "E"]) : Legible line := by
  simp only [List.mem_cons, List.not_mem_nil, or_false] at h
  rcases h with rfl | rfl | rfl | rfl <;> exact ⟨by simp, by decide⟩

mutual

theorem readsInstr (instr) (hs : ∀ name ∈ instrNames instr, Solid name)
    (hl : ∀ line ∈ emitInstrIr instr, line.length < LINE_CAP) :
    ReadsInstr instr := by
  by_cases hc : IsCond instr
  case neg => exact readsInstr_fields hc hs hl
  case pos =>
    cases instr
    case cond t condInstrs condOp trueInstrs trueOp falseInstrs falseOp =>
      simp only [instrNames, List.mem_append, or_imp, forall_and] at hs
      obtain ⟨⟨⟨⟨⟨hsc, hsco⟩, hst⟩, hsto⟩, hsf⟩, hsfo⟩ := hs
      have hlc line (h : line ∈ emitInstrsIr condInstrs) := hl line (by simp [emitInstrIr, h])
      have hlt line (h : line ∈ emitInstrsIr trueInstrs) := hl line (by simp [emitInstrIr, h])
      have hlf line (h : line ∈ emitInstrsIr falseInstrs) := hl line (by simp [emitInstrIr, h])
      have hlco := hl ("O " ++ operandIrFields condOp) (by simp [emitInstrIr])
      have hlto := hl ("O " ++ operandIrFields trueOp) (by simp [emitInstrIr])
      have hlfo := hl ("O " ++ operandIrFields falseOp) (by simp [emitInstrIr])
      have ht : ("21 " ++ tempText t).toList = Line [digits 21, digits t.index] := by
        have hd : digits 21 = ['2', '1'] := by decide
        simp [Line, join, toList_tempText, hd]
      have hk : IntType.int.wrap (long.wrap 21) = IK_COND := by decide
      have hb : Legible "[" := legible_mark _ (by simp)
      have hf : ∀ tok ∈ [digits 21, digits t.index], Clear tok := by simp [digits_clear]
      have he : emitInstrIr (.cond t condInstrs condOp trueInstrs trueOp falseInstrs falseOp) =
          ("21 " ++ tempText t) :: ("[" :: emitInstrsIr condInstrs ++ ["]"] ++ ["O " ++ operandIrFields condOp] ++
            ["["] ++ emitInstrsIr trueInstrs ++ ["]"] ++ ["O " ++ operandIrFields trueOp] ++
            ["["] ++ emitInstrsIr falseInstrs ++ ["]"] ++ ["O " ++ operandIrFields falseOp] ++ ["Q"]) := by
        simp [emitInstrIr]
      refine ⟨_, _, he, ?_, ?_, fun ls => ?_⟩
      · exact .of_fields ht hf <| hl _ (by simp [emitInstrIr])
      · exact ht ▸ numeric_line 21
      · have hq : Legible "Q" := legible_mark _ (by simp)
        simp only [ht, parseIrInstrLine, needToken_line (digits_isField _), parseLongText_digits,
          liftM_eq_done, done_ok_bind, hk, parseIntToken_line, if_pos, List.cons_append, List.nil_append,
          List.append_assoc]
        have hp : InstrsNamed condInstrs ∧ InstrsNamed trueInstrs ∧ InstrsNamed falseInstrs ∧ True ↔
            InstrNamed (.cond t condInstrs condOp trueInstrs trueOp falseInstrs falseOp) := by
          simp [InstrNamed]
        refine .congr ?_ hp
        refine .done_bind (expectLine_line hb rfl) ?_
        refine .bind (parseIrInstrsUntilEnd_text condInstrs hsc hlc _) ?_
        refine .done_bind (readPrefixedOperand_line hsco hlco) ?_
        refine .done_bind (expectLine_line hb rfl) ?_
        refine .bind (parseIrInstrsUntilEnd_text trueInstrs hst hlt _) ?_
        refine .done_bind (readPrefixedOperand_line hsto hlto) ?_
        refine .done_bind (expectLine_line hb rfl) ?_
        refine .bind (parseIrInstrsUntilEnd_text falseInstrs hsf hlf _) ?_
        refine .done_bind (readPrefixedOperand_line hsfo hlfo) ?_
        exact .done_bind (expectLine_line hq rfl) .ok
    all_goals exact hc.elim

theorem parseIrInstrsUntilEnd_text (instrs) (hs : ∀ name ∈ instrsNames instrs, Solid name)
    (hl : ∀ line ∈ emitInstrsIr instrs, line.length < LINE_CAP) (ls) :
    Decides (fun n => parseIrInstrsUntilEnd n (irText (emitInstrsIr instrs ++ "]" :: ls)))
      (InstrsNamed instrs) (encodeInstrs IntType.int.wrap long.wrap instrs, irText ls) := by
  match instrs with
  | [] =>
    have hr := readLine_line ls <| legible_mark "]" (by simp)
    refine .of_succ ?_
    simp only [emitInstrsIr, List.nil_append, parseIrInstrsUntilEnd, hr, liftM_eq_done, done_ok_bind]
    exact .ok
  | instr :: instrs =>
    simp only [instrsNames, emitInstrsIr, List.mem_append, or_imp, forall_and] at hs hl
    have ⟨line, lines, he, hi, hn, hd⟩ := readsInstr instr hs.left hl.left
    have his := parseIrInstrsUntilEnd_text instrs hs.right hl.right ls
    have hr := readLine_line (lines ++ (emitInstrsIr instrs ++ "]" :: ls)) hi
    refine .of_succ ?_
    simp only [emitInstrsIr, he, List.cons_append, List.append_assoc, parseIrInstrsUntilEnd, hr,
      liftM_eq_done, done_ok_bind, if_neg <| hn.ne (c := ']') rfl]
    exact (hd _).bind <| his.map

end

end Instrs

section Functions

theorem Numeric.not_isTermLine {line : List Char} (h : Numeric line) : isTermLine line = false := by
  obtain ⟨c, cs, rfl, hd⟩ := h
  have hc (d : Char) (hn : d.isDigit = false) : (c == d) = false := by
    simpa using fun hc : c = d => absurd (hc ▸ hd) (by simp [hn])
  simp [isTermLine, List.isPrefixOf, Bool.beq_comm, hc]

theorem isTermLine_terminatorIrLine (term) : isTermLine (terminatorIrLine term).toList := by
  cases term
  case ret value => cases value <;> simp [terminatorIrLine, isTermLine, List.isPrefixOf]
  all_goals simp [terminatorIrLine, isTermLine, List.isPrefixOf]

theorem parseIrBlock.body_text (instrs) (term) (hs : ∀ name ∈ instrsNames instrs, Solid name)
    (hst : ∀ name ∈ termNames term, Solid name)
    (hl : ∀ line ∈ emitInstrsIr instrs, line.length < LINE_CAP)
    (hlt : (terminatorIrLine term).length < LINE_CAP) (ls) :
    Decides (fun n => parseIrBlock.body n (irText (emitInstrsIr instrs ++ terminatorIrLine term :: ls)))
      (InstrsNamed instrs ∧ ¬ReturnsBytes term)
      (encodeInstrs IntType.int.wrap long.wrap instrs, encodeTerm IntType.int.wrap long.wrap term,
        irText ls) := by
  induction instrs
  case nil =>
    have ht := toList_terminatorIrLine term
    have hr := readLine_line ls <| .of_fields ht (terminatorFields_clear hst) hlt
    have hp := (parseIrTerm_line hst <| length_of_fields ht hlt).decides
    refine .of_succ ?_
    simp only [emitInstrsIr, List.nil_append, parseIrBlock.body, hr, liftM_eq_done, done_ok_bind,
      isTermLine_terminatorIrLine, if_true]
    rw [ht]
    exact hp.map.congr (by simp [InstrsNamed])
  case cons instr instrs hi =>
    simp only [instrsNames, emitInstrsIr, List.mem_append, or_imp, forall_and] at hs hl
    have ⟨line, lines, he, hr, hn, hd⟩ := readsInstr instr hs.left hl.left
    have hb := hi hs.right hl.right
    have hl := readLine_line (lines ++ (emitInstrsIr instrs ++ terminatorIrLine term :: ls))
      hr
    refine .of_succ ?_
    simp only [emitInstrsIr, he, List.cons_append, List.append_assoc, parseIrBlock.body, hl,
      liftM_eq_done, done_ok_bind, hn.not_isTermLine, Bool.false_eq_true, if_false]
    exact ((hd _).bind hb.map).congr <| by simp [InstrsNamed, and_assoc]

def BlockReadable (block : BasicBlock) : Prop :=
  InstrsNamed block.instrs ∧ ¬ReturnsBytes block.term

def blockNames (block : BasicBlock) : List String :=
  instrsNames block.instrs ++ termNames block.term

theorem readsBlock (block) (hs : ∀ name ∈ blockNames block, Solid name)
    (hl : ∀ line ∈ emitBlockIr block, line.length < LINE_CAP) :
    Reads parseIrBlock (· ≠ ['E']) (emitBlockIr block) (BlockReadable block)
      (encodeBlock IntType.int.wrap long.wrap block) := by
  simp only [emitBlockIr, List.mem_append, or_imp, forall_and, List.mem_singleton, forall_eq] at hl
  simp only [blockNames, List.mem_append, or_imp, forall_and] at hs
  have ht : ("L " ++ blockIdText block.id).toList = Line [['L'], digits block.id.index] := by
    simp [Line, join, toList_blockIdText]
  have hc : Clear ['L'] := by simp [Clear, isSpaceChar]
  have hf : ∀ tok ∈ [['L'], digits block.id.index], Clear tok := by simpa [digits_clear] using hc
  refine ⟨_, emitInstrsIr block.instrs ++ [terminatorIrLine block.term], rfl,
    .of_fields ht hf hl.left.left, by simp, fun ls => ?_⟩
  have hb := parseIrBlock.body_text block.instrs block.term hs.left hs.right hl.left.right hl.right ls
  simp only [ht, parseIrBlock, needToken_line <| hc.isField (by simp), liftM_eq_done, done_ok_bind,
    parseIntToken_line, ne_eq, not_true, if_false, List.append_assoc, List.singleton_append]
  exact hb.map

theorem parseIrFunction.blocks_text (bs : List BasicBlock)
    (hs : ∀ name ∈ bs.flatMap blockNames, Solid name)
    (hl : ∀ line ∈ emitBlocksIr bs, line.length < LINE_CAP) (ls) :
    Decides (fun n => parseIrFunction.blocks n (irText (emitBlocksIr bs ++ "E" :: ls)))
      (∀ block ∈ bs, BlockReadable block)
      (bs.map (encodeBlock IntType.int.wrap long.wrap), irText ls) := by
  induction bs
  case nil =>
    have hr := readLine_line ls <| legible_mark "E" (by simp)
    refine .of_succ ?_
    simp only [emitBlocksIr, List.flatMap_nil, List.nil_append, blocks, hr, liftM_eq_done, done_ok_bind]
    exact Decides.ok.congr (by simp)
  case cons block bs hi =>
    simp only [List.flatMap_cons, emitBlocksIr, List.mem_append, or_imp, forall_and] at hs hl
    have ⟨line, lines, he, hr, hn, hd⟩ := readsBlock block hs.left hl.left
    have hb := hi hs.right hl.right
    have hl := readLine_line (lines ++ (emitBlocksIr bs ++ "E" :: ls)) hr
    refine .of_succ ?_
    simp only [emitBlocksIr, List.flatMap_cons, he, List.cons_append, List.append_assoc, blocks] at hl ⊢
    simp only [hl, liftM_eq_done, done_ok_bind, if_neg hn]
    exact ((hd _).bind hb.map).congr <| by simp

theorem needName_line {name : String} (hs : Solid name) :
    Accepts (needName (Line [name.toList])) (name ≠ "") (name, []) := by
  constructor
  · intro hn
    have hf := Clear.isField hs <| by simpa using hn
    simp only [needName, needToken_line hf, ok_bind, pure_eq_ok, String.ofList_toList, join_nil]
  · intro hn
    exact ⟨_, by rw [not_not.mp hn]; rfl⟩

theorem readsFunction (fn) (hs : ∀ name ∈ itemNames (.function fn), Solid name)
    (hl : ∀ line ∈ emitFunctionIr fn, line.length < LINE_CAP) :
    Reads parseIrFunction (['F', ' '].isPrefixOf ·) (emitFunctionIr fn)
      (fn.name ≠ "" ∧ ∀ block ∈ fn.blocks, BlockReadable block)
      (encodeFunction IntType.int.wrap long.wrap fn) := by
  simp only [emitFunctionIr, List.mem_append, or_imp, forall_and, List.mem_singleton, forall_eq] at hl
  simp only [itemNames, List.mem_cons, forall_eq_or_imp] at hs
  have ht : ("F " ++ fn.name).toList = Line [['F'], fn.name.toList] := by simp [Line, join]
  have hc : Clear ['F'] := by simp [Clear, isSpaceChar]
  have hf : ∀ tok ∈ [['F'], fn.name.toList], Clear tok := by simpa using ⟨hc, hs.left⟩
  refine ⟨_, emitBlocksIr fn.blocks ++ ["E"], rfl, .of_fields ht hf hl.left.left, by simp, fun ls => ?_⟩
  have hb := parseIrFunction.blocks_text fn.blocks hs.right hl.left.right ls
  simp only [ht, parseIrFunction, needToken_line <| hc.isField (by simp), liftM_eq_done, done_ok_bind,
    ne_eq, not_true, if_false, List.append_assoc, List.singleton_append]
  exact (needName_line hs.left).decides.bind hb.map

end Functions
end Hcc.M1
