import Hcc.Support.Materialize
import Mathlib.Data.List.Infix
import Mathlib.Data.List.TakeWhile

namespace Hcc.Materialize

section Script

-- The lines of a file with their ends. The last line of a file may not have an end.
def linesOf : List UInt8 → List (List UInt8)
  | []         => []
  | c :: input =>
    if c = chLf then [c] :: linesOf input
    else
      match linesOf input with
      | []            => [[c]]
      | line :: lines => (c :: line) :: lines

def Eof (line : List UInt8) : Prop :=
  line = bytes "EOF\n" ∨ line = bytes "EOF\r\n" ∨ line = bytes "EOF"

-- The names of the files that may be written.
structure ValidName (name : List UInt8) : Prop where
  stem        : ∃ stem, stem ≠ [] ∧ name = stem ++ bytes ".ob"
  noSlash     : chSlash ∉ name
  noBackslash : chBackslash ∉ name
  start       : name.head? ≠ some chDot
  noDots      : ¬[chDot, chDot] <:+: name

def HeaderLine (line name : List UInt8) : Prop :=
  ValidName name ∧ ∃ tail, line = bytes "cat > " ++ name ++ chSpace :: tail

def Blank (line : List UInt8) : Prop :=
  line = bytes "\n" ∨ line = bytes "\r\n" ∨ line = bytes "\r"

-- The files that are written for a script. A run without success ends before a line, or within a
-- payload that has no EOF line. If a call fails, then the payload may also be written in part.
inductive Materializes (dir : List UInt8) (failed : Prop) (success : Bool) :
    List (List UInt8) → List Output → Prop
  | nil : Materializes dir failed success [] []
  | blank {line lines outputs} : Blank line → Materializes dir failed success lines outputs →
    Materializes dir failed success (line :: lines) outputs
  | object {line name ps eof lines outputs} : HeaderLine line name → (∀ l ∈ ps, ¬Eof l) → Eof eof →
    Materializes dir failed success lines outputs →
    Materializes dir failed success (line :: ps ++ eof :: lines)
      (⟨dir ++ chSlash :: name, ps.flatten⟩ :: outputs)
  | stop {lines} : success = false → Materializes dir failed success lines []
  | unfinished {line name ps lines} : success = false → HeaderLine line name → (∀ l ∈ ps, ¬Eof l) →
    (∀ l ∈ lines.head?, ¬Eof l) →
    Materializes dir failed success (line :: ps ++ lines) [⟨dir ++ chSlash :: name, ps.flatten⟩]
  | cut {line name ps written lines} : failed → success = false → HeaderLine line name →
    (∀ l ∈ ps, ¬Eof l) → written <+: ps.flatten →
    Materializes dir failed success (line :: ps ++ lines) [⟨dir ++ chSlash :: name, written⟩]

end Script

variable {s s' : State} {answers : Nat → Answer} {dir path name line input rest written written' : List UInt8}
variable {lines : List (List UInt8)} {outputs : List Output}

section Lines

theorem readLine.go_nil {len : Nat} (h : go len input = some ([], rest)) : input = [] ∧ rest = [] := by
  cases input
  case nil => cases h; exact ⟨rfl, rfl⟩
  case cons c input =>
    rw [go] at h
    split at h
    case isTrue => cases h
    case isFalse =>
      split at h
      case isTrue => cases h
      case isFalse =>
        obtain ⟨_, _, he⟩ := Option.map_eq_some_iff.mp h
        cases he

theorem readLine.go_linesOf {len : Nat} (h : go len input = some (line, rest)) (hl : line ≠ []) :
    linesOf input = line :: linesOf rest ∧ input = line ++ rest := by
  induction input generalizing len line
  case nil => cases h; exact absurd rfl hl
  case cons c input hi =>
    rw [go] at h
    split at h
    case isTrue => cases h
    case isFalse =>
      rw [linesOf]
      split at h
      case isTrue hc =>
        cases h
        exact ⟨if_pos hc, rfl⟩
      case isFalse hc =>
        obtain ⟨⟨l, r⟩, hg, he⟩ := Option.map_eq_some_iff.mp h
        cases he
        rw [if_neg hc]
        by_cases hn : l = []
        case pos =>
          subst hn
          obtain ⟨hi, hr⟩ := readLine.go_nil hg
          subst hi hr
          exact ⟨rfl, rfl⟩
        case neg =>
          obtain ⟨hs, ha⟩ := hi hg hn
          rw [hs, ha]
          exact ⟨rfl, rfl⟩

theorem readLine_none (h : readLine s = .ok none) : s.input = [] := by
  rw [readLine] at h
  split at h
  case h_1    => cases h
  case h_2 hg => exact (readLine.go_nil hg).1
  case h_3    => cases h

theorem readLine_some (h : readLine s = .ok (some s')) (hz : 0 ∉ s.input) :
    linesOf s.input = s'.line :: linesOf s'.input ∧ 0 ∉ s'.input ∧ s'.wroteAny = s.wroteAny := by
  rw [readLine] at h
  split at h
  case h_1 => cases h
  case h_2 => cases h
  case h_3 line rest hn hg =>
    cases h
    obtain ⟨hl, ha⟩ := readLine.go_linesOf hg fun he => hn he
    rw [ha, List.mem_append, not_or] at hz
    have ht : line.takeWhile (· ≠ 0) = line :=
      List.takeWhile_eq_self_iff.mpr fun c hc => by simpa using fun he : c = 0 => hz.1 (he ▸ hc)
    exact ⟨ht.symm ▸ hl, hz.2, rfl⟩

theorem ne_nil_of_linesOf (h : linesOf input = line :: lines) : line ≠ [] := by
  cases input
  case nil => nomatch h
  case cons c input =>
    rw [linesOf] at h
    split at h
    case isTrue => cases h; nofun
    case isFalse =>
      split at h <;> cases h <;> nofun

theorem readLine.go_none {len : Nat} (h : go len input = none) (hc : len ≤ lineCap - 1) :
    ∃ line lines, linesOf input = line :: lines ∧ lineCap ≤ len + line.length := by
  induction input generalizing len
  case nil => cases h
  case cons c input hi =>
    rw [go] at h
    rw [linesOf]
    split at h
    case isTrue hl =>
      have hl : lineCap ≤ len + 1 := by omega
      split
      case isTrue => exact ⟨_, _, rfl, hl⟩
      case isFalse =>
        split
        · exact ⟨_, _, rfl, hl⟩
        · exact ⟨_, _, rfl, by rw [List.length_cons]; omega⟩
    case isFalse hl =>
      split at h
      case isTrue => cases h
      case isFalse hn =>
        obtain ⟨line, lines, he, hl⟩ := hi (Option.map_eq_none_iff.mp h) (by omega)
        rw [if_neg hn, he]
        exact ⟨_, _, rfl, by rw [List.length_cons]; omega⟩

theorem readLine_error {e : Failure} (h : readLine s = .error e) :
    ∀ line ∈ (linesOf s.input).head?, ¬Eof line := by
  rw [readLine] at h
  split at h
  case h_2 => cases h
  case h_3 => cases h
  case h_1 hg =>
    obtain ⟨line, lines, hl, hc⟩ := readLine.go_none hg (by decide)
    rw [hl]
    intro l h he
    cases h
    rcases he with he | he | he <;> rw [he] at hc <;> exact absurd hc (by decide)

end Lines

section Payload

theorem isEofLine_iff : isEofLine line = true ↔ Eof line := by
  simp [isEofLine, Eof, or_assoc]

-- The lines up to the next EOF line, or up to the end of the file.
theorem payload_ok (hz : 0 ∉ s.input) (h : payload answers path s written = (.ok s', written')) :
    ∃ ps, (∀ line ∈ ps, ¬Eof line) ∧ written' = written ++ ps.flatten ∧ 0 ∉ s'.input ∧
      (Eof s'.line → ¬Eof s.line → linesOf s.input = ps ++ s'.line :: linesOf s'.input) ∧
      (¬Eof s'.line → linesOf s.input = ps) ∧ s'.wroteAny = s.wroteAny := by
  fun_induction payload answers path s written
  case case1 => cases h
  case case2 s written hr =>
    cases h
    have hi := readLine_none hr
    refine ⟨[], by simp, by simp, hz, fun h hn => absurd h hn, fun _ => by rw [hi]; rfl, rfl⟩
  case case3 s written s' hr he =>
    cases h
    obtain ⟨hl, hz, hw⟩ := readLine_some hr hz
    exact ⟨[], by simp, by simp, hz, fun _ _ => hl, fun hn => absurd (isEofLine_iff.mp he) hn, hw⟩
  case case4 s written s₁ hr he hd hi =>
    obtain ⟨hl, hz, hw⟩ := readLine_some hr hz
    have he := mt isEofLine_iff.mpr he
    obtain ⟨ps, hp, ha, hz, hy, hn, hw'⟩ := hi hz h
    refine ⟨s₁.line :: ps, ?_, ?_, hz, ?_, ?_, hw'.trans hw⟩
    · simpa using ⟨he, hp⟩
    · rw [ha, List.flatten_cons, List.append_assoc]
    · intro h _
      rw [hl, hy h he]
      rfl
    · intro h
      rw [hl, hn h]
  case case5 => cases h

def Failed (answers : Nat → Answer) : Prop :=
  ∃ n, answers n ≠ .done

-- Either the next line is too long, or a call fails.
theorem payload_error (hz : 0 ∉ s.input) {e : Failure}
    (h : payload answers path s written = (.error e, written')) :
    ∃ ps rest, linesOf s.input = ps ++ rest ∧ (∀ line ∈ ps, ¬Eof line) ∧
      (written' = written ++ ps.flatten ∧ (∀ line ∈ rest.head?, ¬Eof line) ∨
        Failed answers ∧ ∃ w, written' = written ++ w ∧ w <+: ps.flatten) := by
  fun_induction payload answers path s written
  case case1 s written e' hr =>
    cases h
    exact ⟨[], linesOf s.input, rfl, by simp, .inl ⟨by simp, readLine_error hr⟩⟩
  case case2 => cases h
  case case3 => cases h
  case case4 s written s₁ hr he hd hi =>
    obtain ⟨hl, hz, _⟩ := readLine_some hr hz
    have he := mt isEofLine_iff.mpr he
    obtain ⟨ps, rest, hs, hp, hw⟩ := hi hz h
    refine ⟨s₁.line :: ps, rest, by rw [hl, hs]; rfl, by simpa using ⟨he, hp⟩, ?_⟩
    cases hw
    case inl hw =>
      refine .inl ⟨?_, hw.2⟩
      rw [hw.1, List.flatten_cons, List.append_assoc]
    case inr hw =>
      obtain ⟨hf, w, hw, hp⟩ := hw
      refine .inr ⟨hf, s₁.line ++ w, ?_, (List.prefix_append_right_inj _).mpr hp⟩
      rw [hw, List.append_assoc]
  case case5 s written s₁ hr he n hf =>
    cases h
    obtain ⟨hl, _, _⟩ := readLine_some hr hz
    have hf : Failed answers := ⟨_, fun hd => by cases hf.symm.trans hd⟩
    refine ⟨[s₁.line], linesOf s₁.input, hl, ?_, .inr ⟨hf, s₁.line.take n, rfl, ?_⟩⟩
    · simpa using mt isEofLine_iff.mpr he
    · simpa using List.take_prefix n s₁.line

end Payload

section Header

theorem trimLineEnd_prefix (line : List UInt8) : trimLineEnd line <+: line := by
  simp only [trimLineEnd]
  split <;> split
  · exact (List.dropLast_prefix _).trans (List.dropLast_prefix _)
  · exact List.dropLast_prefix _
  · exact List.dropLast_prefix _
  · exact List.prefix_rfl

theorem eq_singleton_of_dropLast {c : UInt8} (h : line.getLast? = some c) (hd : line.dropLast = []) :
    line = [c] := by
  have ⟨front, hf⟩ := List.getLast?_eq_some_iff.mp h
  subst hf
  rw [List.dropLast_concat] at hd
  rw [hd, List.nil_append]

theorem blank_of_trimLineEnd (hl : line ≠ []) (h : trimLineEnd line = []) : Blank line := by
  simp only [trimLineEnd] at h
  split at h <;> split at h
  case isTrue.isTrue h₁ h₂ =>
    have ⟨front, hf⟩ := List.getLast?_eq_some_iff.mp h₁
    subst hf
    rw [List.dropLast_concat] at h₂ h
    rw [eq_singleton_of_dropLast h₂ h]
    exact .inr <| .inl rfl
  case isTrue.isFalse h₁ _  => exact .inl <| eq_singleton_of_dropLast h₁ h
  case isFalse.isTrue _ h₂  => exact .inr <| .inr <| eq_singleton_of_dropLast h₂ h
  case isFalse.isFalse _ _  => exact absurd h hl

theorem check_eq_object {name' : List UInt8} (h : parseHeader.check name = .object name') :
    name' = name ∧ (∃ stem, stem ≠ [] ∧ name = stem ++ bytes ".ob") ∧ name.head? ≠ some chDot := by
  simp only [parseHeader.check] at h
  split_ifs at h with hj h₀ h₃ h₂ h₁
  cases h
  simp only [ne_eq, not_not] at h₁ h₂ h₃
  have ⟨_, h₁⟩ := List.getElem?_eq_some_iff.mp h₁
  have ⟨_, h₂⟩ := List.getElem?_eq_some_iff.mp h₂
  have ⟨_, h₃⟩ := List.getElem?_eq_some_iff.mp h₃
  have hs : name.drop (name.length - 3) = bytes ".ob" := by
    rw [List.drop_eq_getElem_cons (by omega), h₃]
    simp only [show name.length - 3 + 1 = name.length - 2 by omega]
    rw [List.drop_eq_getElem_cons (by omega), h₂]
    simp only [show name.length - 2 + 1 = name.length - 1 by omega]
    rw [List.drop_eq_getElem_cons (by omega), h₁, List.drop_of_length_le (by omega)]
    rfl
  refine ⟨rfl, ⟨name.take (name.length - 3), ?_, ?_⟩, ?_⟩
  · exact List.length_pos_iff.mp (by rw [List.length_take]; omega)
  · rw [←hs, List.take_append_drop]
  · rwa [List.head?_eq_getElem?]

theorem go_eq_object {name' : List UInt8} (h : parseHeader.go name line = .object name')
    (hs : chSlash ∉ name) (hb : chBackslash ∉ name) (hd : ¬[chDot, chDot] <:+: name) :
    ValidName name' ∧ ∃ mid tail, line = mid ++ chSpace :: tail ∧ name' = name ++ mid := by
  induction line generalizing name
  case nil => nomatch h
  case cons c line hi =>
    rw [parseHeader.go] at h
    split_ifs at h with hc _ hs' hb' _ _ hd'
    case pos =>
      have ⟨he, hsuffix, hstart⟩ := check_eq_object h
      subst he
      exact ⟨⟨hsuffix, hs, hb, hstart, hd⟩, [], line, by rw [hc]; rfl, (List.append_nil _).symm⟩
    case neg =>
      have ⟨hv, mid, tail, hl, hn⟩ := hi h (by simp [hs, Ne.symm hs']) (by simp [hb, Ne.symm hb']) fun hi => by
        rcases List.infix_concat_iff.mp hi with hi | hi
        · have ⟨front, hf⟩ := hi
          have ⟨hn, hc⟩ := List.append_inj' (show front ++ [chDot] ++ [chDot] = name ++ [c] by simpa using hf) rfl
          refine hd' ⟨(List.singleton_inj.mp hc).symm, ?_⟩
          rw [←hn, List.getLast?_concat]
        · exact hd hi
      exact ⟨hv, c :: mid, tail, by rw [hl]; rfl, by rw [hn, List.append_assoc]; rfl⟩

theorem go_ne_empty : parseHeader.go name line ≠ .empty := by
  induction line generalizing name
  case nil => nofun
  case cons c line hi =>
    rw [parseHeader.go]
    simp only [parseHeader.check]
    split_ifs <;> first | exact hi | nofun

theorem eq_nil_of_empty (h : parseHeader line = .empty) : line = [] := by
  rw [parseHeader] at h
  split_ifs at h with hl
  · exact hl
  · exact absurd h go_ne_empty

theorem headerLine_of_object (h : parseHeader (trimLineEnd line) = .object name) :
    HeaderLine line name ∧ ¬Eof (trimLineEnd line) := by
  have he : ¬Eof (trimLineEnd line) := by
    have hn (text : List UInt8) (ht : parseHeader text = .invalid) : trimLineEnd line ≠ text := fun he => by
      rw [he, ht] at h
      nomatch h
    exact not_or.mpr ⟨hn _ (by decide), not_or.mpr ⟨hn _ (by decide), hn _ (by decide)⟩⟩
  rw [parseHeader] at h
  split_ifs at h with hl hp
  have ⟨hv, mid, tail, hm, hn⟩ := go_eq_object h nofun nofun (by simp)
  have ⟨rest, hr⟩ := trimLineEnd_prefix line
  have ⟨front, hf⟩ := List.isPrefixOf_iff_prefix.mp hp
  have hd : ([chC, chA, chT, chSpace, chGt, chSpace] ++ front).drop 6 = front := rfl
  rw [←hf, hd] at hm
  refine ⟨⟨hv, tail ++ rest, ?_⟩, he⟩
  have hc : bytes "cat > " = [chC, chA, chT, chSpace, chGt, chSpace] := by decide
  rw [←hr, ←hf, hm, hn, hc]
  simp

end Header

section Objects

theorem Materializes.fail {failed : Prop} {success : Bool} (h : Materializes dir failed success lines outputs) :
    Materializes dir failed false lines outputs := by
  induction h
  case nil                      => exact .nil
  case blank hb _ hi            => exact .blank hb hi
  case object hh hp he _ hi     => exact .object hh hp he hi
  case stop                     => exact .stop rfl
  case unfinished _ hh hp hn    => exact .unfinished rfl hh hp hn
  case cut hf _ hh hp hw        => exact .cut hf rfl hh hp hw

-- The only files that are opened are in the directory.
theorem Materializes.confined {failed : Prop} {success : Bool}
    (h : Materializes dir failed success lines outputs) :
    ∀ output ∈ outputs, ∃ name, ValidName name ∧ output.path = dir ++ chSlash :: name := by
  induction h
  case nil                    => exact nofun
  case blank hi               => exact hi
  case stop                   => exact nofun
  case object hh _ _ _ hi     => exact List.forall_mem_cons.mpr ⟨⟨_, hh.1, rfl⟩, hi⟩
  case unfinished hh _ _      => exact List.forall_mem_cons.mpr ⟨⟨_, hh.1, rfl⟩, nofun⟩
  case cut hh _ _             => exact List.forall_mem_cons.mpr ⟨⟨_, hh.1, rfl⟩, nofun⟩

theorem makePath_eq_some (h : makePath dir name = some path) : path = dir ++ chSlash :: name := by
  rw [makePath] at h
  split at h <;> cases h
  rfl

theorem readLine_header (hz : 0 ∉ s.input) (hr : readLine s = .ok (some s'))
    (hh : parseHeader (trimLineEnd s'.line) = .object name) (hp : makePath dir name = some path) :
    linesOf s.input = s'.line :: linesOf s'.input ∧ 0 ∉ s'.input ∧ HeaderLine s'.line name ∧
      ¬Eof (trimLineEnd s'.line) ∧ path = dir ++ chSlash :: name := by
  have ⟨hl, hz, _⟩ := readLine_some hr hz
  have ⟨hh, hn⟩ := headerLine_of_object hh
  exact ⟨hl, hz, hh, hn, makePath_eq_some hp⟩

theorem objects_materializes {r : Except Failure State} {outputs' : List Output} (hz : 0 ∉ s.input)
    (h : objects answers dir s outputs = (r, outputs')) :
    ∃ new, outputs' = outputs ++ new ∧ Materializes dir (Failed answers) r.isOk (linesOf s.input) new ∧
      ∀ s', r = .ok s' → s'.wroteAny = true → s.wroteAny = true ∨ new ≠ [] := by
  fun_induction objects answers dir s outputs
  case case1 => cases h; exact ⟨[], by simp, .stop rfl, nofun⟩
  case case2 s outputs hr =>
    cases h
    rw [readLine_none hr]
    exact ⟨[], by simp, .nil, fun s' he hw => .inl <| by cases he; exact hw⟩
  case case3 s outputs s₁ hr header s₂ hh hi =>
    have ⟨hl, hz, hw⟩ := readLine_some hr hz
    have ⟨new, ho, hm, hn⟩ := hi hz h
    refine ⟨new, ho, ?_, fun s' hs hs' => (hn s' hs hs').imp_left fun h => hw ▸ h⟩
    rw [hl]
    exact .blank (blank_of_trimLineEnd (ne_nil_of_linesOf hl) <| eq_nil_of_empty hh) hm
  case case4 => cases h; exact ⟨[], by simp, .stop rfl, nofun⟩
  case case5 => cases h; exact ⟨[], by simp, .stop rfl, nofun⟩
  case case6 s outputs s₁ hr header s₂ name hh path hp n hf =>
    cases h
    have ⟨hl, _, hh, _, hp⟩ := readLine_header hz hr hh hp
    refine ⟨_, rfl, ?_, nofun⟩
    rw [hl, hp]
    have hp : ∀ l ∈ ([] : List (List UInt8)), ¬Eof l := nofun
    exact .cut ⟨_, fun hd => by cases hf.symm.trans hd⟩ rfl hh hp List.nil_prefix
  case case7 s outputs s₁ hr header s₂ name hh path hp hf e written hpl =>
    cases h
    have ⟨hl, hz, hh, _, hp⟩ := readLine_header hz hr hh hp
    have ⟨ps, rest, hs, hps, hc⟩ := payload_error (by exact hz) hpl
    have hs : linesOf s₁.input = ps ++ rest := hs
    refine ⟨_, rfl, ?_, nofun⟩
    rw [hl, hs, hp]
    rcases hc with ⟨hc, hn⟩ | ⟨hf, w, hc, hp⟩ <;> rw [hc, List.nil_append]
    · exact .unfinished rfl hh hps hn
    · exact .cut hf rfl hh hps hp
  case case8 s outputs s₁ hr header s₂ name hh path hp hf s₃ written hpl outputs₂ he =>
    have ⟨hl, hz, hh, _, hp⟩ := readLine_header hz hr hh hp
    have ⟨ps, hps, hc, _, _, hn, _⟩ := payload_ok (by exact hz) hpl
    have he : ¬Eof s₃.line := fun h => by simp [isEofLine_iff.mpr h] at he
    have hs : linesOf s₁.input = ps ++ [] := (hn he).trans (List.append_nil _).symm
    have ⟨hr, ho⟩ := Prod.mk.inj h
    refine ⟨_, ho.symm, ?_, hr ▸ nofun⟩
    rw [hl, hs, hp, hc, List.nil_append, ←hr]
    exact .unfinished rfl hh hps nofun
  case case9 s outputs s₁ hr header s₂ name hh path hp hf s₃ written hpl outputs₂ he n hcl =>
    have ⟨hl, hz, hh, hne, hp⟩ := readLine_header hz hr hh hp
    have ⟨ps, hps, hc, _, hy, _, _⟩ := payload_ok (by exact hz) hpl
    have he : Eof s₃.line := isEofLine_iff.mp <| by simpa using he
    have hs : linesOf s₁.input = ps ++ s₃.line :: linesOf s₃.input := hy he hne
    have ⟨hr, ho⟩ := Prod.mk.inj h
    refine ⟨_, ho.symm, ?_, hr ▸ nofun⟩
    rw [hl, hs, hp, hc, List.nil_append, ←hr]
    exact .object hh hps he <| .stop rfl
  case case10 s outputs s₁ hr header s₂ name hh path hp hf s₃ written hpl outputs₂ he hcl hi =>
    have ⟨hl, hz, hh, hne, hp⟩ := readLine_header hz hr hh hp
    have ⟨ps, hps, hc, hz, hy, _, _⟩ := payload_ok (by exact hz) hpl
    have ⟨new, ho, hm, _⟩ := hi hz h
    have he : Eof s₃.line := isEofLine_iff.mp <| by simpa using he
    have hs : linesOf s₁.input = ps ++ s₃.line :: linesOf s₃.input := hy he hne
    refine ⟨⟨path, written⟩ :: new, by simp [ho, outputs₂], ?_, fun _ _ _ => .inr nofun⟩
    rw [hl, hs, hp, hc, List.nil_append]
    exact .object hh hps he hm

end Objects

theorem status_ne_zero {e : Failure} : e.status ≠ 0 := by
  cases e <;> nofun

theorem main_faithful (program script dir : List UInt8) (memory : Bool) (hz : 0 ∉ input) :
    let (result, outputs) := main answers [program, script, dir] memory fun _ => some input
    (∀ output ∈ outputs, ∃ name, ValidName name ∧ output.path = dir ++ chSlash :: name) ∧
    Materializes dir (Failed answers) (decide (exitStatus result = 0)) (linesOf input) outputs ∧
    (exitStatus result = 0 → outputs ≠ []) := by
  suffices h : ∀ result outputs,
      main answers [program, script, dir] memory (fun _ => some input) = (result, outputs) →
      Materializes dir (Failed answers) (decide (exitStatus result = 0)) (linesOf input) outputs ∧
      (exitStatus result = 0 → outputs ≠ []) by
    obtain ⟨hm, hn⟩ := h _ _ rfl
    exact ⟨hm.confined, hm, hn⟩
  intro result outputs h
  simp only [main] at h
  split at h
  case isTrue => cases h; exact ⟨.stop rfl, by simp [exitStatus, status_ne_zero]⟩
  case isFalse =>
    split at h
    case h_1 e outputs ho =>
      cases h
      obtain ⟨new, hn, hm, _⟩ := objects_materializes hz ho
      subst hn
      have he : exitStatus (.error e) ≠ 0 := status_ne_zero
      exact ⟨(decide_eq_false he).symm ▸ hm, fun h => absurd h he⟩
    case h_2 s outputs ho =>
      obtain ⟨new, hn, hm, hw⟩ := objects_materializes hz ho
      subst hn
      split at h
      case h_1 => cases h; exact ⟨hm.fail, by simp [exitStatus, status_ne_zero]⟩
      case h_2 =>
        split at h
        case isTrue => cases h; exact ⟨hm.fail, by simp [exitStatus, status_ne_zero]⟩
        case isFalse hs =>
          cases h
          refine ⟨hm, fun _ => ?_⟩
          simpa using hw s rfl (by simpa using hs)

theorem main_faithful_object :
    let (_, outputs) := main (fun _ => .done) [bytes "materialize", bytes "script", bytes "out"] true
      fun _ => some (bytes "cat > a.ob <<EOF\nx\nEOF\n")
    ∀ output ∈ outputs, ∃ name, ValidName name ∧ output.path = bytes "out" ++ chSlash :: name :=
  (main_faithful (bytes "materialize") (bytes "script") (bytes "out") true (by decide)).1

end Hcc.Materialize
