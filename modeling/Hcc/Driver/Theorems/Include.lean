import Hcc.Driver.Include
import Hcc.Preprocessor.Theorems.Provenance
import Mathlib.Tactic.SplitIfs
import Mathlib.Tactic.Tauto

open Fueled

-- The include walk and the final pass over its text.
namespace Hcc

variable {fs : FileSystem} {includeDirs : List (List Char)} {fuel nesting : Nat}
variable {key line rest text file : List Char} {ls ls' : List (List Char)} {once once' : SymbolSet}
variable {macros macros' macros'' : Macros} {frames frames' frames'' outer : List IfFrame}
variable {ef : SymbolSet → Macros → List Char → Walk WalkResult}

-- The directives of the lines, as the final pass handles them.
def directivePass (fuel : Nat) (macros : Macros) (frames : List IfFrame) :
    List (List Char) → Expand (Macros × List IfFrame)
  | []           => return (macros, frames)
  | line :: rest => do
    let (macros', frames') ← handleDirective macros frames fuel readSourceWithIncludes.sp (.ofList line)
    directivePass fuel macros' frames' rest

-- The errors that the walk leaves to the final pass.
def LeftOver (e : PreprocessError) : Prop :=
  e.message = "#ifdef without macro name" ∨ e.message = "#ifndef without macro name" ∨
    ∃ name, e.message = "unsupported directive: #" ++ name

-- The pass over the lines ends in the second state, or with an error that has been left to it.
def Agrees (fuel : Nat) (macros : Macros) (frames : List IfFrame) (ls : List (List Char))
    (macros' : Macros) (frames' : List IfFrame) : Prop :=
  directivePass fuel macros frames ls = done (.ok (macros', frames')) ∨
    ∃ e, directivePass fuel macros frames ls = done (.error e) ∧ LeftOver e

section Lines

theorem lines_cons (h : c ≠ '\n') :
    textLines (c :: text) = (c :: (textLines text).headD []) :: (textLines text).tail := by
  rw [textLines]
  · cases textLines text <;> rfl
  · exact h

theorem lines_newline (h : '\n' ∉ line) : textLines (line ++ '\n' :: text) = line :: textLines text := by
  induction line
  case nil            => rfl
  case cons c line hi =>
    rw [List.cons_append, lines_cons (List.ne_of_not_mem_cons h).symm, hi <| List.not_mem_of_not_mem_cons h]
    rfl

theorem newline_notMem_lines (h : line ∈ textLines text) : '\n' ∉ line := by
  induction text generalizing line
  case nil            => contradiction
  case cons c text hi =>
    by_cases hc : c = '\n'
    case pos =>
      subst hc
      cases h
      case head   => exact List.not_mem_nil
      case tail h => exact hi h
    case neg =>
      rw [lines_cons hc] at h
      cases h
      case tail h => exact hi <| List.mem_of_mem_tail h
      case head   =>
        apply List.not_mem_cons_of_ne_of_not_mem (Ne.symm hc)
        cases hl : textLines text
        case nil       => exact List.not_mem_nil
        case cons l ls => exact @hi l <| hl ▸ List.mem_cons_self

theorem lines_flatMap_keep (h : ∀ line ∈ ls, '\n' ∉ line) :
    textLines (ls.flatMap expandLine.keep ++ text) = ls ++ textLines text := by
  induction ls
  case nil             => rfl
  case cons line ls hi =>
    have hn := List.forall_mem_cons.mp h
    rw [List.flatMap_cons, expandLine.keep, List.append_assoc, List.append_assoc]
    exact (lines_newline hn.left).trans <| congrArg _ <| hi hn.right

end Lines

section Frames

theorem ifStackActive_append (ho : ifStackActive outer = true) :
    ifStackActive (frames ++ outer) = ifStackActive frames := by
  cases frames
  case nil  => exact ho
  case cons => rfl

-- The groups of the including files are not touched.
theorem applyIfDirective_append {directive : IfDirective} (ho : ifStackActive outer = true)
    (h : applyIfDirective frames directive = some frames') :
    applyIfDirective (frames ++ outer) directive = some (frames' ++ outer) := by
  cases directive
  case «if» =>
    obtain rfl := Option.some.inj h
    rw [applyIfDirective, pushIfFrame, ifStackActive_append ho]
    rfl
  all_goals
    cases frames
    case nil  => cases h
    case cons => exact Option.some.inj h ▸ rfl

theorem elifEligible_append (h : applyIfDirective frames (.elif condition) ≠ none) :
    elifEligible (frames ++ outer) = elifEligible frames := by
  cases frames
  case nil  => exact absurd rfl h
  case cons => rfl

end Frames

section Pass

theorem directivePass_append :
    directivePass fuel macros frames (ls ++ ls') =
      directivePass fuel macros frames ls >>= fun result => directivePass fuel result.1 result.2 ls' := by
  induction ls generalizing macros frames
  case nil          => rfl
  case cons line ls hi =>
    simp only [List.cons_append, directivePass, bind_assoc]
    exact congrArg _ <| funext fun _ => hi

theorem Agrees.append (h : Agrees fuel macros frames ls macros' frames')
    (h' : Agrees fuel macros' frames' ls' macros'' frames'') :
    Agrees fuel macros frames (ls ++ ls') macros'' frames'' := by
  simp only [Agrees, directivePass_append]
  rcases h with h | ⟨e, h, hl⟩
  · rw [h, done_ok_bind]
    exact h'
  · exact .inr ⟨e, by rw [h, done_error_bind], hl⟩

theorem Agrees.nil : Agrees fuel macros frames [] macros frames :=
  .inl rfl

theorem Agrees.single (h : handleDirective macros frames fuel readSourceWithIncludes.sp (.ofList line) =
    done (.ok (macros', frames'))) : Agrees fuel macros frames [line] macros' frames' :=
  .inl <| by rw [directivePass, h]; rfl

theorem Agrees.error {e : PreprocessError}
    (h : handleDirective macros frames fuel readSourceWithIncludes.sp (.ofList line) = done (.error e))
    (hl : LeftOver e) : Agrees fuel macros frames [line] macros' frames' :=
  .inr ⟨e, by rw [directivePass, h]; rfl, hl⟩

-- The directives that neither define a name nor open or close a group.
theorem handleDirective_other {text : String} (hd : parseDirective text = ⟨name, rest⟩)
    (hn : name ∉ ["define", "undef", "include", "ifdef", "ifndef", "if", "elif", "else", "endif"]) :
    handleDirective macros frames fuel sp text = done (.ok (macros, frames)) ∨
      handleDirective macros frames fuel sp text =
        done (.error ⟨sp.start, "unsupported directive: #" ++ name⟩) := by
  simp only [handleDirective, hd]
  split
  case h_10 => exact .inl rfl
  case h_11 =>
    split_ifs
    · exact .inl rfl
    · exact .inr rfl
    · exact .inl rfl
  all_goals exact absurd (by simp) hn

end Pass

section Walk

theorem requirePP_eq_ok {r : Expand α} {a : α} : requirePP r = done (.ok a) ↔ r = done (.ok a) := by
  rcases Fueled.cases r with rfl | ⟨e, rfl⟩ | ⟨b, rfl⟩
  · exact iff_of_false outOfFuel_ne_done outOfFuel_ne_done
  · exact iff_of_false (by rintro ⟨⟩) (by rintro ⟨⟩)
  · exact done_inj.trans <| by simp

-- The text of a walk is that of lines that the final pass handles as the walk has done.
def Walks (fuel : Nat) (macros : Macros) (frames : List IfFrame) (text : List Char)
    (macros' : Macros) (frames' : List IfFrame) : Prop :=
  ∃ ls, text = ls.flatMap expandLine.keep ∧ (∀ line ∈ ls, '\n' ∉ line) ∧
    ∀ outer, ifStackActive outer = true → Agrees fuel macros (frames ++ outer) ls macros' (frames' ++ outer)

theorem Walks.append {text' : List Char} (h : Walks fuel macros frames text macros' frames')
    (h' : Walks fuel macros' frames' text' macros'' frames'') :
    Walks fuel macros frames (text ++ text') macros'' frames'' := by
  obtain ⟨ls, rfl, hn, ha⟩ := h
  obtain ⟨ls', rfl, hn', ha'⟩ := h'
  exact ⟨ls ++ ls', List.flatMap_append.symm, List.forall_mem_append.mpr ⟨hn, hn'⟩,
    fun outer ho => (ha outer ho).append (ha' outer ho)⟩

theorem Walks.nil : Walks fuel macros frames [] macros frames :=
  ⟨[], rfl, by simp, fun _ _ => .nil⟩

theorem Walks.keep (hn : '\n' ∉ line) (h : ∀ outer, ifStackActive outer = true →
    Agrees fuel macros (frames ++ outer) [line] macros' (frames' ++ outer)) :
    Walks fuel macros frames (expandLine.keep line) macros' frames' :=
  ⟨[line], (List.append_nil _).symm, by simpa using hn, h⟩

-- A conditional directive ends in the groups of the walk, below which are those of the including files.
theorem Walks.condition {directive : IfDirective} (hn : '\n' ∉ line)
    (hw : expandLine.condition key once macros frames line directive = done (.ok ((text, once', macros'), frames')))
    (h : ∀ outer frames', ifStackActive outer = true → applyIfDirective (frames ++ outer) directive = some frames' →
      applyIfDirective frames directive ≠ none → Agrees fuel macros (frames ++ outer) [line] macros frames') :
    Walks fuel macros frames text macros' frames' := by
  unfold expandLine.condition at hw
  split at hw
  case h_2 => cases hw
  case h_1 hd =>
    cases hw
    exact .keep hn fun outer ho => h outer _ ho (applyIfDirective_append ho hd) <| by simp [hd]

theorem expandLine_walks (hf : ∀ once macros file text once' macros',
      ef once macros file = done (.ok (text, once', macros')) → Walks fuel macros [] text macros' [])
    (hn : '\n' ∉ line)
    (hw : expandLine fs includeDirs fuel ef key once macros frames line =
      done (.ok ((text, once', macros'), frames'))) :
    Walks fuel macros frames text macros' frames' := by
  unfold expandLine at hw
  rcases hd : parseDirective (.ofList line) with ⟨name, rest⟩
  simp only [hd] at hw
  split at hw
  case h_1 =>
    refine .condition hn hw fun outer frames' ho ha _ => ?_
    cases hr : directiveName rest
    case none      => exact .error (by simp only [handleDirective, hd, hr]; rfl) <| .inl rfl
    case some name =>
      refine .single ?_
      simp only [hr, Option.map_some, Option.getD_some] at ha
      simp only [handleDirective, hd, hr, startIf, ha]
      rfl
  case h_2 =>
    refine .condition hn hw fun outer frames' ho ha _ => ?_
    cases hr : directiveName rest
    case none      => exact .error (by simp only [handleDirective, hd, hr]; rfl) <| .inr <| .inl rfl
    case some name =>
      refine .single ?_
      simp only [hr, Option.map_some, Option.getD_some] at ha
      simp only [handleDirective, hd, hr, startIf, ha]
      rfl
  case h_3 =>
    obtain ⟨value, hv, hw⟩ := bind_eq_done_ok.mp hw
    refine .condition hn hw fun outer frames' ho ha _ => .single ?_
    simp only [handleDirective, hd, ifStackActive_append ho, requirePP_eq_ok.mp hv, startIf, done_ok_bind, ha]
    rfl
  case h_4 =>
    obtain ⟨value, hv, hw⟩ := bind_eq_done_ok.mp hw
    refine .condition hn hw fun outer frames' ho ha hf => .single ?_
    simp only [handleDirective, hd, elifEligible_append hf, requirePP_eq_ok.mp hv, replaceElif, done_ok_bind, ha]
    rfl
  case h_5 | h_6 =>
    refine .condition hn hw fun outer frames' ho ha _ => .single ?_
    simp only [handleDirective, hd, replaceElse, popIf, ha]
    rfl
  case h_7 =>
    split at hw
    case isFalse ha =>
      cases hw
      refine .keep hn fun outer ho => .single ?_
      simp only [handleDirective, hd, ifStackActive_append ho, if_neg ha]
      rfl
    case isTrue ha =>
      obtain ⟨definition, hm, hw⟩ := bind_eq_done_ok.mp hw
      cases hw
      refine .keep hn fun outer ho => .single ?_
      simp only [handleDirective, hd, ifStackActive_append ho, if_pos ha, requirePP_eq_ok.mp hm]
      rfl
  case h_8 =>
    split at hw
    case isFalse ha =>
      cases hw
      refine .keep hn fun outer ho => .single ?_
      simp only [handleDirective, hd, ifStackActive_append ho, if_neg ha]
      rfl
    case isTrue ha =>
      unfold expandLine.undef at hw
      split at hw
      case h_2    => cases hw
      case h_1 hr =>
        cases hw
        refine .keep hn fun outer ho => .single ?_
        simp only [handleDirective, hd, ifStackActive_append ho, if_pos ha, hr]
        rfl
  case h_9 =>
    have hp outer : Agrees fuel macros (frames ++ outer) [line] macros (frames ++ outer) :=
      .single <| by simp [handleDirective, hd, ignoredDirectives]
    split at hw
    all_goals
      cases hw
      exact .keep hn fun outer _ => hp outer
  case h_10 =>
    split at hw
    case isFalse ha =>
      cases hw
      refine .keep hn fun outer ho => .single ?_
      simp only [handleDirective, hd, ifStackActive_append ho, if_neg ha]
      rfl
    case isTrue ha =>
      obtain ⟨request, _, hw⟩ := bind_eq_done_ok.mp hw
      split at hw
      case h_1 => cases hw
      case h_2 =>
        split at hw
        case h_1 => cases hw
        case h_2 =>
          obtain ⟨_, he, hw⟩ := bind_eq_done_ok.mp hw
          cases hw
          obtain ⟨ls, ht, hn, h⟩ := hf _ _ _ _ _ _ he
          exact ⟨ls, ht, hn, fun outer ho => h (frames ++ outer) <| (ifStackActive_append ho).trans ha⟩
  case h_11 =>
    cases hw
    refine .keep hn fun outer ho => ?_
    rcases handleDirective_other hd (by simp; tauto) with h | h
    · exact .single h
    · exact .error h <| .inr <| .inr ⟨name, rfl⟩

theorem expandLines_walks (hf : ∀ once macros file text once' macros',
      ef once macros file = done (.ok (text, once', macros')) → Walks fuel macros [] text macros' [])
    (hn : ∀ line ∈ ls, '\n' ∉ line)
    (hw : expandLines fs includeDirs fuel ef key once macros frames ls = done (.ok (text, once', macros'))) :
    Walks fuel macros frames text macros' [] := by
  induction ls generalizing once macros frames text
  case nil =>
    rw [expandLines] at hw
    split at hw
    case isFalse   => cases hw
    case isTrue he =>
      cases hw
      exact he ▸ .nil
  case cons line ls hi =>
    obtain ⟨⟨⟨_, _, _⟩, _⟩, hl, hw⟩ := bind_eq_done_ok.mp hw
    obtain ⟨⟨_, _, _⟩, hr, hw⟩ := bind_eq_done_ok.mp hw
    cases hw
    have hn := List.forall_mem_cons.mp hn
    exact (expandLine_walks hf hn.left hl).append <| hi hn.right hr

-- Each file contributes lines that close the groups that they open.
theorem expandFile_walks
    (hw : expandFile fs includeDirs fuel nesting once macros file = done (.ok (text, once', macros'))) :
    Walks fuel macros [] text macros' [] := by
  induction nesting generalizing once macros file text once' macros'
  case zero =>
    rw [expandFile] at hw
    split at hw
    case isFalse => cases hw
    case isTrue  =>
      cases hw
      exact .nil
  case succ nesting hi =>
    rw [expandFile] at hw
    split at hw
    case isTrue  =>
      cases hw
      exact .nil
    case isFalse =>
      split at hw
      case h_1 => cases hw
      case h_2 => exact expandLines_walks (fun _ _ _ _ _ _ => hi) (fun _ => newline_notMem_lines) hw

section Defines

variable {defines : List (List Char × List Char)} {path : List Char}

theorem renderDefines.line_eq (define) : renderDefines.line define =
    ['#', 'd', 'e', 'f', 'i', 'n', 'e', ' '] ++ (define.1 ++ ' ' :: define.2) :=
  congrArg (· ++ _) String.toList_ofList

theorem dropSpaces_dropSpaces : dropSpaces (dropSpaces text) = dropSpaces text := by
  induction text
  case nil            => rfl
  case cons c text hi =>
    by_cases hc : isSpaceChar c
    case pos => simpa [dropSpaces, hc] using hi
    case neg => simp [dropSpaces, hc]

theorem parseDirective_define (define) : parseDirective (.ofList (renderDefines.line define)) =
    ⟨"define", dropSpaces (define.1 ++ ' ' :: define.2)⟩ := by
  rw [parseDirective, String.toList_ofList, renderDefines.line_eq]
  rfl

theorem defineMacro_dropSpaces : defineMacro macros sp (dropSpaces text) = defineMacro macros sp text := by
  simp only [defineMacro, parseMacroDefinition, dropSpaces_dropSpaces]

theorem agrees_defines (h : defines.foldlM addDefine macros = .ok macros') :
    Agrees fuel macros [] (defines.map renderDefines.line) macros' [] := by
  induction defines generalizing macros
  case nil =>
    cases h
    exact .nil
  case cons define defines hi =>
    obtain ⟨_, hd, h⟩ := Except.bind_eq_ok.mp h
    refine @Agrees.append _ [renderDefines.line define] _ _ _ _ _ _ _ (.single ?_) (hi h)
    have hm := (@defineMacro_dropSpaces _ macros readSourceWithIncludes.sp).trans hd
    simp only [handleDirective, parseDirective_define, ifStackActive, if_true, hm]
    rfl

theorem lines_renderDefines (hn : ∀ define ∈ defines, '\n' ∉ define.1 ∧ '\n' ∉ define.2) :
    textLines (renderDefines defines ++ text) = defines.map renderDefines.line ++ textLines text := by
  have h : renderDefines defines = (defines.map renderDefines.line).flatMap expandLine.keep := by
    induction defines
    case nil                    => rfl
    case cons define defines hi =>
      rw [renderDefines, hi fun define hd => hn define (.tail _ hd), List.map_cons, List.flatMap_cons,
        expandLine.keep, List.append_assoc]
      rfl
  rw [h, lines_flatMap_keep]
  intro line hl
  obtain ⟨define, hd, rfl⟩ := List.mem_map.mp hl
  have hd := hn define hd
  simp [renderDefines.line_eq, hd.left, hd.right]

end Defines

-- A file that includes another one.
def twoFiles : FileSystem where
  canonicalize := id
  exists? path := path = ['.', '/', 'h']
  read path    := if path = ['c'] then some ['#', 'i', 'n', 'c', 'l', 'u', 'd', 'e', '"', 'h', '"', '\n', 'y'] else
                  if path = ['.', '/', 'h'] then some ['#', 'd', 'e', 'f', 'i', 'n', 'e', ' ', 'y'] else none

instance : DecidableEq (Walk (List Char)) :=
  inferInstanceAs <| DecidableEq (Option (Except String (List Char)))

theorem twoFiles_text : readSourceWithIncludes twoFiles [] 0 [(['x'], ['1'])] ['c'] =
    done (.ok ['#', 'd', 'e', 'f', 'i', 'n', 'e', ' ', 'y', '\n', 'y', '\n']) :=
  by decide +kernel

end Walk
end Hcc
