import Hcc.ConstExpr.Theorems.Termination
import Hcc.Library.ConditionalGroups
import Hcc.Preprocessor.Conditional
import Hcc.Preprocessor.Theorems.Termination

open Fueled ConditionalGroups

namespace Hcc

variable {macros : Macros}

theorem evalIf_terminates (macros) (text) : Terminates (evalIf macros · text) := by
  unfold evalIf
  cases lexC (.ofList text)
  case error e => exact .done
  case ok toks =>
    simp only [pure_eq_done, done_ok_bind, liftM_eq_done]
    cases replaceDefinedOperators macros toks
    case error e => exact .done
    case ok replaced =>
      simp only [done_ok_bind]
      apply Terminates.bind
      · have ⟨result, n, h, _⟩ := expandSource_terminates macros (sourceFromTokens replaced)
        exact Terminates.bind ⟨result, n, h⟩ fun _ _ => .done
      · intro expanded _
        have ⟨result, hr⟩ := parsePPConstExpr_terminates expanded
        simp only [hr]
        split
        case h_1 h => cases h
        all_goals exact .done

section Semantics

-- The role of a token. Other directives than the ones of conditional groups and macro definitions have
-- none, and so have `#ifdef` and `#ifndef` without a name.
def lineKind (tok : Token) : Option Kind :=
  match tok.kind with
  | .directive text =>
    let ⟨name, rest⟩ := parseDirective text
    match name with
    | "define" | "undef"   => some .change
    | "if"                 => some .if
    | "ifdef" | "ifndef"   => if (directiveName rest).isSome then some .if else none
    | "elif"               => some .elif
    | "else"               => some .else
    | "endif"              => some .endif
    | _                    => none
  | _ => some .text

noncomputable def conditionHolds (macros : Macros) (tok : Token) : Except PreprocessError Bool :=
  let ⟨name, rest⟩ := parseDirective (tokenText tok.kind)
  match name with
  | "ifdef"  => .ok <| (directiveName rest).any fun name => symbolMapMember name macros
  | "ifndef" => .ok <| (directiveName rest).any fun name => !symbolMapMember name macros
  | _        => (evalIf_terminates macros rest).choose

def changeMacros (macros : Macros) (tok : Token) : Except PreprocessError Macros :=
  let ⟨name, rest⟩ := parseDirective (tokenText tok.kind)
  match name with
  | "define" => defineMacro macros tok.span rest
  | _        =>
    match directiveName rest with
    | some name => .ok (symbolMapDelete name macros)
    | none      => .error ⟨tok.span.start, "#undef without macro name"⟩

noncomputable def directives : Semantics Macros Token PreprocessError where
  holds        := conditionHolds
  change       := changeMacros
  unterminated := ⟨⟨1, 1⟩, "unterminated conditional directive"⟩

-- The selected tokens do not name macros.
def PlainText (s : Selection Macros Token PreprocessError) : Prop :=
  ∀ macros tok, (macros, tok) ∈ s.texts → ∀ name, tok.kind = .ident name →
    symbolMapLookup name macros = none

end Semantics

section Steps

variable {m m' : Macros} {frames frames' : List IfFrame} {tok : Token} {lines out : List Token}
         {s : String} {r : Except PreprocessError (List Token)}

-- The preprocessor results in `r` when it continues with the given tokens, after the output `out`.
def Resumes (m : Macros) (frames : List IfFrame) (lines out : List Token)
    (r : Except PreprocessError (List Token)) : Prop :=
  ∀ toks acc, toks.map PPToken.token = lines → acc.map PPToken.token = out →
    Converges (preprocess.go · m frames toks acc) r

theorem Resumes.converges (h : Resumes symbolMapEmpty [] lines [] r) :
    Converges (preprocess · lines) r :=
  h _ _ (sourceFromTokens_tokens _ lines) rfl

theorem Resumes.done : Resumes m [] [] out (.ok out) := by
  rintro toks acc ht rfl
  obtain rfl := List.map_eq_nil_iff.mp ht
  exact .of_succ <| .const rfl

theorem Resumes.unterminated (hf : frames ≠ []) :
    Resumes m frames [] out (.error directives.unterminated) := by
  rintro toks acc ht rfl
  obtain rfl := List.map_eq_nil_iff.mp ht
  apply Converges.of_succ
  simp only [preprocess.go, List.isEmpty_iff, hf, if_false]
  exact .const rfl

theorem Resumes.directive (hk : tok.kind = .directive s)
    (hd : Converges (handleDirective m frames · tok.span s) (.ok (m', frames')))
    (h : Resumes m' frames' lines out r) : Resumes m frames (tok :: lines) out r := by
  rintro toks acc ht rfl
  obtain ⟨pp, toks, rfl, rfl, rfl⟩ := List.map_eq_cons_iff.mp ht
  apply Converges.of_succ
  simp only [preprocess.go, hk]
  exact hd.bind <| h toks acc rfl rfl

theorem Resumes.directive_error (hk : tok.kind = .directive s)
    (hd : Converges (handleDirective m frames · tok.span s) (.error e)) :
    Resumes m frames (tok :: lines) out (.error e) := by
  rintro toks acc ht rfl
  obtain ⟨pp, toks, rfl, rfl, rfl⟩ := List.map_eq_cons_iff.mp ht
  apply Converges.of_succ
  simp only [preprocess.go, hk]
  exact hd.bind_error

theorem not_directive (ht : lineKind tok = some .text) : tok.kind ≠ .directive s := by
  intro hk
  simp only [lineKind, hk] at ht
  split at ht <;> try split at ht
  all_goals simp at ht

theorem expandNextSource_plain {prescan} {pp : PPToken} {rest} 
    (hn : ∀ name, pp.token.kind = .ident name → symbolMapLookup name m = none) :
    expandNextSource prescan m (pp :: rest) = done (.ok ([pp], rest, false)) := by
  rw [expandNextSource]
  split
  case h_1 name hk =>
    rw [hn name hk]
    split <;> rfl
  case h_2 => rfl

theorem Resumes.text (ht : lineKind tok = some .text) (ha : ifStackActive frames)
    (hn : ∀ name, tok.kind = .ident name → symbolMapLookup name m = none)
    (h : Resumes m frames lines (out ++ [tok]) r) : Resumes m frames (tok :: lines) out r := by
  rintro toks acc hl rfl
  obtain ⟨pp, toks, rfl, rfl, rfl⟩ := List.map_eq_cons_iff.mp hl
  apply Converges.of_succ
  simp only [preprocess.go]
  split
  case h_1 hk => exact absurd hk (not_directive ht)
  case h_2 =>
    simp only [ha, if_true, expandNextSource_plain hn, done_ok_bind]
    exact h toks _ rfl (by simp)

theorem Resumes.skip (ht : lineKind tok = some .text) (ha : ifStackActive frames = false)
    (h : Resumes m frames lines out r) : Resumes m frames (tok :: lines) out r := by
  rintro toks acc hl rfl
  obtain ⟨pp, toks, rfl, rfl, rfl⟩ := List.map_eq_cons_iff.mp hl
  apply Converges.of_succ
  simp only [preprocess.go]
  split
  case h_1 hk => exact absurd hk (not_directive ht)
  case h_2 =>
    simp only [ha, Bool.false_eq_true, if_false]
    exact h toks _ rfl rfl

end Steps

section Directives

variable {m : Macros} {frames : List IfFrame} {frame : IfFrame} {tok : Token} {s : String}

inductive IsDirective : (name : String) → (rest : List Char) → Kind → Prop
  | define : IsDirective "define" rest .change
  | undef  : IsDirective "undef" rest .change
  | if     : IsDirective "if" rest .if
  | ifdef  (h : directiveName rest = some n) : IsDirective "ifdef" rest .if
  | ifndef (h : directiveName rest = some n) : IsDirective "ifndef" rest .if
  | elif   : IsDirective "elif" rest .elif
  | else   : IsDirective "else" rest .else
  | endif  : IsDirective "endif" rest .endif

theorem lineKind_cases (h : lineKind tok = some k) (hk : k ≠ .text) :
    ∃ s name rest, tok.kind = .directive s ∧ parseDirective s = ⟨name, rest⟩ ∧
      IsDirective name rest k := by
  have hn {rest k'} (h : (if (directiveName rest).isSome then some Kind.if else none) = some k') :
      k' = .if ∧ ∃ n, directiveName rest = some n := by
    cases hr : directiveName rest <;> simp_all
  simp only [lineKind] at h
  split at h
  case h_2 => exact absurd (Option.some.inj h).symm hk
  case h_1 s hs =>
    rcases hd : parseDirective s with ⟨name, rest⟩
    refine ⟨s, name, rest, hs, hd, ?_⟩
    simp only [hd] at h
    split at h
    case h_4 => obtain ⟨rfl, _, h⟩ := hn h; exact .ifdef h
    case h_5 => obtain ⟨rfl, _, h⟩ := hn h; exact .ifndef h
    case h_9 => contradiction
    all_goals cases h; constructor

theorem converges_map {x : Nat → Fueled ε α} {g : α → β} (h : Converges x r) :
    Converges (fun n => x n >>= fun a => done (.ok (g a))) (r.map g) := by
  cases r
  case error => exact h.bind_error
  case ok    => exact h.bind <| .const rfl

theorem evalIf_converges (rest) :
    Converges (evalIf m · rest) (evalIf_terminates m rest).choose :=
  (evalIf_terminates m rest).choose_spec

-- The result of handling a directive.
def Handles (m : Macros) (frames : List IfFrame) (tok : Token)
    (r : Except PreprocessError (Macros × List IfFrame)) : Prop :=
  ∃ s, tok.kind = .directive s ∧ Converges (handleDirective m frames · tok.span s) r

-- The condition of an active group is evaluated.
theorem handles_if (h : lineKind tok = some .if) (ha : ifStackActive frames) :
    Handles m frames tok ((conditionHolds m tok).map fun b => (m, ⟨true, b, b⟩ :: frames)) := by
  have ⟨s, name, rest, hs, hd, hn⟩ := lineKind_cases h nofun
  refine ⟨s, hs, ?_⟩
  have hp b : startIf frames b = ⟨true, b, b⟩ :: frames := by
    simp [startIf, applyIfDirective, pushIfFrame, ha]
  simp only [conditionHolds, hs, tokenText, handleDirective, hd, hp]
  cases hn
  case «if» =>
    simp only [evalEligibleIf, ha, if_true]
    exact converges_map <| evalIf_converges rest
  case ifdef h | ifndef h =>
    simp only [h]
    exact .const rfl

-- The condition of an inactive group is not evaluated.
theorem handles_if_inactive (h : lineKind tok = some .if) (ha : ifStackActive frames = false) :
    Handles m frames tok (.ok (m, ⟨false, false, false⟩ :: frames)) := by
  have ⟨s, name, rest, hs, hd, hn⟩ := lineKind_cases h nofun
  refine ⟨s, hs, ?_⟩
  have hp b : startIf frames b = ⟨false, false, false⟩ :: frames := by
    simp [startIf, applyIfDirective, pushIfFrame, ha]
  simp only [handleDirective, hd, hp]
  cases hn
  case «if» =>
    simp only [evalEligibleIf, ha]
    exact .const rfl
  case ifdef h | ifndef h =>
    simp only [h]
    exact .const rfl

theorem handles_elif (h : lineKind tok = some .elif) :
    Handles m (⟨true, false, active⟩ :: frames) tok
      ((conditionHolds m tok).map fun b => (m, ⟨true, b, b⟩ :: frames)) := by
  have ⟨s, name, rest, hs, hd, hn⟩ := lineKind_cases h nofun
  refine ⟨s, hs, ?_⟩
  cases hn
  simp only [conditionHolds, hs, tokenText, handleDirective, hd, elifEligible, replaceElif,
    applyIfDirective, replaceElifFrame, evalEligibleIf]
  exact converges_map <| evalIf_converges rest

theorem handles_elif_ineligible (h : lineKind tok = some .elif) (hf : elifEligible (frame :: frames) = false) :
    Handles m (frame :: frames) tok (.ok (m, { frame with active := false } :: frames)) := by
  have ⟨s, name, rest, hs, hd, hn⟩ := lineKind_cases h nofun
  refine ⟨s, hs, ?_⟩
  cases hn
  simp only [elifEligible] at hf
  simp only [handleDirective, hd, elifEligible, replaceElif, applyIfDirective, replaceElifFrame,
    evalEligibleIf, hf]
  simp
  exact .const rfl

theorem handles_else (h : lineKind tok = some .else) :
    Handles m (frame :: frames) tok (.ok (m, ⟨frame.parent, true, frame.parent && !frame.taken⟩ :: frames)) := by
  have ⟨s, name, rest, hs, hd, hn⟩ := lineKind_cases h nofun
  refine ⟨s, hs, ?_⟩
  cases hn
  simp only [handleDirective, hd]
  exact .const rfl

theorem handles_endif (h : lineKind tok = some .endif) :
    Handles m (frame :: frames) tok (.ok (m, frames)) := by
  have ⟨s, name, rest, hs, hd, hn⟩ := lineKind_cases h nofun
  refine ⟨s, hs, ?_⟩
  cases hn
  simp only [handleDirective, hd]
  exact .const rfl

theorem handles_change (h : lineKind tok = some .change) (ha : ifStackActive frames) :
    Handles m frames tok ((changeMacros m tok).map (·, frames)) := by
  have ⟨s, name, rest, hs, hd, hn⟩ := lineKind_cases h nofun
  refine ⟨s, hs, ?_⟩
  simp only [changeMacros, hs, tokenText, handleDirective, hd]
  cases hn
  case define =>
    simp only [ha, if_true]
    exact converges_map <| .const <| liftM_eq_done _
  case undef =>
    simp only [ha, if_true]
    cases directiveName rest
    all_goals exact .const rfl

theorem handles_change_inactive (h : lineKind tok = some .change) (ha : ifStackActive frames = false) :
    Handles m frames tok (.ok (m, frames)) := by
  have ⟨s, name, rest, hs, hd, hn⟩ := lineKind_cases h nofun
  refine ⟨s, hs, ?_⟩
  simp only [handleDirective, hd, ha]
  cases hn
  all_goals exact .const rfl

theorem handles_stray (h : lineKind tok = some k) (hk : k.Follows) :
    ∃ e, Handles m [] tok (.error e) := by
  have ⟨s, name, rest, hs, hd, hn⟩ := lineKind_cases h (by rintro rfl; simp [Kind.Follows] at hk)
  suffices hf : ∃ e, Converges (handleDirective m [] · tok.span s) (.error e) from
    hf.imp fun _ h => ⟨s, hs, h⟩
  rcases hk with rfl | rfl | rfl <;> cases hn <;> simp only [handleDirective, hd]
  all_goals exact ⟨_, .const rfl⟩

theorem Resumes.handled (hh : Handles m frames tok (.ok (m', frames')))
    (h : Resumes m' frames' lines out r) : Resumes m frames (tok :: lines) out r :=
  have ⟨_, hs, hd⟩ := hh
  .directive hs hd h

theorem Resumes.handled_error (hh : Handles m frames tok (.error e)) :
    Resumes m frames (tok :: lines) out (.error e) :=
  have ⟨_, hs, hd⟩ := hh
  .directive_error hs hd

end Directives

section Skip

-- What happens after lines that are not selected. If a conditional is left open in these lines, then
-- the tokens end there.
def Leaves (closed : Prop) (m : Macros) (frames : List IfFrame) (lines out : List Token)
    (r : Except PreprocessError (List Token)) : Prop :=
  closed ∧ Resumes m frames lines out r ∨ lines = [] ∧ r = .error directives.unterminated

-- A branch that is not selected is followed by the remaining branches.
theorem Leaves.body {body : Passage lineKind} {tail : Branches lineKind}
    (h : Leaves (body.Closed ∧ tail.Closed) m frames lines out r)
    (hc : body.Closed ∨ tail = .missing)
    (ht : Leaves tail.Closed m frames lines out r → Resumes m frames' (tail.lines ++ lines) out r) :
    Leaves body.Closed m frames' (tail.lines ++ lines) out r := by
  rcases hc with hb | rfl
  case inl => exact .inl ⟨hb, ht <| h.imp_left fun h => ⟨h.left.right, h.right⟩⟩
  case inr =>
    rcases h with ⟨⟨_, hf⟩, _⟩ | ⟨rfl, rfl⟩
    case inl => exact hf.elim
    case inr => exact .inr ⟨rfl, rfl⟩

mutual

theorem skip_passage {frames lines} (g : Passage lineKind) (hp : g.Proper) (ha : ifStackActive frames = false)
    (h : Leaves g.Closed m frames lines out r) : Resumes m frames (g.lines ++ lines) out r := by
  cases g
  case done =>
    rcases h with ⟨_, h⟩ | ⟨rfl, rfl⟩
    case inl => exact h
    case inr => exact .unterminated (by rintro rfl; simp [ifStackActive] at ha)
  case text t rest => exact .skip t.property ha <| skip_passage rest hp ha h
  case change t rest =>
    exact .handled (handles_change_inactive t.property ha) <| skip_passage rest hp ha h
  case «if» t body tail =>
    have ⟨hb, ht, hc⟩ := hp
    rw [Passage.lines, List.cons_append, List.append_assoc]
    refine .handled (handles_if_inactive t.property ha) <| skip_passage body hb rfl ?_
    exact h.body hc <| skip_branches tail ht ha rfl

theorem skip_branches {frame frames lines} (b : Branches lineKind) (hp : b.Proper) (ha : ifStackActive frames = false)
    (hf : frame.parent = false) (h : Leaves b.Closed m frames lines out r) :
    Resumes m (frame :: frames) (b.lines ++ lines) out r := by
  cases b
  case missing =>
    rcases h with ⟨hf, _⟩ | ⟨rfl, rfl⟩
    case inl => exact hf.elim
    case inr => exact .unterminated nofun
  case endif t rest => exact .handled (handles_endif t.property) <| skip_passage rest hp ha h
  case elif t body tail =>
    have ⟨hb, ht, hc⟩ := hp
    rw [Branches.lines, List.cons_append, List.append_assoc]
    have he : elifEligible (frame :: frames) = false := by simp [elifEligible, hf]
    refine .handled (handles_elif_ineligible t.property he) <| skip_passage body hb rfl ?_
    exact h.body hc <| skip_branches tail ht ha hf
  case «else» t body tail =>
    have ⟨hb, ht, hc⟩ := hp
    rw [Branches.lines, List.cons_append, List.append_assoc]
    refine .handled (handles_else t.property) <| skip_passage body hb (by simp [ifStackActive, hf]) ?_
    exact h.body hc <| skip_branches tail ht ha hf

end

end Skip

section Select

-- What happens after lines that are selected.
structure Continues (s : Selection Macros Token PreprocessError) (frames : List IfFrame)
    (lines out : List Token) (r : Except PreprocessError (List Token)) : Prop where
  plain : PlainText s
  ok m  : s.outcome = .ok m → Resumes m frames lines (out ++ s.texts.map (·.2)) r
  error : s.outcome = .error e → r = .error e

theorem Continues.stop (h : Continues (.stop e) frames lines out r) : r = .error e :=
  h.error rfl

theorem Continues.cons (h : Continues (s.cons (m, tok)) frames lines out r) :
    Continues s frames lines (out ++ [tok]) r where
  plain   := fun m' t ht => h.plain m' t <| .tail _ ht
  ok m ho := by simpa [Selection.cons] using h.ok m ho
  error   := h.error

theorem Continues.andThen {f : Macros → Selection Macros Token PreprocessError}
    (h : Continues (s.andThen f) frames lines out r)
    (hf : ∀ m, Continues (f m) frames lines (out ++ s.texts.map (·.2)) r →
      Resumes m frames' lines' (out ++ s.texts.map (·.2)) r) :
    Continues s frames' lines' out r := by
  have ⟨hp, ho, he⟩ := h
  unfold Selection.andThen at hp ho he
  constructor
  case plain =>
    intro m t ht
    cases hs : s.outcome <;> simp only [hs] at hp
    case error => exact hp m t ht
    case ok    => exact hp m t <| List.mem_append_left _ ht
  case ok =>
    intro m hs
    simp only [hs] at hp ho he
    refine hf m ⟨fun m' t ht => hp m' t <| List.mem_append_right _ ht, fun m' hm => ?_, he⟩
    simpa using ho m' hm
  case error =>
    intro e hs
    simp only [hs] at he
    exact he rfl

section Bodies

variable {body : Passage lineKind} {tail : Branches lineKind} {lines : List Token}
         (hc : body.Closed ∨ tail = .missing) (hl : body.Closed ∧ tail.Closed ∨ lines = [])

include hc hl

theorem closed_or_nil : body.Closed ∨ tail.lines ++ lines = [] := by
  rcases hc with hb | rfl
  case inl => exact .inl hb
  case inr =>
    rcases hl with ⟨_, hf⟩ | rfl
    case inl => exact hf.elim
    case inr => exact .inr rfl

theorem Leaves.of_continues (h : Continues (tail.select directives taken m) frames lines out r)
    (ht : Resumes m frames' (tail.lines ++ lines) out r) :
    Leaves body.Closed m frames' (tail.lines ++ lines) out r := by
  rcases hc with hb | rfl
  case inl => exact .inl ⟨hb, ht⟩
  case inr =>
    rcases hl with ⟨_, hf⟩ | rfl
    case inl => exact hf.elim
    case inr => exact .inr ⟨rfl, h.stop⟩

end Bodies

mutual

theorem select_passage {m frames lines out} (g : Passage lineKind) (hp : g.Proper) (ha : ifStackActive frames)
    (hl : g.Closed ∨ lines = []) (h : Continues (g.select directives m) frames lines out r) :
    Resumes m frames (g.lines ++ lines) out r := by
  cases g
  case done => simpa [Passage.select, Passage.lines] using h.ok m rfl
  case text t rest =>
    exact .text t.property ha (h.plain m t (.head _)) <| select_passage rest hp ha hl h.cons
  case change t rest =>
    have hd := handles_change (m := m) t.property ha
    cases hm : changeMacros m t <;> simp only [Passage.select, directives, hm] at h hd
    case error e => exact h.stop ▸ .handled_error hd
    case ok m'   => exact .handled hd <| select_passage rest hp ha hl h
  case «if» t body tail =>
    have ⟨hb, ht, hc⟩ := hp
    have hn := closed_or_nil hc hl
    have htl := hl.imp_left And.right
    have hd := handles_if (m := m) t.property ha
    rw [Passage.lines, List.cons_append, List.append_assoc]
    rcases hm : conditionHolds m t with e | _ | _ <;>
      simp only [Passage.select, directives, hm] at h hd
    case error       => exact h.stop ▸ .handled_error hd
    case ok.true     =>
      refine .handled hd <| select_passage body hb rfl hn <| h.andThen fun m' h => ?_
      exact select_branches tail ht ha htl h
    case ok.false    =>
      refine .handled hd <| skip_passage body hb rfl <| .of_continues hc hl h ?_
      exact select_branches tail ht ha htl h

theorem select_branches {m taken active frames lines out} (b : Branches lineKind) (hp : b.Proper) (ha : ifStackActive frames)
    (hl : b.Closed ∨ lines = []) (h : Continues (b.select directives taken m) frames lines out r) :
    Resumes m (⟨true, taken, active⟩ :: frames) (b.lines ++ lines) out r := by
  cases b
  case missing =>
    obtain rfl : lines = [] := hl.resolve_left id
    exact h.stop ▸ .unterminated nofun
  case endif t rest => exact .handled (handles_endif t.property) <| select_passage rest hp ha hl h
  case elif t body tail =>
    have ⟨hb, ht, hc⟩ := hp
    have hn := closed_or_nil hc hl
    have htl := hl.imp_left And.right
    rw [Branches.lines, List.cons_append, List.append_assoc]
    cases taken <;> simp only [Branches.select, if_true, Bool.false_eq_true, if_false] at h
    case true =>
      refine .handled (handles_elif_ineligible t.property rfl) ?_
      exact skip_passage body hb rfl <| .of_continues hc hl h <| select_branches tail ht ha htl h
    case false =>
      have hd : Handles m (⟨true, false, active⟩ :: frames) t _ := handles_elif t.property
      rcases hm : conditionHolds m t with e | _ | _ <;> simp only [directives, hm] at h hd
      case error    => exact h.stop ▸ .handled_error hd
      case ok.true  =>
        refine .handled hd <| select_passage body hb rfl hn <| h.andThen fun m' h => ?_
        exact select_branches tail ht ha htl h
      case ok.false =>
        refine .handled hd <| skip_passage body hb rfl <| .of_continues hc hl h ?_
        exact select_branches tail ht ha htl h
  case «else» t body tail =>
    have ⟨hb, ht, hc⟩ := hp
    have hn := closed_or_nil hc hl
    have htl := hl.imp_left And.right
    rw [Branches.lines, List.cons_append, List.append_assoc]
    refine .handled (handles_else t.property) ?_
    cases taken <;> simp only [Branches.select, if_true, Bool.false_eq_true, if_false] at h
    case true =>
      exact skip_passage body hb rfl <| .of_continues hc hl h <| select_branches tail ht ha htl h
    case false =>
      refine select_passage body hb rfl hn <| h.andThen fun m' h => ?_
      exact select_branches tail ht ha htl h

end

end Select

section Sequences

variable {toks rest : List Token} {g : Passage lineKind}
         (hd : Decomposition toks g rest) (hp : PlainText (g.select directives symbolMapEmpty))

include hd hp

theorem preprocess_nested (hw : WellNested g rest) :
    Converges (preprocess · toks) (g.select directives symbolMapEmpty).result := by
  obtain ⟨hc, rfl⟩ := hw
  rw [hd.lines]
  refine Resumes.converges <| select_passage g hd.proper rfl (.inr rfl) ⟨hp, fun m hm => ?_, fun hm => ?_⟩
  case _ => simpa [Selection.result, hm] using .done
  case _ => simp only [Selection.result, hm, Except.map]

theorem preprocess_not_nested (hw : ¬WellNested g rest) :
    ∃ e, Converges (preprocess · toks) (.error e) := by
  rw [hd.lines]
  suffices h : ∃ e, (g.Closed ∨ rest = []) ∧
      Continues (g.select directives symbolMapEmpty) [] rest [] (.error e) from
    have ⟨e, hl, hc⟩ := h
    ⟨e, Resumes.converges <| select_passage g hd.proper rfl hl hc⟩
  rcases hd.ends with rfl | ⟨hc, t, ts, k, rfl, ht, hk⟩
  case inl =>
    have ⟨e, he⟩ : ∃ e, (g.select directives symbolMapEmpty).outcome = .error e :=
      g.select_open symbolMapEmpty hd.proper fun hc => hw ⟨hc, rfl⟩
    exact ⟨e, .inr rfl, hp, fun m hm => (nomatch he.symm.trans hm),
      fun hm => congrArg _ <| Except.error.inj <| he.symm.trans hm⟩
  case inr =>
    cases ho : (g.select directives symbolMapEmpty).outcome
    case error e =>
      exact ⟨e, .inl hc, hp, fun m hm => (nomatch ho.symm.trans hm),
        fun hm => congrArg _ <| Except.error.inj <| ho.symm.trans hm⟩
    case ok m =>
      have ⟨e, he⟩ := handles_stray (m := m) ht hk
      refine ⟨e, .inl hc, hp, fun m' hm => ?_, fun hm => (nomatch ho.symm.trans hm)⟩
      obtain rfl := Except.ok.inj <| ho.symm.trans hm
      exact .handled_error he

end Sequences

-- A sequence of text and of directives for conditional groups and macro definitions has a group
-- structure. If it is well-nested, then the preprocessor results in the text that is selected by this
-- structure. Otherwise it fails.
theorem preprocess_groups {toks : List Token} (hk : ∀ tok ∈ toks, (lineKind tok).isSome) :
    (∃ (g : Passage lineKind) (rest : _), Decomposition toks g rest) ∧
    ∀ (g : Passage lineKind) rest, Decomposition toks g rest →
      PlainText (g.select directives symbolMapEmpty) →
      (WellNested g rest →
        Converges (preprocess · toks) (g.select directives symbolMapEmpty).result) ∧
      (¬WellNested g rest → ∃ e, Converges (preprocess · toks) (.error e)) :=
  ⟨exists_decomposition hk, fun _ _ hd hp => ⟨preprocess_nested hd hp, preprocess_not_nested hd hp⟩⟩

-- `#ifdef A`, `x`, `#else`, `y` and `#endif`.
def elsePassage : Passage lineKind :=
  .if ⟨bareToken (.directive "#ifdef A"), by decide⟩
    (.text ⟨bareToken (.ident "x"), rfl⟩ .done)
    (.else ⟨bareToken (.directive "#else"), by decide⟩
      (.text ⟨bareToken (.ident "y"), rfl⟩ .done)
      (.endif ⟨bareToken (.directive "#endif"), by decide⟩ .done))

theorem preprocess_elsePassage :
    Converges (preprocess · elsePassage.lines) (.ok [bareToken (.ident "y")]) := by
  have hk : ∀ tok ∈ elsePassage.lines, (lineKind tok).isSome := by decide
  have hw : WellNested elsePassage [] := by simp [WellNested, elsePassage, Passage.Closed, Branches.Closed]
  have hd : Decomposition elsePassage.lines elsePassage [] :=
    ⟨(List.append_nil _).symm, by simp [elsePassage, Passage.Proper, Branches.Proper, Passage.Closed], .inl rfl⟩
  have hh : conditionHolds symbolMapEmpty (bareToken (.directive "#ifdef A")) = .ok false := by
    decide
  have hs : elsePassage.select directives symbolMapEmpty =
      ⟨[(symbolMapEmpty, bareToken (.ident "y"))], .ok symbolMapEmpty⟩ := by
    simp only [elsePassage, Passage.select, directives, hh]
    rfl
  have hp : PlainText (elsePassage.select directives symbolMapEmpty) := by
    rw [hs]
    rintro _ _ (_ | ⟨_, ⟨⟩⟩) _ _
    rfl
  have h := ((preprocess_groups hk).right _ [] hd hp).left hw
  rwa [hs] at h

end Hcc
