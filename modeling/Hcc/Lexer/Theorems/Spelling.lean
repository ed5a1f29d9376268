import Hcc.Lexer.Theorems.Steps
import Mathlib.Data.List.Find
import Mathlib.Data.List.TakeWhile

namespace Hcc

-- The members of a list are inspected one by one, instead of all characters.
local instance (priority := 2000) decidableForallMem {p : α → Prop} [DecidablePred p] (as : List α) :
    Decidable (∀ a ∈ as, p a) :=
  List.decidableBAll p as

local instance (priority := 2000) decidableExistsMem {p : α → Prop} [DecidablePred p] (a : Option α) :
    Decidable (∃ b ∈ a, p b) :=
  Option.decidableExistsMem a

-- The text between the quotes of a literal.
inductive LiteralBody (quote : Char) : List Char → Prop
  | nil    : LiteralBody quote []
  | char   : c ≠ quote → c ≠ '\\' → c ≠ '\n' → LiteralBody quote body → LiteralBody quote (c :: body)
  | escape : LiteralBody quote body → LiteralBody quote ('\\' :: e :: body)

-- The text `x` is taken from the front of the input, if it is followed by `y`.
def Takes (take : LexState → List Char × LexState) (x y : List Char) : Prop :=
  ∀ pos bol, ∃ pos', take ⟨x ++ y, pos, bol⟩ = (x, ⟨y, pos', bol && x.isEmpty⟩)

-- The first character of the input is not accepted.
def Stops (p : Char → Bool) (y : List Char) : Prop :=
  ∀ c ∈ y.head?, p c = false

def isNumberChar (c : Char) : Bool :=
  isIdentChar c || c = '.' || c = '+' || c = '-'

structure NumberText (cls : NumberClass) (x : List Char) : Prop where
  head  : ∃ c ∈ x.head?, isDigitChar c
  chars : ∀ c ∈ x, isNumberChar c
  takes : ∀ pos bol rest, ∃ pos',
    takeNumber ⟨x ++ ' ' :: rest, pos, bol⟩ = .ok (x, cls, ⟨' ' :: rest, pos', false⟩)

-- The spelling of a token is lexed as this token.
def Spelled : TokenKind → Prop
  | .ident s     => (∃ c ∈ s.toList.head?, isIdentStart c) ∧ ∀ c ∈ s.toList, isIdentChar c
  | .int s       => NumberText .int s.toList
  | .float s     => NumberText .float s.toList
  | .char s      =>
    ∃ body, s.toList = '\'' :: (body ++ ['\'']) ∧ LiteralBody '\'' body ∧ validCharBody (charLiteralBody s.toList)
  | .string s    => ∃ body, s.toList = '"' :: (body ++ ['"']) ∧ LiteralBody '"' body
  | .punct s     => s ∈ punctuators
  | .directive _ => True

variable {st st' : LexState} {x y xs ys : List Char} {p q : Char → Bool}

section Stops

theorem stops_nil : Stops p [] :=
  fun _ h => nomatch h

theorem stops_cons (h : p c = false) : Stops p (c :: y) :=
  fun _ hc => Option.some.inj hc ▸ h

theorem stops_append (hx : Stops p x) (hy : x = [] → Stops p y) : Stops p (x ++ y) := by
  cases x
  case nil  => exact hy rfl
  case cons => exact hx

theorem Stops.left (h : Stops p (x ++ y)) : Stops p x := by
  cases x
  case nil  => exact stops_nil
  case cons => exact h

theorem stops_of_all (hx : ∀ c ∈ x, q c) (hq : ∀ c, q c → p c = false) : Stops p x :=
  fun c hc => hq c <| hx c <| List.mem_of_mem_head? hc

end Stops

section Takes

theorem takeWhileColumns_spec (h : takeWhileColumns p st = (x, st')) :
    (∀ c ∈ x, p c) ∧ Stops p st'.input ∧ st.input = x ++ st'.input := by
  have hs : Stops p (st.input.dropWhile p) := by
    have h := List.head?_dropWhile_not p st.input
    intro c hc
    rwa [Option.mem_def.mp hc] at h
  have hx : (takeWhileColumns p st).1 = st.input.takeWhile p ∧ (takeWhileColumns p st).2.input = st.input.dropWhile p := by
    simp only [takeWhileColumns, List.span_eq_takeWhile_dropWhile]
    cases ht : st.input.takeWhile p
    case cons => exact ⟨rfl, rfl⟩
    case nil  =>
      have he := List.takeWhile_append_dropWhile (p := p) (l := st.input)
      rw [ht, List.nil_append] at he
      exact ⟨rfl, he.symm⟩
  rw [h] at hx
  obtain ⟨rfl, hi⟩ := hx
  exact ⟨fun c => List.mem_takeWhile_imp, hi ▸ hs, hi ▸ (List.takeWhile_append_dropWhile ..).symm⟩

theorem takes_while (hx : ∀ c ∈ x, p c) (hs : Stops p y) : Takes (takeWhileColumns p) x y := by
  intro pos bol
  have hy : y.takeWhile p = [] ∧ y.dropWhile p = y := by
    cases y
    case nil         => exact ⟨rfl, rfl⟩
    case cons c cs =>
      have hc := hs c rfl
      simp [hc]
  have ht : (x ++ y).takeWhile p = x := by
    rw [List.takeWhile_append_of_pos hx, hy.left, List.append_nil]
  have hd : (x ++ y).dropWhile p = y := by
    rw [List.dropWhile_append_of_pos hx, hy.right]
  simp only [takeWhileColumns, List.span_eq_takeWhile_dropWhile, ht, hd]
  cases x
  case nil  => exact ⟨pos, by simp⟩
  case cons => exact ⟨_, by simp [advancePunct]; rfl⟩

-- The texts of fractions and exponents.
def FractionText (p : Char → Bool) (x : List Char) : Prop :=
  x = [] ∨ ∃ ds, x = '.' :: ds ∧ ∀ c ∈ ds, p c

def ExponentText (markers x : List Char) : Prop :=
  x = [] ∨ ∃ m sign d ds, x = m :: (sign ++ d :: ds) ∧ m ∈ markers ∧ (sign = [] ∨ sign = ['+'] ∨ sign = ['-']) ∧
    ∀ c ∈ d :: ds, isDigitChar c

theorem takeFractionOf_spec (h : takeFractionOf p st = (x, st')) :
    FractionText p x ∧ (x ≠ [] → Stops p st'.input) := by
  simp only [takeFractionOf] at h
  split at h
  case h_1 | h_3 => exact (Prod.mk.inj h).left ▸ ⟨.inl rfl, fun h => absurd rfl h⟩
  case h_2 rest _ _ =>
    rcases ht : takeWhileColumns p (advance '.' { st with input := rest }) with ⟨ds, st₁⟩
    rw [ht] at h
    obtain ⟨rfl, rfl⟩ := Prod.mk.inj h
    obtain ⟨hd, hs, _⟩ := takeWhileColumns_spec ht
    exact ⟨.inr ⟨ds, rfl, hd⟩, fun _ => hs⟩

theorem takeFractionOf_none (h : Stops (· = '.') st.input) : takeFractionOf p st = ([], st) := by
  unfold takeFractionOf
  split
  case h_3        => rfl
  case h_1 | h_2  => exact absurd (h '.' (by simp [*])) (by simp)

theorem takeFractionOf_point (xs : List Char) (hi : st.input = '.' :: xs) (h : Stops (· = '.') xs) :
    takeFractionOf p st = ('.' :: (takeWhileColumns p (advance '.' { st with input := xs })).1,
      (takeWhileColumns p (advance '.' { st with input := xs })).2) := by
  unfold takeFractionOf
  split
  case h_1 hp =>
    obtain rfl := (List.cons.inj <| hi.symm.trans hp).right
    exact absurd (h '.' rfl) (by simp)
  case h_2 hp =>
    obtain rfl := (List.cons.inj <| hi.symm.trans hp).right
    rfl
  case h_3 hn => exact (hn _ hi).elim

theorem takes_fraction (hp : p '.' = false) (hx : FractionText p x) (hs : Stops p y) (hd : Stops (· = '.') y) :
    Takes (takeFractionOf p) x y := by
  intro pos bol
  rcases hx with rfl | ⟨ds, rfl, hx⟩
  · have hn : takeFractionOf p ⟨y, pos, bol⟩ = _ := takeFractionOf_none hd
    exact ⟨pos, by simp [hn]⟩
  · have hn : Stops (· = '.') (ds ++ y) := by
      refine stops_append (stops_of_all hx fun c hc => ?_) fun _ => hd
      by_contra hn
      simp_all
    have ⟨pos', ht⟩ := takes_while hx hs (nextPos '.' pos) (nextBol '.' bol)
    have hb : nextBol '.' bol = false := by simp [nextBol, isSpaceChar]
    refine ⟨pos', ?_⟩
    rw [takeFractionOf_point (ds ++ y) rfl hn, advance, ht, hb]
    simp

theorem takeExponent_spec (h : takeExponent markers st = (x, st')) :
    ExponentText markers x ∧ (x = [] → st' = st) := by
  simp only [takeExponent] at h
  split at h
  case h_2 => exact (Prod.mk.inj h).left ▸ ⟨.inl rfl, fun _ => (Prod.mk.inj h).right.symm⟩
  case h_1 c rest hi =>
    split at h
    case isFalse => exact (Prod.mk.inj h).left ▸ ⟨.inl rfl, fun _ => (Prod.mk.inj h).right.symm⟩
    case isTrue hm =>
      rcases hg : takeExponentSign (advance c { st with input := rest }) with ⟨sign, st₁⟩
      rcases hd : takeWhileColumns isDigitChar st₁ with ⟨ds, st₂⟩
      simp only [hg, hd] at h
      split at h
      case isTrue => exact (Prod.mk.inj h).left ▸ ⟨.inl rfl, fun _ => (Prod.mk.inj h).right.symm⟩
      case isFalse hn =>
        obtain ⟨rfl, rfl⟩ := Prod.mk.inj h
        refine ⟨.inr ?_, by simp⟩
        have hs : sign = [] ∨ sign = ['+'] ∨ sign = ['-'] := by
          simp only [takeExponentSign] at hg
          split at hg
          case h_2 => exact .inl (Prod.mk.inj hg).left.symm
          case h_1 =>
            split at hg
            case isFalse => exact .inl (Prod.mk.inj hg).left.symm
            case isTrue hc => 
              obtain ⟨rfl, _⟩ := Prod.mk.inj hg
              simpa using hc
        have hds := (takeWhileColumns_spec hd).left
        cases ds
        case nil => exact absurd rfl hn
        case cons d ds => exact ⟨c, sign, d, ds, rfl, hm, hs, hds⟩

theorem takes_sign (hx : x = [] ∨ x = ['+'] ∨ x = ['-']) (hs : Stops (fun c => c = '+' || c = '-') y) :
    Takes takeExponentSign x y := by
  intro pos bol
  rcases hx with rfl | rfl | rfl
  · refine ⟨pos, ?_⟩
    cases y
    case nil         => simp [takeExponentSign]
    case cons c cs =>
      have h := hs c rfl
      simp [takeExponentSign, h]
  all_goals exact ⟨_, by simp [takeExponentSign, advance, nextBol, isSpaceChar]; rfl⟩

theorem takes_exponent (hx : ExponentText markers x) (hn : x = [] → Stops (· ∈ markers) y) (hs : Stops isDigitChar y) :
    Takes (takeExponent markers) x y := by
  intro pos bol
  rcases hx with rfl | ⟨m, sign, d, ds, rfl, hx, hg, hd⟩
  · refine ⟨pos, ?_⟩
    cases y
    case nil         => simp [takeExponent]
    case cons c cs =>
      have h : c ∉ markers := by simpa using hn rfl c rfl
      simp [takeExponent, h]
  · have hc : Stops (fun c => c = '+' || c = '-') ((d :: ds) ++ y) := by
      refine stops_cons <| by_contra fun hn => ?_
      have hd := hd d (.head _)
      simp only [Bool.not_eq_false, Bool.or_eq_true, decide_eq_true_eq] at hn
      rcases hn with rfl | rfl <;> contradiction
    obtain ⟨pos₁, h₁⟩ := takes_sign hg hc (nextPos m pos) (nextBol m bol)
    obtain ⟨pos₂, h₂⟩ := takes_while hd hs pos₁ (nextBol m bol && sign.isEmpty)
    refine ⟨pos₂, ?_⟩
    simp only [List.cons_append, List.append_assoc] at h₁ h₂ ⊢
    simp [takeExponent, hx, advance, h₁, h₂]

end Takes

section Numbers

variable {cls : NumberClass} {D F E S rest : List Char}

theorem FractionText.stops (h : FractionText q x) (hp : p '.' = false) : Stops p x := by
  rcases h with rfl | ⟨_, rfl, _⟩
  · exact stops_nil
  · exact stops_cons hp

theorem ExponentText.stops {markers : List Char} (h : ExponentText markers x) (hp : ∀ m ∈ markers, p m = false) :
    Stops p x := by
  rcases h with rfl | ⟨_, _, _, _, rfl, hm, _⟩
  · exact stops_nil
  · exact stops_cons <| hp _ hm

theorem takeNumber_decimal (hs : Stops (fun c => c = 'x' || c = 'X') xs) :
    takeNumber ⟨c :: xs, pos, bol⟩ = takeDecimalNumber ⟨c :: xs, pos, bol⟩ := by
  unfold takeNumber
  split
  case h_1 h | h_2 h =>
    obtain rfl := (List.cons.inj h).right
    exact absurd (hs _ rfl) (by simp)
  case h_3 => rfl

theorem stops_suffix (hS : ∀ c ∈ S, q c) (hq : ∀ c, q c → p c = false) (hp : p ' ' = false) :
    Stops p (S ++ ' ' :: rest) :=
  stops_append (stops_of_all hS hq) fun _ => stops_cons hp

theorem numberSuffix_of_mem (hp : ∀ c ∈ ['u', 'U', 'l', 'L', 'f', 'F'], p c = false) (c) (hc : isNumberSuffix c) :
    p c = false :=
  hp c <| of_decide_eq_true hc

theorem isNumberChar_of_digit (h : isDigitChar c) : isNumberChar c := by
  simp [isNumberChar, isIdentChar, h]

theorem isNumberChar_of_suffix (h : isNumberSuffix c) : isNumberChar c :=
  (by decide : ∀ c ∈ ['u', 'U', 'l', 'L', 'f', 'F'], isNumberChar c) c <| of_decide_eq_true h

theorem FractionText.chars (h : FractionText p x) (hp : ∀ c, p c → isNumberChar c) : ∀ c ∈ x, isNumberChar c := by
  rcases h with rfl | ⟨ds, rfl, hd⟩
  · nofun
  · exact List.forall_mem_cons.mpr ⟨rfl, fun c hc => hp c <| hd c hc⟩

theorem ExponentText.chars {markers : List Char} (h : ExponentText markers x) (hm : ∀ m ∈ markers, isNumberChar m) :
    ∀ c ∈ x, isNumberChar c := by
  rcases h with rfl | ⟨m, sign, d, ds, rfl, hx, hs, hd⟩
  · nofun
  · refine List.forall_mem_cons.mpr ⟨hm m hx, List.forall_mem_append.mpr ⟨?_, fun c hc => isNumberChar_of_digit <| hd c hc⟩⟩
    rcases hs with rfl | rfl | rfl <;> decide

theorem takeDecimalNumber_takes (hD : ∀ c ∈ D, isDigitChar c) (hn : D ≠ []) (hF : FractionText isDigitChar F)
    (hE : ExponentText ['e', 'E'] E) (hS : ∀ c ∈ S, isNumberSuffix c) (pos bol rest) :
    ∃ pos', takeNumber ⟨D ++ F ++ E ++ S ++ ' ' :: rest, pos, bol⟩ =
      if (!(!F.isEmpty || !E.isEmpty || hasFloatSuffix S) && hasInvalidOctalDigit D) = true then
        .error ⟨pos, "invalid digit in octal constant: " ++ String.ofList D⟩
      else .ok (D ++ F ++ E ++ S, if !F.isEmpty || !E.isEmpty || hasFloatSuffix S then .float else .int,
        ⟨' ' :: rest, pos', false⟩) := by
  have hs₃ : Stops isDigitChar (S ++ ' ' :: rest) := stops_suffix hS (numberSuffix_of_mem (by decide)) (by decide)
  have hd₃ : Stops (· = '.') (S ++ ' ' :: rest) := stops_suffix hS (numberSuffix_of_mem (by decide)) (by decide)
  have he₃ : Stops (· ∈ ['e', 'E']) (S ++ ' ' :: rest) := stops_suffix hS (numberSuffix_of_mem (by decide)) (by decide)
  have hx₃ : Stops (fun c => c = 'x' || c = 'X') (S ++ ' ' :: rest) :=
    stops_suffix hS (numberSuffix_of_mem (by decide)) (by decide)
  have hs₂ := stops_append (hE.stops (by decide)) fun _ => hs₃
  have hd₂ := stops_append (hE.stops (by decide)) fun _ => hd₃
  have hx₂ := stops_append (hE.stops (by decide)) fun _ => hx₃
  have hs₁ := stops_append (hF.stops (by decide)) fun _ => hs₂
  have hx₁ := stops_append (hF.stops (by decide)) fun _ => hx₂
  have ⟨pos₁, h₁⟩ := takes_while hD hs₁ pos bol
  have ⟨pos₂, h₂⟩ := takes_fraction (by decide) hF hs₂ hd₂ pos₁ (bol && D.isEmpty)
  have ⟨pos₃, h₃⟩ := takes_exponent hE (fun _ => he₃) hs₃ pos₂ (bol && D.isEmpty && F.isEmpty)
  have hs₄ : Stops isNumberSuffix (' ' :: rest) := stops_cons (by decide)
  have ⟨pos₄, h₄⟩ := takes_while hS hs₄ pos₃ (bol && D.isEmpty && F.isEmpty && E.isEmpty)
  have hm : takeNumber ⟨D ++ F ++ E ++ S ++ ' ' :: rest, pos, bol⟩ =
      takeDecimalNumber ⟨D ++ (F ++ (E ++ (S ++ ' ' :: rest))), pos, bol⟩ := by
    simp only [List.append_assoc]
    cases D
    case nil         => contradiction
    case cons d ds =>
      have hx : Stops (fun c => c = 'x' || c = 'X') ds := by
        refine stops_of_all (fun c hc => hD c <| .tail _ hc) fun c hc => by_contra fun hn => ?_
        simp only [Bool.not_eq_false, Bool.or_eq_true, decide_eq_true_eq] at hn
        rcases hn with rfl | rfl <;> contradiction
      exact takeNumber_decimal <| stops_append hx fun _ => hx₁
  have hb : D.isEmpty = false := by simpa using hn
  refine ⟨pos₄, ?_⟩
  rw [hm]
  simp only [takeDecimalNumber, h₁, takeFraction, h₂, h₃, h₄]
  simp only [hb, Bool.and_false, Bool.false_and]

theorem takeDecimalNumber_text (h : takeDecimalNumber st = .ok (x, cls, st')) (hi : st.input = c :: cs)
    (hc : isDigitChar c) : NumberText cls x := by
  rcases hD : takeWhileColumns isDigitChar st with ⟨D, st₁⟩
  rcases hF : takeFraction st₁ with ⟨F, st₂⟩
  rcases hE : takeExponent ['e', 'E'] st₂ with ⟨E, st₃⟩
  rcases hS : takeWhileColumns isNumberSuffix st₃ with ⟨S, st₄⟩
  simp only [takeDecimalNumber, hD, hF, hE, hS] at h
  split at h
  case isTrue => contradiction
  case isFalse hn =>
    obtain ⟨rfl, he⟩ := Prod.mk.inj <| Except.ok.inj h
    obtain ⟨rfl, rfl⟩ := Prod.mk.inj he
    obtain ⟨hD, hs, hi'⟩ := takeWhileColumns_spec hD
    have hF := (takeFractionOf_spec hF).left
    have hE := (takeExponent_spec hE).left
    have hS := (takeWhileColumns_spec hS).left
    rcases D with _ | ⟨d, ds⟩
    · rw [List.nil_append, hi] at hi'
      cases hc.symm.trans <| hs c (hi' ▸ rfl)
    · refine ⟨⟨d, rfl, hD d <| .head _⟩, ?_, fun pos bol rest => ?_⟩
      · simp only [List.forall_mem_append]
        exact ⟨⟨⟨fun c hc => isNumberChar_of_digit <| hD c hc, hF.chars fun _ => isNumberChar_of_digit⟩,
          hE.chars (by decide)⟩, fun c hc => isNumberChar_of_suffix <| hS c hc⟩
      · obtain ⟨pos', h⟩ := takeDecimalNumber_takes hD (List.cons_ne_nil _ _) hF hE hS pos bol rest
        exact ⟨pos', h.trans <| if_neg hn⟩

theorem isNumberSuffix_of_int (h : isIntSuffix c) : isNumberSuffix c := by
  simp only [isIntSuffix, isNumberSuffix, decide_eq_true_eq, List.mem_cons] at h ⊢
  tauto

theorem isNumberSuffix_of_float (h : isFloatSuffix c) : isNumberSuffix c := by
  simp only [isFloatSuffix, isNumberSuffix, decide_eq_true_eq, List.mem_cons] at h ⊢
  tauto

theorem isNumberChar_of_hex (h : isHexDigit c) : isNumberChar c := by
  have hf : c ≤ 'f' → c ≤ 'z' := fun h => Char.le_trans h (by decide)
  have hF : c ≤ 'F' → c ≤ 'Z' := fun h => Char.le_trans h (by decide)
  simp only [isHexDigit, isDecimalDigit, Bool.or_eq_true, Bool.and_eq_true, decide_eq_true_eq] at h
  simp only [isNumberChar, isIdentChar, isAsciiAlpha, isDigitChar, Bool.or_eq_true, Bool.and_eq_true, decide_eq_true_eq,
    ge_iff_le]
  tauto

def hexSuffix (F E : List Char) : Char → Bool :=
  if F.isEmpty && E.isEmpty then isIntSuffix else isFloatSuffix

theorem isNumberSuffix_of_hex (h : hexSuffix F E c) : isNumberSuffix c := by
  unfold hexSuffix at h
  split at h
  case isTrue  => exact isNumberSuffix_of_int h
  case isFalse => exact isNumberSuffix_of_float h

theorem takeHexNumber_takes (hm : m = 'x' ∨ m = 'X') (hD : ∀ c ∈ D, isHexDigit c)
    (hF : FractionText isHexDigit F) (hE : ExponentText ['p', 'P'] E) (hS : ∀ c ∈ S, hexSuffix F E c)
    (hh : E = [] → Stops isHexDigit S) (pos bol rest) :
    ∃ pos', takeNumber ⟨['0', m] ++ D ++ F ++ E ++ S ++ ' ' :: rest, pos, bol⟩ =
      if (D.isEmpty && F.isEmpty) = true then
        .error ⟨pos, "hexadecimal constant requires at least one digit: " ++ String.ofList (['0', m] ++ S)⟩
      else .ok (['0', m] ++ D ++ F ++ E ++ S, if (F.isEmpty && E.isEmpty) = true then .int else .float,
        ⟨' ' :: rest, pos', false⟩) := by
  have hS' c (hc : c ∈ S) : isNumberSuffix c := isNumberSuffix_of_hex <| hS c hc
  have hd₃ : Stops isDigitChar (S ++ ' ' :: rest) := stops_suffix hS' (numberSuffix_of_mem (by decide)) (by decide)
  have hp₃ : Stops (· = '.') (S ++ ' ' :: rest) := stops_suffix hS' (numberSuffix_of_mem (by decide)) (by decide)
  have he₃ : Stops (· ∈ ['p', 'P']) (S ++ ' ' :: rest) := stops_suffix hS' (numberSuffix_of_mem (by decide)) (by decide)
  have hs₂ : Stops isHexDigit (E ++ (S ++ ' ' :: rest)) :=
    stops_append (hE.stops (by decide)) fun he => stops_append (hh he) fun _ => stops_cons (by decide)
  have hp₂ := stops_append (hE.stops (by decide)) fun _ => hp₃
  have hs₁ := stops_append (hF.stops (by decide)) fun _ => hs₂
  have hs₄ : Stops (hexSuffix F E) (' ' :: rest) := stops_cons (by unfold hexSuffix; split <;> decide)
  have ⟨pos₁, h₁⟩ := takes_while hD hs₁ (nextPos m (nextPos '0' pos)) false
  have ⟨pos₂, h₂⟩ := takes_fraction (by decide) hF hs₂ hp₂ pos₁ false
  have ⟨pos₃, h₃⟩ := takes_exponent hE (fun _ => he₃) hd₃ pos₂ false
  have ⟨pos₄, h₄⟩ := takes_while hS hs₄ pos₃ false
  simp only [Bool.false_and, hexSuffix] at h₁ h₂ h₃ h₄
  have ht : takeNumber ⟨['0', m] ++ D ++ F ++ E ++ S ++ ' ' :: rest, pos, bol⟩ =
      takeHexNumber ['0', m] (D ++ (F ++ (E ++ (S ++ ' ' :: rest))))
        ⟨['0', m] ++ (D ++ (F ++ (E ++ (S ++ ' ' :: rest)))), pos, bol⟩ := by
    simp only [List.append_assoc]
    rcases hm with rfl | rfl <;> rfl
  have ha {input} : advanceMany ['0', m] ⟨input, pos, bol⟩ = ⟨input, nextPos m (nextPos '0' pos), false⟩ := by
    rcases hm with rfl | rfl <;> simp [advanceMany, advance, nextBol, isSpaceChar]
  refine ⟨pos₄, ?_⟩
  rw [ht]
  simp only [takeHexNumber, ha, h₁, takeHexFraction, h₂, h₃, h₄]

theorem takeHexNumber_text (hm : m = 'x' ∨ m = 'X') (h : takeHexNumber ['0', m] xs st = .ok (x, cls, st')) :
    NumberText cls x := by
  rcases hD : takeWhileColumns isHexDigit (advanceMany ['0', m] { st with input := xs }) with ⟨D, st₁⟩
  rcases hF : takeHexFraction st₁ with ⟨F, st₂⟩
  rcases hE : takeExponent ['p', 'P'] st₂ with ⟨E, st₃⟩
  rcases hS : takeWhileColumns (hexSuffix F E) st₃ with ⟨S, st₄⟩
  unfold hexSuffix at hS
  simp only [takeHexNumber, hD, hF, hE, hS] at h
  split at h
  case isTrue => contradiction
  case isFalse hn =>
    obtain ⟨rfl, hk⟩ := Prod.mk.inj <| Except.ok.inj h
    obtain ⟨rfl, rfl⟩ := Prod.mk.inj hk
    obtain ⟨hD, hs, hi⟩ := takeWhileColumns_spec hD
    obtain ⟨hF, hsF⟩ := takeFractionOf_spec hF
    obtain ⟨hE, hsE⟩ := takeExponent_spec hE
    obtain ⟨hS, _, hiS⟩ := takeWhileColumns_spec hS
    have hh (he : E = []) : Stops isHexDigit S := by
      rcases hF with rfl | ⟨_, rfl, _⟩
      · obtain rfl := he
        exact stops_of_all hS fun c hc => (by decide : ∀ c ∈ ['u', 'U', 'l', 'L'], isHexDigit c = false) c <| of_decide_eq_true hc
      · exact Stops.left (hiS ▸ hsE he ▸ hsF (List.cons_ne_nil _ _))
    refine ⟨⟨'0', rfl, by decide⟩, ?_, fun pos bol rest => ?_⟩
    · have hp : ∀ c ∈ ['0', m], isNumberChar c := by rcases hm with rfl | rfl <;> decide
      simp only [List.forall_mem_append]
      exact ⟨⟨⟨⟨hp, fun c hc => isNumberChar_of_hex <| hD c hc⟩, hF.chars fun _ => isNumberChar_of_hex⟩,
        hE.chars (by decide)⟩, fun c hc => isNumberChar_of_suffix <| isNumberSuffix_of_hex <| hS c hc⟩
    · obtain ⟨pos', h⟩ := takeHexNumber_takes hm hD hF hE hS hh pos bol rest
      exact ⟨pos', h.trans <| if_neg hn⟩

-- Numbers that are lexed have the text of a number.
theorem takeNumber_text (h : takeNumber st = .ok (x, cls, st')) (hi : st.input = c :: cs) (hc : isDigitChar c) :
    NumberText cls x := by
  unfold takeNumber at h
  split at h
  case h_1 => exact takeHexNumber_text (.inl rfl) h
  case h_2 => exact takeHexNumber_text (.inr rfl) h
  case h_3 => exact takeDecimalNumber_text h hi hc

end Numbers

section Literals

variable {quote : Char} {kind : String → TokenKind} {acc body input rest : List Char} {tok : Token}

theorem lexQuoted.go_body (h : go quote kind start st acc input = .ok (tok, st')) :
    ∃ body, LiteralBody quote body ∧ tok.kind = kind (.ofList (acc.reverse ++ body ++ [quote])) ∧
      (quote = '\'' → validCharBody (charLiteralBody (acc.reverse ++ body ++ [quote]))) := by
  fun_induction go
  all_goals first | contradiction | skip
  case case3 acc _ _ text hv =>
    obtain rfl := (Prod.mk.inj <| Except.ok.inj h).left
    have ht : text = acc.reverse ++ [] ++ [quote] := by simp [text]
    rw [ht] at hv
    exact ⟨[], .nil, ht ▸ rfl, by simpa using hv⟩
  case case5 hi =>
    obtain ⟨body, hb, hk, hv⟩ := hi h
    exact ⟨_, hb.escape, by simpa using hk, by simpa using hv⟩
  case case7 hc hs hn hi =>
    obtain ⟨body, hb, hk, hv⟩ := hi h
    exact ⟨_, hb.char hc hs hn, by simpa using hk, by simpa using hv⟩

theorem lexQuoted.go_char (hc : c ≠ quote) (he : c ≠ '\\') (hn : c ≠ '\n') :
    go quote kind start st acc (c :: input) = go quote kind start (advance c st) (c :: acc) input := by
  rw [go.eq_def]
  simp only [hc, he, hn, if_false]

theorem lexQuoted.go_escape (hq : '\\' ≠ quote) :
    go quote kind start st acc ('\\' :: e :: input) =
      go quote kind start (advance e (advance '\\' st)) (e :: '\\' :: acc) input := by
  rw [go.eq_def]
  simp only [hq, if_false, if_true]

theorem lexQuoted.go_quote (hs : isSpaceChar quote = false)
    (hv : quote = '\'' → validCharBody (charLiteralBody (quote :: acc).reverse)) :
    ∃ sp pos', go quote kind start st acc (quote :: input) =
      .ok (⟨sp, kind (.ofList (quote :: acc).reverse)⟩, ⟨input, pos', false⟩) := by
  have hb : nextBol quote st.bol = false := by
    have hn : quote ≠ '\n' := by rintro rfl; contradiction
    simp [nextBol, hs, hn]
  have hv : ¬(decide (quote = '\'') && !validCharBody (charLiteralBody (quote :: acc).reverse)) = true := by
    simpa using hv
  rw [go.eq_def]
  simp only [if_true, if_neg hv, advance, hb]
  exact ⟨_, _, rfl⟩

theorem LiteralBody.lexes (hb : LiteralBody quote body) (hq : '\\' ≠ quote) (hs : isSpaceChar quote = false)
    (hv : quote = '\'' → validCharBody (charLiteralBody (acc.reverse ++ body ++ [quote]))) :
    ∃ sp pos', lexQuoted.go quote kind start st acc (body ++ quote :: rest) =
      .ok (⟨sp, kind (.ofList (acc.reverse ++ body ++ [quote]))⟩, ⟨rest, pos', false⟩) := by
  induction hb generalizing st acc
  case nil =>
    simp only [List.append_nil, ←List.reverse_cons, List.nil_append] at hv ⊢
    exact lexQuoted.go_quote hs hv
  case char c body hc he hn _ hi =>
    have hr : acc.reverse ++ c :: body ++ [quote] = (c :: acc).reverse ++ body ++ [quote] := by simp
    rw [hr] at hv ⊢
    rw [List.cons_append, lexQuoted.go_char hc he hn]
    exact hi hv
  case escape body e hb hi =>
    have hr : acc.reverse ++ '\\' :: e :: body ++ [quote] = (e :: '\\' :: acc).reverse ++ body ++ [quote] := by simp
    rw [hr] at hv ⊢
    rw [List.cons_append, List.cons_append, lexQuoted.go_escape hq]
    exact hi hv

end Literals

section Punctuators

variable {text : String} {t rest : List Char}

-- No punctuator extends over a space.
theorem isPrefixOf_space (h : ' ' ∉ x) : x.isPrefixOf (t ++ ' ' :: rest) = x.isPrefixOf t := by
  induction x generalizing t
  case nil => rfl
  case cons c cs hi =>
    simp only [List.mem_cons, not_or] at h
    cases t
    case nil  => simp [List.isPrefixOf, Ne.symm h.left]
    case cons => simp [List.isPrefixOf, hi h.right]

theorem lexPunct_text (h : text ∈ punctuators) (hi : st.input = text.toList ++ ' ' :: rest) :
    lexPunct st = some (⟨⟨st.pos, addColumns text.toList.length st.pos⟩, .punct text⟩,
      ⟨' ' :: rest, addColumns text.toList.length st.pos, false⟩) := by
  have hp : punctuators.find? (·.toList.isPrefixOf (text.toList ++ ' ' :: rest)) = some text := by
    have hs : ∀ p ∈ punctuators, ' ' ∉ p.toList := by decide
    have hf : ∀ t ∈ punctuators, punctuators.find? (·.toList.isPrefixOf t.toList) = some t := by decide
    rw [←hf text h]
    exact List.find?_congr fun p hp => isPrefixOf_space (hs p hp)
  simp [lexPunct, hi, hp, advancePunct]

end Punctuators

section Steps

variable {kind : TokenKind} {tok : Token} {rest : List Char}

-- Every token that is emitted is spelled as it is lexed.
theorem takeWhileColumns_head (h : takeWhileColumns p st = (x, st')) (hi : st.input = c :: cs) (hc : p c) :
    c ∈ x.head? := by
  have ⟨_, hs, he⟩ := takeWhileColumns_spec h
  rcases x with _ | ⟨d, ds⟩
  · rw [List.nil_append, hi] at he
    exact nomatch hc.symm.trans <| hs c (he ▸ rfl)
  · rw [hi] at he
    exact congrArg some (List.cons.inj he).left.symm

theorem isIdentChar_of_start (h : isIdentStart c) : isIdentChar c := by
  simp only [isIdentStart, isIdentChar, Bool.or_eq_true] at h ⊢
  tauto

-- Every token that is emitted is spelled as it is lexed.
theorem LexStep.spelled (h : LexStep st tok? st') (ht : tok ∈ tok?) : Spelled tok.kind := by
  cases h
  case space | lineComment | blockComment => contradiction
  all_goals obtain rfl := Option.mem_some.mp ht
  case directive h =>
    obtain ⟨rfl, _⟩ := by simpa [lexDirective, Except.ok.injEq] using h
    trivial
  case ident hc hi =>
    rcases hw : takeIdent st with ⟨x, st'⟩
    have hx := (takeWhileColumns_spec hw).left
    have hh := takeWhileColumns_head hw hi (isIdentChar_of_start hc)
    simpa [Spelled, lexIdent, hw] using ⟨⟨_, hh, hc⟩, hx⟩
  case number hc hi h =>
    simp only [lexNumber] at h
    split at h <;> try contradiction
    case h_2 x cls st' hn =>
      obtain ⟨rfl, _⟩ := by simpa using h
      have ht := takeNumber_text hn hi hc
      cases cls <;> simpa [Spelled] using ht
  case char h =>
    obtain ⟨body, hb, hk, hv⟩ := lexQuoted.go_body h
    rw [hk]
    exact ⟨body, String.toList_ofList, hb, by simpa using hv rfl⟩
  case string h =>
    obtain ⟨body, hb, hk, _⟩ := lexQuoted.go_body h
    rw [hk]
    exact ⟨body, String.toList_ofList, hb⟩
  case punct h =>
    obtain ⟨text, hf, h⟩ := Option.map_eq_some_iff.mp h
    obtain ⟨rfl, _⟩ := by simpa using h
    exact List.mem_of_find?_eq_some hf

theorem lexC_spelled (h : lexC source = .ok toks) : ∀ tok ∈ toks, Spelled tok.kind := by
  have ⟨new, he, hn⟩ := lexC.go_all (I := fun _ => True) (P := (Spelled ·.kind))
    (fun _ h => ⟨trivial, fun _ ht => h.spelled ht⟩) trivial h
  simpa [he] using hn

-- The first character decides how a token is lexed.
structure Ordinary (st : LexState) (c : Char) : Prop where
  head      : ∃ cs, st.input = c :: cs
  space     : isSpaceChar c = false
  directive : isDirectiveStart st c = false
  comment   : startsLineComment st.input = false ∧ startsBlockComment st.input = false

theorem Ordinary.of_ne (hi : st.input = c :: cs) (hs : isSpaceChar c = false) (hd : c ≠ '#') (hc : c ≠ '/') : Ordinary st c where
  head      := ⟨cs, hi⟩
  space     := hs
  directive := by simp [isDirectiveStart, hd]
  comment   := by simp [startsLineComment, startsBlockComment, List.isPrefixOf, hi, Ne.symm hc]

theorem Ordinary.go (h : Ordinary st c) : lexC.go (n + 1) st acc =
    let emit := fun (result : Token × LexState) => lexC.go n result.2 (result.1 :: acc)
    if isIdentStart c then emit (lexIdent st)
    else if isDigitChar c then lexNumber st >>= emit
    else if c = '\'' then lexQuoted '\'' .char st >>= emit
    else if c = '"' then lexQuoted '"' .string st >>= emit
    else match lexPunct st with
      | some result => emit result
      | none        => .error ⟨st.pos, "unexpected character: " ++ c.toString⟩ := by
  have ⟨cs, hi⟩ := h.head
  have hc := h.comment
  rw [hi] at hc
  simp only [lexC.go, hi, h.space, h.directive, hc, Bool.false_eq_true, if_false]
  all_goals rfl

theorem Ordinary.of_start (hi : st.input = c :: cs) (hc : isIdentStart c) : Ordinary st c := by
  refine .of_ne hi (Bool.eq_false_iff.mpr fun hs => ?_) ?_ ?_
  · simp only [isSpaceChar, Bool.or_eq_true, decide_eq_true_eq] at hs
    rcases hs with ((((rfl | rfl) | rfl) | rfl) | rfl) | rfl <;> contradiction
  all_goals rintro rfl; contradiction

theorem Ordinary.of_digit (hi : st.input = c :: cs) (hc : isDigitChar c) : Ordinary st c := by
  refine .of_ne hi (Bool.eq_false_iff.mpr fun hs => ?_) ?_ ?_
  · simp only [isSpaceChar, Bool.or_eq_true, decide_eq_true_eq] at hs
    rcases hs with ((((rfl | rfl) | rfl) | rfl) | rfl) | rfl <;> contradiction
  all_goals rintro rfl; contradiction

theorem isIdentStart_of_digit (hc : isDigitChar c) : isIdentStart c = false := by
  have ha : c ≤ '9' → 'a' ≤ c → False := fun h h' => absurd (Char.le_trans h' h) (by decide)
  have hA : c ≤ '9' → 'A' ≤ c → False := fun h h' => absurd (Char.le_trans h' h) (by decide)
  simp only [isDigitChar, Bool.and_eq_true, decide_eq_true_eq, ge_iff_le] at hc
  have hu : c ≠ '_' := by rintro rfl; exact absurd hc.right (by decide)
  simp only [isIdentStart, isAsciiAlpha, Bool.or_eq_false_iff, Bool.and_eq_false_iff, decide_eq_false_iff_not, ge_iff_le]
  exact ⟨⟨.inl <| ha hc.right, .inl <| hA hc.right⟩, hu⟩

theorem Ordinary.of_punct (st : LexState) (ht : text ∈ punctuators) (hi : st.input = text.toList ++ ' ' :: rest)
    (hb : st.bol = true → '#' ∉ text.toList.head?) :
    ∃ c, Ordinary st c ∧ isIdentStart c = false ∧ isDigitChar c = false ∧ c ≠ '\'' ∧ c ≠ '"' := by
  have hp : ∀ t ∈ punctuators, ∃ c ∈ t.toList.head?, isSpaceChar c = false ∧ isIdentStart c = false ∧ isDigitChar c = false ∧
      c ≠ '\'' ∧ c ≠ '"' ∧ ['/', '/'].isPrefixOf t.toList = false ∧ ['/', '*'].isPrefixOf t.toList = false := by
    decide
  have ⟨c, hc, hs, hi', hd, hq, hq', hl, hl'⟩ := hp text ht
  have ⟨cs, he⟩ : ∃ cs, text.toList = c :: cs := List.head?_eq_some_iff.mp hc
  refine ⟨c, ⟨⟨cs ++ ' ' :: rest, by rw [hi, he]; rfl⟩, hs, ?_, ?_⟩, hi', hd, hq, hq'⟩
  · simp only [isDirectiveStart, Bool.and_eq_false_iff, decide_eq_false_iff_not]
    cases h : st.bol
    case false => exact .inl rfl
    case true  =>
      refine .inr fun hn => hb h ?_
      rw [←hn, he]
      rfl
  · rw [hi, startsLineComment, startsBlockComment, isPrefixOf_space (by decide), isPrefixOf_space (by decide)]
    exact ⟨hl, hl'⟩

-- The token is lexed at the front of the input, if a space follows.
def LexesBack (kind : TokenKind) (pos : SrcPos) (bol : Bool) (rest : List Char) : Prop :=
  ∃ sp pos', ∀ n acc, lexC.go (n + 1) ⟨(tokenText kind).toList ++ ' ' :: rest, pos, bol⟩ acc =
    lexC.go n ⟨' ' :: rest, pos', false⟩ (⟨sp, kind⟩ :: acc)

theorem lexesBack_ident {s : String} (hs : Spelled (.ident s)) : LexesBack (.ident s) pos bol rest := by
  have ⟨⟨c, hc, hi⟩, hs⟩ := hs
  have ⟨cs, he⟩ : ∃ cs, s.toList = c :: cs := List.head?_eq_some_iff.mp hc
  have hn : Stops isIdentChar (' ' :: rest) := stops_cons (by decide)
  have hb : s.toList.isEmpty = false := by rw [he]; rfl
  have ⟨pos', ht⟩ := takes_while hs hn pos bol
  have hl : lexIdent ⟨s.toList ++ ' ' :: rest, pos, bol⟩ =
      (⟨⟨pos, pos'⟩, .ident s⟩, ⟨' ' :: rest, pos', false⟩) := by
    simp only [lexIdent, takeIdent, ht, hb, String.ofList_toList, Bool.and_false]
  have hc : s.toList ++ ' ' :: rest = c :: (cs ++ ' ' :: rest) := by rw [he]; rfl
  have ho : Ordinary ⟨s.toList ++ ' ' :: rest, pos, bol⟩ c := .of_start hc hi
  refine ⟨⟨pos, pos'⟩, pos', fun n acc => ?_⟩
  rw [tokenText, ho.go]
  simp only [hi, hl, if_true]

theorem lexesBack_number {s : String} (hs : NumberText cls s.toList) :
    LexesBack (match cls with | .int => .int s | .float => .float s) pos bol rest := by
  have ⟨c, hc, hd⟩ := hs.head
  have ⟨cs, he⟩ : ∃ cs, s.toList = c :: cs := List.head?_eq_some_iff.mp hc
  have ⟨pos', ht⟩ := hs.takes pos bol rest
  have hc : s.toList ++ ' ' :: rest = c :: (cs ++ ' ' :: rest) := by rw [he]; rfl
  have ho : Ordinary ⟨s.toList ++ ' ' :: rest, pos, bol⟩ c := .of_digit hc hd
  cases cls
  all_goals
    refine ⟨⟨pos, pos'⟩, pos', fun n acc => ?_⟩
    rw [tokenText, ho.go]
    simp only [isIdentStart_of_digit hd, hd, lexNumber, ht, String.ofList_toList, Bool.false_eq_true, if_false, if_true]
    rfl

theorem lexesBack_quoted {quote : Char} {k : String → TokenKind} {s : String} {body : List Char}
    (hq : quote = '\'' ∧ k = .char ∨ quote = '"' ∧ k = .string) (hs : s.toList = quote :: (body ++ [quote]))
    (hb : LiteralBody quote body) (hv : quote = '\'' → validCharBody (charLiteralBody s.toList)) :
    LexesBack (k s) pos bol rest := by
  have hk : tokenText (k s) = s := by rcases hq with ⟨_, rfl⟩ | ⟨_, rfl⟩ <;> rfl
  have ht : [quote].reverse ++ body ++ [quote] = s.toList := by rw [hs]; rfl
  have hi : s.toList ++ ' ' :: rest = quote :: (body ++ quote :: ' ' :: rest) := by simp [hs]
  have ⟨sp, pos', hl⟩ : ∃ sp pos', lexQuoted quote k ⟨s.toList ++ ' ' :: rest, pos, bol⟩ =
      .ok (⟨sp, k s⟩, ⟨' ' :: rest, pos', false⟩) := by
    have hc : '\\' ≠ quote ∧ isSpaceChar quote = false := by rcases hq with ⟨rfl, _⟩ | ⟨rfl, _⟩ <;> decide
    have ⟨sp, pos', h⟩ : ∃ sp pos', lexQuoted.go quote k pos (advance quote ⟨s.toList ++ ' ' :: rest, pos, bol⟩) [quote]
        (body ++ quote :: ' ' :: rest) = .ok (⟨sp, k (.ofList ([quote].reverse ++ body ++ [quote]))⟩, ⟨' ' :: rest, pos', false⟩) :=
      hb.lexes hc.left hc.right (ht ▸ hv)
    rw [ht, String.ofList_toList] at h
    refine ⟨sp, pos', ?_⟩
    rw [lexQuoted]
    simp only [hi, List.drop_succ_cons, List.drop_zero] at h ⊢
    exact h
  have ho : Ordinary ⟨s.toList ++ ' ' :: rest, pos, bol⟩ quote := by
    refine .of_ne hi ?_ ?_ ?_
    all_goals rcases hq with ⟨rfl, _⟩ | ⟨rfl, _⟩ <;> decide
  refine ⟨sp, pos', fun n acc => ?_⟩
  rw [hk, ho.go]
  rcases hq with ⟨rfl, rfl⟩ | ⟨rfl, rfl⟩
  · have hd : isIdentStart '\'' = false ∧ isDigitChar '\'' = false := by decide
    simp only [hd, hl, Bool.false_eq_true, if_false, if_true]
    rfl
  · have hd : isIdentStart '"' = false ∧ isDigitChar '"' = false ∧ '"' ≠ '\'' := by decide
    simp only [hd, hl, Bool.false_eq_true, if_false, if_true]
    rfl

theorem lexesBack_punct (hs : Spelled (.punct s)) (hb : bol = true → '#' ∉ s.toList.head?) :
    LexesBack (.punct s) pos bol rest := by
  have ⟨c, ho, hi, hd, hq, hq'⟩ := Ordinary.of_punct ⟨s.toList ++ ' ' :: rest, pos, bol⟩ hs rfl hb
  refine ⟨⟨pos, addColumns s.toList.length pos⟩, addColumns s.toList.length pos, fun n acc => ?_⟩
  rw [tokenText, ho.go]
  have hl : lexPunct ⟨s.toList ++ ' ' :: rest, pos, bol⟩ = _ := lexPunct_text hs rfl
  simp only [hi, hd, hq, hq', hl, Bool.false_eq_true, if_false]

theorem Spelled.lexesBack (hs : Spelled kind) (hd : ∀ text, kind ≠ .directive text)
    (hb : bol = true → '#' ∉ (tokenText kind).toList.head?) : LexesBack kind pos bol rest := by
  cases kind
  case ident     => exact lexesBack_ident hs
  case int s     =>
    have hs : NumberText .int s.toList := hs
    exact lexesBack_number hs
  case float s   =>
    have hs : NumberText .float s.toList := hs
    exact lexesBack_number hs
  case char      =>
    have ⟨_, hs, hb, hv⟩ := hs
    exact lexesBack_quoted (.inl ⟨rfl, rfl⟩) hs hb fun _ => hv
  case string    =>
    have ⟨_, hs, hb⟩ := hs
    exact lexesBack_quoted (.inr ⟨rfl, rfl⟩) hs hb nofun
  case punct     => exact lexesBack_punct hs hb
  case directive => exact absurd rfl (hd _)

end Steps
end Hcc
