import Hcc.Lexer.Theorems.Scan

namespace Hcc

-- No token continues over these characters, except for a literal.
def isBreak (c : Char) : Bool :=
  isSpaceChar c || c = '/' || c = '"' || c = '\''

-- Two texts agree up to characters that no token continues over.
inductive Masks : List Char → List Char → Prop
  | stop {x y} : (∀ c ∈ x.head?, isBreak c) → (∀ c ∈ y.head?, isBreak c) → Masks x y
  | cons {c x y} : Masks x y → Masks (c :: x) (c :: y)

variable {x y : List Char} {p : Char → Bool} {s s' t : LexState} {text : List Char}

-- The scanners of tokens stop at breaks.
def Breaks (p : Char → Bool) : Prop :=
  ∀ c, isBreak c → p c = false

theorem isBreak_iff : isBreak c ↔ c ∈ [' ', '\n', '\x09', '\x0d', '\x0b', '\x0c', '/', '"', '\''] := by
  simp [isBreak, isSpaceChar]
  tauto

theorem Breaks.of_all (h : [' ', '\n', '\x09', '\x0d', '\x0b', '\x0c', '/', '"', '\''].all (!p ·)) : Breaks p := by
  intro c hc
  simpa using List.all_eq_true.mp h c <| isBreak_iff.mp hc

theorem Masks.span (h : Masks x y) (hp : Breaks p) :
    x.takeWhile p = y.takeWhile p ∧ Masks (x.dropWhile p) (y.dropWhile p) := by
  have hb {x : List Char} (hx : ∀ c ∈ x.head?, isBreak c) : x.takeWhile p = [] ∧ x.dropWhile p = x := by
    cases x
    case nil  => exact ⟨rfl, rfl⟩
    case cons => simp [hp _ <| hx _ rfl]
  induction h
  case stop hx hy      => simpa [hb hx, hb hy] using Masks.stop hx hy
  case cons c x y h hi =>
    cases hc : p c
    case false => simpa [hc] using h.cons
    case true  => simpa [hc] using hi

theorem Masks.symm (h : Masks x y) : Masks y x := by
  induction h
  case stop hx hy => exact .stop hy hx
  case cons hi    => exact hi.cons

theorem Masks.of_cons (h : Masks (c :: x) y) (hc : isBreak c = false) : ∃ y', y = c :: y' ∧ Masks x y' := by
  cases h
  case stop hx _ => exact nomatch hc.symm.trans <| hx c rfl
  case cons h    => exact ⟨_, rfl, h⟩

theorem Masks.isPrefixOf (h : Masks x y) (ht : ∀ c ∈ text, ¬isBreak c) : text.isPrefixOf x = text.isPrefixOf y := by
  induction h generalizing text <;> cases text <;> try rfl
  case stop.cons x y hx hy c cs =>
    have hc := ht c <| .head _
    have hn {x : List Char} (hx : ∀ c ∈ x.head?, isBreak c) : (c :: cs).isPrefixOf x = false := by
      cases x
      case nil  => rfl
      case cons d ds =>
        have he : c ≠ d := fun he => hc <| he ▸ hx d rfl
        simp [List.isPrefixOf, he]
    rw [hn hx, hn hy]
  case cons.cons hi c cs =>
    simp [List.isPrefixOf, hi fun c hc => ht c <| .tail _ hc]

section Scanners

-- Two scanners return the same text, and continue in corresponding states.
structure Match (r r' : List Char × LexState) : Prop where
  text : r'.1 = r.1
  rest : Masks r.2.input r'.2.input

theorem Match.get {r r' : List Char × LexState} (h : Match r r') (hr : r = (text, s')) :
    ∃ t', r' = (text, t') ∧ Masks s'.input t'.input := by
  subst hr
  exact ⟨r'.2, Prod.ext h.text rfl, h.rest⟩

theorem takeWhileColumns_masks (h : Masks s.input t.input) (hp : Breaks p) :
    Match (takeWhileColumns p s) (takeWhileColumns p t) := by
  have ⟨ht, hd⟩ := h.span hp
  simp only [takeWhileColumns, List.span_eq_takeWhile_dropWhile, ←ht]
  cases s.input.takeWhile p
  case nil  => exact ⟨rfl, h⟩
  case cons => exact ⟨rfl, hd⟩

theorem Breaks.stops (hp : Breaks p) (hx : ∀ c ∈ x.head?, isBreak c) : Stops p x :=
  fun c hc => hp c <| hx c hc

-- The texts start with the same character, unless none of them continues a token.
theorem Masks.head (h : Masks x y) : (∀ c ∈ x.head?, isBreak c) ∧ (∀ c ∈ y.head?, isBreak c) ∨
    ∃ c x' y', x = c :: x' ∧ y = c :: y' ∧ Masks x' y' := by
  cases h
  case stop hx hy => exact .inl ⟨hx, hy⟩
  case cons h     => exact .inr ⟨_, _, _, rfl, rfl, h⟩

theorem takeFractionOf_dot (hi : s.input = '.' :: x) (hx : Stops (· = '.') x) :
    takeFractionOf p s = ('.' :: (takeWhileColumns p (advance '.' { s with input := x })).1,
      (takeWhileColumns p (advance '.' { s with input := x })).2) := by
  unfold takeFractionOf
  split
  case h_1 h =>
    obtain ⟨_, rfl⟩ := List.cons.inj <| hi.symm.trans h
    exact nomatch hx '.' rfl
  case h_2 h =>
    obtain ⟨_, rfl⟩ := List.cons.inj <| hi.symm.trans h
    rfl
  case h_3 h => exact absurd hi <| h _

theorem takeFractionOf_masks (h : Masks s.input t.input) (hp : Breaks p) :
    Match (takeFractionOf p s) (takeFractionOf p t) := by
  have hd : Breaks (· = '.') := .of_all rfl
  rcases h.head with ⟨hx, hy⟩ | ⟨c, x, y, hx, hy, hm⟩
  · rw [takeFractionOf_none (hd.stops hx), takeFractionOf_none (hd.stops hy)]
    exact ⟨rfl, h⟩
  · by_cases hc : c = '.'
    case neg =>
      rw [takeFractionOf_none (hx ▸ stops_cons (by simpa using hc)), takeFractionOf_none (hy ▸ stops_cons (by simpa using hc))]
      exact ⟨rfl, h⟩
    case pos =>
      subst hc
      have hdot (hx' : Stops (· = '.') x) (hy' : Stops (· = '.') y) : Match (takeFractionOf p s) (takeFractionOf p t) := by
        rw [takeFractionOf_dot hx hx', takeFractionOf_dot hy hy']
        have ⟨ht, hr⟩ := takeWhileColumns_masks (s := advance '.' { s with input := x })
          (t := advance '.' { t with input := y }) hm hp
        exact ⟨congrArg ('.' :: ·) ht, hr⟩
      rcases hm.head with ⟨hx', hy'⟩ | ⟨d, x', y', rfl, rfl, _⟩
      · exact hdot (hd.stops hx') (hd.stops hy')
      · by_cases hd' : d = '.'
        case neg => exact hdot (stops_cons (by simpa using hd')) (stops_cons (by simpa using hd'))
        case pos =>
          subst hd'
          simp only [takeFractionOf, hx, hy]
          exact ⟨rfl, h⟩

theorem takeExponentSign_none (h : Stops (fun c => c = '+' || c = '-') s.input) : takeExponentSign s = ([], s) := by
  unfold takeExponentSign
  split
  case h_1 c _ hi =>
    have hc := h c (by rw [hi]; rfl)
    rw [if_neg (by simpa using hc)]
  case h_2 => rfl

theorem takeExponent_none {markers : List Char} (h : Stops (· ∈ markers) s.input) : takeExponent markers s = ([], s) := by
  unfold takeExponent
  split
  case h_1 c _ hi =>
    have hc := h c (by rw [hi]; rfl)
    rw [if_neg (by simpa using hc)]
  case h_2 => rfl

theorem takeExponentSign_masks (h : Masks s.input t.input) : Match (takeExponentSign s) (takeExponentSign t) := by
  have hs : Breaks (fun c => c = '+' || c = '-') := .of_all rfl
  rcases h.head with ⟨hx, hy⟩ | ⟨c, x, y, hx, hy, hm⟩
  · rw [takeExponentSign_none (hs.stops hx), takeExponentSign_none (hs.stops hy)]
    exact ⟨rfl, h⟩
  · simp only [takeExponentSign, hx, hy]
    split
    case isTrue  => exact ⟨rfl, hm⟩
    case isFalse => exact ⟨rfl, h⟩

theorem takeExponent_masks {markers : List Char} (h : Masks s.input t.input) (hm : Breaks (· ∈ markers)) :
    Match (takeExponent markers s) (takeExponent markers t) := by
  have hd : Breaks isDigitChar := .of_all rfl
  rcases h.head with ⟨hx, hy⟩ | ⟨c, x, y, hx, hy, hxy⟩
  · rw [takeExponent_none (hm.stops hx), takeExponent_none (hm.stops hy)]
    exact ⟨rfl, h⟩
  · have ⟨hsign, hrest⟩ := takeExponentSign_masks (s := advance c { s with input := x })
      (t := advance c { t with input := y }) hxy
    have ⟨hdigits, hrest'⟩ := takeWhileColumns_masks hrest hd
    simp only [takeExponent, hx, hy]
    split
    case isFalse => exact ⟨rfl, h⟩
    case isTrue  =>
      simp only [hsign, hdigits]
      split
      case isTrue  => exact ⟨rfl, h⟩
      case isFalse => exact ⟨rfl, hrest'⟩

end Scanners

section Numbers

variable {cls : NumberClass} {mark : List Char}

theorem takeHexNumber_masks (h : Masks x y) (ht : takeHexNumber mark x s = .ok (text, cls, s')) :
    ∃ t', takeHexNumber mark y t = .ok (text, cls, t') := by
  rcases hD : takeWhileColumns isHexDigit (advanceMany mark { s with input := x }) with ⟨D, s₁⟩
  rcases hF : takeFractionOf isHexDigit s₁ with ⟨F, s₂⟩
  rcases hE : takeExponent ['p', 'P'] s₂ with ⟨E, s₃⟩
  rcases hS : takeWhileColumns (if F.isEmpty && E.isEmpty then isIntSuffix else isFloatSuffix) s₃ with ⟨S, s₄⟩
  have hs : Breaks (if F.isEmpty && E.isEmpty then isIntSuffix else isFloatSuffix) := by
    split <;> exact .of_all rfl
  have h : Masks (advanceMany mark { s with input := x }).input (advanceMany mark { t with input := y }).input := by simpa using h
  have ⟨t₁, hD', h⟩ := (takeWhileColumns_masks h (.of_all rfl)).get hD
  have ⟨t₂, hF', h⟩ := (takeFractionOf_masks h (.of_all rfl)).get hF
  have ⟨t₃, hE', h⟩ := (takeExponent_masks h (.of_all rfl)).get hE
  have ⟨t₄, hS', h⟩ := (takeWhileColumns_masks h hs).get hS
  simp only [takeHexNumber, takeHexFraction, hD, hF, hE, hS, hD', hF', hE', hS'] at ht ⊢
  split at ht <;> try contradiction
  case isFalse hc =>
    rw [if_neg hc]
    simp_all

theorem takeDecimalNumber_masks (h : Masks s.input t.input) (ht : takeDecimalNumber s = .ok (text, cls, s')) :
    ∃ t', takeDecimalNumber t = .ok (text, cls, t') := by
  rcases hD : takeWhileColumns isDigitChar s with ⟨D, s₁⟩
  rcases hF : takeFractionOf isDigitChar s₁ with ⟨F, s₂⟩
  rcases hE : takeExponent ['e', 'E'] s₂ with ⟨E, s₃⟩
  rcases hS : takeWhileColumns isNumberSuffix s₃ with ⟨S, s₄⟩
  have ⟨t₁, hD', h⟩ := (takeWhileColumns_masks h (.of_all rfl)).get hD
  have ⟨t₂, hF', h⟩ := (takeFractionOf_masks h (.of_all rfl)).get hF
  have ⟨t₃, hE', h⟩ := (takeExponent_masks h (.of_all rfl)).get hE
  have ⟨t₄, hS', h⟩ := (takeWhileColumns_masks h (.of_all rfl)).get hS
  simp only [takeDecimalNumber, takeFraction, hD, hF, hE, hS, hD', hF', hE', hS'] at ht ⊢
  split at ht <;> try contradiction
  case isFalse hc =>
    rw [if_neg hc]
    simp_all

-- The mark of a hexadecimal number is in front of one text if and only if it is in front of the other.
theorem Masks.of_mark (h : Masks x y) (hx : x = '0' :: c :: xs) (hc : isBreak c = false) :
    ∃ ys, y = '0' :: c :: ys ∧ Masks xs ys := by
  have ⟨y', hy, h⟩ := (hx ▸ h).of_cons rfl
  have ⟨ys, hy', h⟩ := h.of_cons hc
  exact ⟨ys, by rw [hy, hy'], h⟩

theorem takeNumber_masks (h : Masks s.input t.input) (ht : takeNumber s = .ok (text, cls, s')) :
    ∃ t', takeNumber t = .ok (text, cls, t') := by
  unfold takeNumber at ht
  split at ht
  case h_1 hi =>
    obtain ⟨ys, hy, hm⟩ := h.of_mark hi rfl
    simpa only [takeNumber, hy] using takeHexNumber_masks hm ht
  case h_2 hi =>
    obtain ⟨ys, hy, hm⟩ := h.of_mark hi rfl
    simpa only [takeNumber, hy] using takeHexNumber_masks hm ht
  case h_3 hx hX =>
    unfold takeNumber
    split
    case h_1 hi =>
      obtain ⟨_, hs, _⟩ := h.symm.of_mark hi rfl
      exact absurd hs <| hx _
    case h_2 hi =>
      obtain ⟨_, hs, _⟩ := h.symm.of_mark hi rfl
      exact absurd hs <| hX _
    case h_3    => exact takeDecimalNumber_masks h ht

end Numbers
end Hcc
