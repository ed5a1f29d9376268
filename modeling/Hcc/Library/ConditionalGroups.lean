import Mathlib.Data.Nat.Basic

namespace ConditionalGroups

-- The role of a line in a conditional group.
inductive Kind
  | text
  | change
  | if
  | elif
  | else
  | endif
deriving DecidableEq, Repr

-- The kinds that continue or end a group.
def Kind.Follows (k : Kind) : Prop :=
  k = .elif ∨ k = .else ∨ k = .endif

-- The lines of a given kind.
abbrev Of (kind : τ → Option Kind) (k : Kind) :=
  { t : τ // kind t = some k }

mutual

-- A sequence of lines and conditionals, where a conditional is followed by its other branches, and
-- these by the lines after the conditional.
inductive Passage {τ : Type} (kind : τ → Option Kind) : Type
  | done
  | text   (t : Of kind .text) (rest : Passage kind)
  | change (t : Of kind .change) (rest : Passage kind)
  | if     (t : Of kind .if) (body : Passage kind) (tail : Branches kind)

inductive Branches {τ : Type} (kind : τ → Option Kind) : Type
  | elif    (t : Of kind .elif) (body : Passage kind) (tail : Branches kind)
  | else    (t : Of kind .else) (body : Passage kind) (tail : Branches kind)
  | endif   (t : Of kind .endif) (rest : Passage kind)
  | missing

end

variable {τ : Type} {kind : τ → Option Kind}

mutual

def Passage.lines : Passage kind → List τ
  | .done            => []
  | .text t rest | .change t rest => t :: rest.lines
  | .if t body tail               => t :: (body.lines ++ tail.lines)

def Branches.lines : Branches kind → List τ
  | .elif t body tail | .else t body tail => t :: (body.lines ++ tail.lines)
  | .endif t rest                         => t :: rest.lines
  | .missing                              => []

end

mutual

-- Every conditional has an end.
def Passage.Closed : Passage kind → Prop
  | .done                         => True
  | .text _ rest | .change _ rest => rest.Closed
  | .if _ body tail               => body.Closed ∧ tail.Closed

def Branches.Closed : Branches kind → Prop
  | .elif _ body tail | .else _ body tail => body.Closed ∧ tail.Closed
  | .endif _ rest                         => rest.Closed
  | .missing                              => False

end

mutual

-- If a branch of a conditional is left open, then the lines end there.
def Passage.Proper : Passage kind → Prop
  | .done                         => True
  | .text _ rest | .change _ rest => rest.Proper
  | .if _ body tail               => body.Proper ∧ tail.Proper ∧ (body.Closed ∨ tail = .missing)

def Branches.Proper : Branches kind → Prop
  | .elif _ body tail | .else _ body tail =>
    body.Proper ∧ tail.Proper ∧ (body.Closed ∨ tail = .missing)
  | .endif _ rest => rest.Proper
  | .missing      => True

end

-- How conditions are decided by a table, and how the table is changed.
structure Semantics (μ τ ε : Type) where
  holds        : μ → τ → Except ε Bool
  change       : μ → τ → Except ε μ
  unterminated : ε

-- The selected lines of text, each with the table at that point, and the table at the end.
structure Selection (μ τ ε : Type) where
  texts   : List (μ × τ)
  outcome : Except ε μ

namespace Selection

variable {μ τ ε : Type}

def stop (e : ε) : Selection μ τ ε where
  texts   := []
  outcome := .error e

def cons (t : μ × τ) (s : Selection μ τ ε) : Selection μ τ ε where
  texts   := t :: s.texts
  outcome := s.outcome

def andThen (s : Selection μ τ ε) (f : μ → Selection μ τ ε) : Selection μ τ ε :=
  match s.outcome with
  | .error e => { s with outcome := .error e }
  | .ok m    => { texts := s.texts ++ (f m).texts, outcome := (f m).outcome }

def result (s : Selection μ τ ε) : Except ε (List τ) :=
  s.outcome.map fun _ => s.texts.map (·.2)

end Selection

section

variable {μ ε : Type} (sem : Semantics μ τ ε)

mutual

def Passage.select (m : μ) : Passage kind → Selection μ τ ε
  | .done          => { texts := [], outcome := .ok m }
  | .text t rest   => (rest.select m).cons (m, t)
  | .change t rest =>
    match sem.change m t with
    | .error e => .stop e
    | .ok m'   => rest.select m'
  | .if t body tail =>
    match sem.holds m t with
    | .error e  => .stop e
    | .ok true  => (body.select m).andThen (tail.select true)
    | .ok false => tail.select false m

-- The selection from the remaining branches, where `taken` says that a branch has been selected, and
-- from the lines that follow the conditional.
def Branches.select (taken : Bool) (m : μ) : Branches kind → Selection μ τ ε
  | .elif t body tail =>
    if taken then tail.select true m
    else match sem.holds m t with
    | .error e  => .stop e
    | .ok true  => (body.select m).andThen (tail.select true)
    | .ok false => tail.select false m
  | .else _ body tail =>
    if taken then tail.select true m else (body.select m).andThen (tail.select true)
  | .endif _ rest => rest.select m
  | .missing      => .stop sem.unterminated

end
end

-- The lines end, or the conditionals before them are closed and the next line does not belong to any
-- of these.
def Ends (kind : τ → Option Kind) (closed : Prop) (rest : List τ) : Prop :=
  rest = [] ∨ closed ∧ ∃ t ts k, rest = t :: ts ∧ kind t = some k ∧ k.Follows

structure Decomposition (lines : List τ) (g : Passage kind) (rest : List τ) : Prop where
  lines  : lines = g.lines ++ rest
  proper : g.Proper
  ends   : Ends kind g.Closed rest

-- Every conditional is closed, and every line belongs to one or to none.
def WellNested (g : Passage kind) (rest : List τ) : Prop :=
  g.Closed ∧ rest = []

section

variable {μ ε : Type} {sem : Semantics μ τ ε}

theorem Selection.andThen_fails {s : Selection μ τ ε} {f : μ → Selection μ τ ε}
    (h : ∀ m, ∃ e, (f m).outcome = .error e) : ∃ e, (s.andThen f).outcome = .error e := by
  unfold andThen
  split
  case h_1 e _ => exact ⟨e, rfl⟩
  case h_2 m _ => exact h m

theorem Branches.not_closed {body : Passage kind} {tail : Branches kind}
    (hb : body.Closed ∨ tail = .missing) (hc : ¬(body.Closed ∧ tail.Closed)) : ¬tail.Closed := by
  rcases hb with hb | rfl
  · exact fun ht => hc ⟨hb, ht⟩
  · exact id

mutual

-- If a conditional is left open, then there is no result.
theorem Passage.select_open (g : Passage kind) (m) (hp : g.Proper) (hc : ¬g.Closed) :
    ∃ e, (g.select sem m).outcome = .error e := by
  cases g
  case done         => exact absurd trivial hc
  case text t rest  => exact rest.select_open m hp hc
  case change t rest =>
    simp only [Passage.select]
    split
    case h_1 e _  => exact ⟨e, rfl⟩
    case h_2 m' _ => exact rest.select_open m' hp hc
  case «if» t body tail =>
    have ⟨_, ht, hb⟩ := hp
    have ho := Branches.not_closed hb hc
    simp only [Passage.select]
    split
    case h_1 e _ => exact ⟨e, rfl⟩
    case h_2     => exact Selection.andThen_fails (tail.select_open true · ht ho)
    case h_3     => exact tail.select_open false m ht ho

theorem Branches.select_open (b : Branches kind) (taken m) (hp : b.Proper) (hc : ¬b.Closed) :
    ∃ e, (b.select sem taken m).outcome = .error e := by
  cases b
  case missing      => exact ⟨_, rfl⟩
  case endif t rest => exact rest.select_open m hp hc
  case elif t body tail =>
    have ⟨_, ht, hb⟩ := hp
    have ho := Branches.not_closed hb hc
    simp only [Branches.select]
    split
    case isTrue => exact tail.select_open true m ht ho
    case isFalse =>
      split
      case h_1 e _ => exact ⟨e, rfl⟩
      case h_2     => exact Selection.andThen_fails (tail.select_open true · ht ho)
      case h_3     => exact tail.select_open false m ht ho
  case «else» t body tail =>
    have ⟨_, ht, hb⟩ := hp
    have ho := Branches.not_closed hb hc
    simp only [Branches.select]
    split
    case isTrue  => exact tail.select_open true m ht ho
    case isFalse => exact Selection.andThen_fails (tail.select_open true · ht ho)

end

end

section

variable {lines : List τ} {n : Nat}

-- The lines are the ones of a passage, or of remaining branches if they begin like these.
structure Decomposable (kind : τ → Option Kind) (lines : List τ) : Prop where
  passage  : ∃ (g : Passage kind) (rest : _), Decomposition lines g rest
  branches : ∀ t ts k, lines = t :: ts → kind t = some k → k.Follows →
    ∃ (tail : Branches kind) (rest : _),
      lines = tail.lines ++ rest ∧ tail.Proper ∧ Ends kind tail.Closed rest

-- A branch is followed by the remaining ones.
theorem exists_branch (hi : ∀ ls : List τ, ls.length ≤ lines.length → (∀ t ∈ ls, (kind t).isSome) → Decomposable kind ls)
    (hk : ∀ t ∈ lines, (kind t).isSome) :
    ∃ (body : Passage kind) (tail : Branches kind) (rest : _),
      lines = body.lines ++ tail.lines ++ rest ∧
      (body.Proper ∧ tail.Proper ∧ (body.Closed ∨ tail = .missing)) ∧
      Ends kind (body.Closed ∧ tail.Closed) rest := by
  have ⟨body, rest, hl, hp, he⟩ := (hi lines le_rfl hk).passage
  rcases he with rfl | ⟨hc, t, ts, k, rfl, ht, hf⟩
  case inl =>
    exact ⟨body, .missing, [], by simpa [Branches.lines] using hl, ⟨hp, trivial, .inr rfl⟩, .inl rfl⟩
  case inr =>
    have hs : (t :: ts).length ≤ lines.length := by rw [hl, List.length_append]; omega
    have hd := hi (t :: ts) hs fun u hu => hk u <| hl ▸ List.mem_append_right _ hu
    have ⟨tail, rest, hts, htp, hte⟩ := hd.branches t ts k rfl ht hf
    refine ⟨body, tail, rest, ?_, ⟨hp, htp, .inl hc⟩, hte.imp id fun h => ⟨⟨hc, h.left⟩, h.right⟩⟩
    rw [hl, hts, List.append_assoc]

theorem decomposable (n : Nat) (lines : List τ) (hn : lines.length ≤ n)
    (hk : ∀ t ∈ lines, (kind t).isSome) : Decomposable kind lines := by
  induction n generalizing lines
  case zero =>
    obtain rfl := List.eq_nil_of_length_eq_zero (Nat.le_zero.mp hn)
    exact ⟨⟨.done, [], rfl, trivial, .inl rfl⟩, nofun⟩
  case succ n hi =>
    cases lines
    case nil => exact ⟨⟨.done, [], rfl, trivial, .inl rfl⟩, nofun⟩
    case cons t ts =>
      have hs : ts.length ≤ n := Nat.le_of_succ_le_succ hn
      have hkt := fun u hu => hk u <| List.mem_cons_of_mem t hu
      have hd := hi ts hs hkt
      have ⟨body, tail, rest, hl, hp, he⟩ :=
        exists_branch (fun ls hls => hi ls (Nat.le_trans hls hs)) hkt
      have ⟨g, rest', hg⟩ := hd.passage
      have ⟨k, ht⟩ := Option.isSome_iff_exists.mp <| hk t (.head _)
      constructor
      case passage =>
        cases k
        case text   => exact ⟨.text ⟨t, ht⟩ g, rest', congrArg (t :: ·) hg.lines, hg.proper, hg.ends⟩
        case change => exact ⟨.change ⟨t, ht⟩ g, rest', congrArg (t :: ·) hg.lines, hg.proper, hg.ends⟩
        case «if»   => exact ⟨.if ⟨t, ht⟩ body tail, rest, congrArg (t :: ·) hl, hp, he⟩
        case elif | «else» | endif =>
          exact ⟨.done, t :: ts, rfl, trivial, .inr ⟨trivial, t, ts, _, rfl, ht, by simp [Kind.Follows]⟩⟩
      case branches =>
        rintro _ _ k' ⟨⟩ hk' hf
        obtain rfl : k = k' := Option.some.inj <| ht.symm.trans hk'
        rcases hf with rfl | rfl | rfl
        · exact ⟨.elif ⟨t, ht⟩ body tail, rest, congrArg (t :: ·) hl, hp, he⟩
        · exact ⟨.else ⟨t, ht⟩ body tail, rest, congrArg (t :: ·) hl, hp, he⟩
        · exact ⟨.endif ⟨t, ht⟩ g, rest', congrArg (t :: ·) hg.lines, hg.proper, hg.ends⟩

-- Every sequence of lines has a decomposition.
theorem exists_decomposition (hk : ∀ t ∈ lines, (kind t).isSome) :
    ∃ (g : Passage kind) (rest : _), Decomposition lines g rest :=
  (decomposable _ lines le_rfl hk).passage

end
end ConditionalGroups
