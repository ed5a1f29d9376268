import Hcc.ConstExpr.Theorems.Values
import Hcc.Parser.Theorems.Reads

open CInteger Digits Hcc.Parser

namespace Hcc

-- An enumerator has type `int` exactly if its value is one of this type.
structure Constant.Enumerator (c : Constant) : Prop where
  integral : c.Integral
  int      : c.type = .int ↔ -2 ^ 31 ≤ c.value ∧ c.value < 2 ^ 31

section Constants

variable {a b c v : Constant} {x : Int}

theorem Constant.WellFormed.ext (ha : a.WellFormed) (hb : b.WellFormed) (ht : a.type = b.type)
    (hv : a.value = b.value) : a = b := by
  have hm : Digits.value 256 a.bytes ≡ Digits.value 256 b.bytes [ZMOD a.type.modulus] := by
    rw [Constant.value, Constant.value, ←ht] at hv
    exact IntType.wrap_eq_iff.mp hv
  have hs : a.size = b.size := congrArg IntType.size ht
  have hla := ha.word_bounds
  have hlb := ht ▸ hb.word_bounds
  have hd : Digits.value 256 a.bytes = Digits.value 256 b.bytes := by
    rwa [Int.ModEq, Int.emod_eq_of_lt hla.left hla.right, Int.emod_eq_of_lt hlb.left hlb.right] at hm
  have hl : a.bytes.length = b.bytes.length := by rw [ha.length, hb.length, hs]
  exact Constant.ext hs (congrArg IntType.unsigned ht) <| ha.proper.eq_of_value_eq (by decide) hb.proper hl hd

theorem wrap_int_eq_iff : IntType.int.wrap x = x ↔ -2 ^ 31 ≤ x ∧ x < 2 ^ 31 := by
  rw [IntType.wrap_eq_self_iff, if_neg (by decide)]
  have hm : (IntType.int.modulus : Int) = 2 ^ 32 := rfl
  rw [hm]
  omega

-- The type `long long` of the same signedness is as wide as every integer constant.
theorem Constant.Integral.wrap_wide (h : c.Integral) : IntType.wrap ⟨8, c.unsigned⟩ c.value = c.value := by
  have hw := IntType.wrap_eq_self_iff.mp <| wrap_value (c := c)
  have hm : (c.type.modulus : Int) ≤ (⟨8, c.unsigned⟩ : IntType).modulus := by
    refine Int.ofNat_le.mpr <| IntType.modulus_le ?_
    rcases h.standard with hs | hs <;> simp [Constant.type, hs]
  rw [IntType.wrap_eq_self_iff]
  have hu : c.type.unsigned = c.unsigned := rfl
  rw [hu] at hw
  split_ifs at hw ⊢ <;> omega

theorem Constant.Integral.bounds (h : c.Integral) : -2 ^ 63 ≤ c.value ∧ c.value < 2 ^ 64 := by
  have hw := IntType.wrap_eq_self_iff.mp h.wrap_wide
  have hm : ((⟨8, c.unsigned⟩ : IntType).modulus : Int) = 2 ^ 64 := rfl
  rw [hm] at hw
  split_ifs at hw <;> omega

theorem int_wrap_bounds : -2 ^ 31 ≤ IntType.int.wrap x ∧ IntType.int.wrap x < 2 ^ 31 :=
  wrap_int_eq_iff.mp IntType.wrap_wrap

theorem long_wrap_eq (h : -2 ^ 31 ≤ x ∧ x < 2 ^ 31) : IntType.wrap ⟨8, false⟩ x = x := by
  have hm : ((⟨8, false⟩ : IntType).modulus : Int) = 2 ^ 64 := rfl
  rw [IntType.wrap_eq_self_iff, if_neg (by decide), hm]
  omega

-- The sign tells the values apart that are extended to the same word.
theorem long_wrap_int_iff (h : -2 ^ 63 ≤ x ∧ x < 2 ^ 64) :
    IntType.wrap ⟨8, false⟩ x = IntType.int.wrap x ∧ (x < 0 ↔ IntType.int.wrap x < 0) ↔ IntType.int.wrap x = x := by
  have hy := @int_wrap_bounds x
  constructor
  case mp =>
    rintro ⟨hw, hs⟩
    have hm : IntType.int.wrap x ≡ x [ZMOD 2 ^ 64] := hw ▸ IntType.wrap_modEq (t := ⟨8, false⟩)
    have ⟨k, hk⟩ := hm.dvd
    omega
  case mpr =>
    intro he
    rw [he] at hy ⊢
    exact ⟨long_wrap_eq hy, Iff.rfl⟩

-- The value is narrowed if nothing is lost.
theorem constantToIntChecked_eq (h : c.Integral) : constantToIntChecked c =
    if -2 ^ 31 ≤ c.value ∧ c.value < 2 ^ 31 then some c.value else none := by
  have hw : (constConvert 8 false c).Represents ⟨8, false⟩ c.value :=
    constantConvert_represents (t := ⟨8, false⟩) h.wellFormed
  have hn : (constConvert 4 false c).Represents .int c.value := constantConvert_represents (t := .int) h.wellFormed
  have hr : (constConvert 8 false (constConvert 4 false c)).Represents ⟨8, false⟩ (constConvert 4 false c).value :=
    constantConvert_represents (t := ⟨8, false⟩) hn.wellFormed
  have hv : (constConvert 8 false (constConvert 4 false c)).value = IntType.int.wrap c.value := by
    rw [hr.value, hn.value, long_wrap_eq int_wrap_bounds]
  have hb : (constConvert 8 false c).bytes = (constConvert 8 false (constConvert 4 false c)).bytes ↔
      IntType.wrap ⟨8, false⟩ c.value = IntType.int.wrap c.value := by
    rw [←hw.value, ←hv]
    constructor
    · exact fun he => congrArg Constant.value <| Constant.ext rfl rfl he
    · exact fun he => congrArg Constant.bytes <| hw.wellFormed.ext hr.wellFormed rfl he
  have hs : constNegative c = constNegative (constConvert 4 false c) ↔
      (c.value < 0 ↔ IntType.int.wrap c.value < 0) := by
    rw [Bool.eq_iff_iff, h.wellFormed.negative_iff, hn.wellFormed.negative_iff, hn.value]
  have hc := long_wrap_int_iff h.bounds
  rw [←hb, ←hs, wrap_int_eq_iff] at hc
  simp only [constantToIntChecked, hc]
  split_ifs with hf
  case pos =>
    rw [constantToInt_eq hn.wellFormed, hn.value, wrap_int_eq_iff.mpr hf]
  case neg => rfl

theorem constantInt_int (h : -2 ^ 31 ≤ x ∧ x < 2 ^ 31) :
    (constantInt 4 x).Enumerator ∧ (constantInt 4 x).value = x := by
  have hr : (constantInt 4 x).Represents .int x :=
    Constant.represents_of_word (t := .int) length_intBytes proper_intBytes <| by
      rw [value_intBytes]
      exact Int.mod_modEq ..
  have hv := hr.value.trans <| wrap_int_eq_iff.mpr h
  exact ⟨⟨constantInt_integral <| .inl rfl, iff_of_true rfl <| by rwa [hv]⟩, hv⟩

theorem Constant.Integral.int_bounds (h : c.type = .int) : -2 ^ 31 ≤ c.value ∧ c.value < 2 ^ 31 :=
  wrap_int_eq_iff.mp <| h ▸ wrap_value

theorem normalizeParserConstant_spec (h : c.Integral) :
    (normalizeParserConstant c).Enumerator ∧ (normalizeParserConstant c).value = c.value ∧
      (normalizeParserConstant c = c ∨ (normalizeParserConstant c).type = .int) := by
  unfold normalizeParserConstant
  rw [constantToIntChecked_eq h]
  split_ifs with hf
  case pos =>
    have ⟨he, hv⟩ := constantInt_int hf
    exact ⟨he, hv, .inr rfl⟩
  case neg => exact ⟨⟨h, iff_of_false (fun ht => hf <| Constant.Integral.int_bounds ht) hf⟩, rfl, .inl rfl⟩

-- A successor that is greater has not been wrapped.
theorem wide_wrap_succ (h : IntType.wrap ⟨8, u⟩ x = x) (hl : x < IntType.wrap ⟨8, u⟩ (x + 1)) :
    IntType.wrap ⟨8, u⟩ (x + 1) = x + 1 := by
  have hm : ((⟨8, u⟩ : IntType).modulus : Int) = 2 ^ 64 := rfl
  have ⟨k, hk⟩ := (hm ▸ IntType.wrap_modEq : IntType.wrap ⟨8, u⟩ (x + 1) ≡ x + 1 [ZMOD 2 ^ 64]).dvd
  have hw : IntType.wrap ⟨8, u⟩ (IntType.wrap ⟨8, u⟩ (x + 1)) = IntType.wrap ⟨8, u⟩ (x + 1) := IntType.wrap_wrap
  rw [IntType.wrap_eq_self_iff, hm] at h hw
  split_ifs at h hw <;> omega

theorem nextParserConstant_spec (h : v.Integral) (hn : nextParserConstant v = some n) :
    n.Enumerator ∧ n.value = v.value + 1 := by
  have ht : (IntType.common ⟨8, v.unsigned⟩ ⟨8, false⟩) = ⟨8, v.unsigned⟩ := by cases v.unsigned <;> rfl
  have hw : (constantConvert 8 v.unsigned v).Represents ⟨8, v.unsigned⟩ v.value :=
    constantConvert_represents (t := ⟨8, v.unsigned⟩) h.wellFormed
  have hwi := hw.integral <| .inr rfl
  have hwv := hw.value.trans h.wrap_wide
  have ho : (constantInt 8 1).Integral := constantInt_integral <| .inr rfl
  have hadd := constantBinary_represents hwi.wellFormed ho.wellFormed hwi.standard ho.standard (n := "+") rfl
  rw [if_pos (show BinaryOp.Defined .add _ _ from trivial)] at hadd
  obtain ⟨next, hx, hnext⟩ := hadd
  have hot : (constantInt 8 1).type = ⟨8, false⟩ := rfl
  have hov : (constantInt 8 1).value = 1 := by decide
  have hu : IntType.wrap ⟨8, v.unsigned⟩ 1 = 1 := by cases v.unsigned <;> decide
  rw [hw.type, hot, hov, hwv, BinaryOp.resultType, if_neg (by decide), if_neg (by decide), BinaryOp.eval, ht, hu,
    h.wrap_wide] at hnext
  have hni := hnext.integral <| .inr rfl
  have hgt := constantBinary_represents hni.wellFormed hwi.wellFormed hni.standard hwi.standard (n := ">") rfl
  rw [if_pos (show BinaryOp.Defined .gt _ _ from trivial)] at hgt
  obtain ⟨greater, hg, hgreater⟩ := hgt
  have htt : (IntType.common ⟨8, v.unsigned⟩ ⟨8, v.unsigned⟩) = ⟨8, v.unsigned⟩ := by cases v.unsigned <;> rfl
  rw [hw.type, hnext.type, hwv, hnext.value, BinaryOp.eval, htt, IntType.wrap_wrap, h.wrap_wide] at hgreater
  unfold nextParserConstant at hn
  simp only [hx, hg] at hn
  split_ifs at hn with hc
  cases hn
  have hl : v.value < IntType.wrap ⟨8, v.unsigned⟩ (v.value + 1) := by
    rw [hgreater.wellFormed.true_iff, hgreater.value] at hc
    by_contra hf
    exact hc <| by simp [hf, BinaryOp.ofBool]
  obtain ⟨he, hv, _⟩ := normalizeParserConstant_spec hni
  exact ⟨he, hv.trans <| hnext.value.trans <| wide_wrap_succ h.wrap_wide hl⟩

end Constants

section Runs

variable {env env₁ env' : ParserEnv} {toks toks₁ rest : List Token} {next : Option Constant} {v c : Constant}

-- An enumerator of a list: its name, the value of its initializer, and the constant that it is bound to.
structure EnumeratorDecl where
  name  : String
  init  : Option Constant
  value : Constant

-- The tokens up to `rest` are an initializer with the value `c`.
def Initializes (env : ParserEnv) (toks : List Token) (c : Constant) (rest : List Token) : Prop :=
  ∃ expr trailing, takeEnumValueExprFrom 0 0 0 [] toks = (expr, rest) ∧
    parseTypedConstExprTarget env.bits env.constants expr = some (.ok (c, trailing)) ∧
    trailing.all ignorableEnumExprTail

-- The tokens between the name and `rest` are the initializer.
def InitializesOption (env : ParserEnv) (toks : List Token) (init : Option Constant) (rest : List Token) : Prop :=
  match init with
  | none   => rest = toks ∧ ∀ tok ∈ toks.head?, tok.kind ≠ .punct "="
  | some c => ∃ s toks₁, toks = ⟨s, .punct "="⟩ :: toks₁ ∧ Initializes env toks₁ c rest

-- The list of enumerators that the tokens up to `rest` declare. Superfluous commas are skipped.
inductive EnumBody : ParserEnv → List Token → List EnumeratorDecl → ParserEnv → List Token → Prop
  | close {env s toks} : EnumBody env (⟨s, .punct "\x7d"⟩ :: toks) [] env toks
  | comma {env s toks es env' rest} :
    EnumBody env toks es env' rest → EnumBody env (⟨s, .punct ","⟩ :: toks) es env' rest
  | last {env s toks e env₁ s' rest} : InitializesOption env toks e.init (⟨s', .punct "\x7d"⟩ :: rest) →
    Yields (bindParserConstant e.name e.value) env (⟨s', .punct "\x7d"⟩ :: rest) () env₁
      (⟨s', .punct "\x7d"⟩ :: rest) →
    EnumBody env (⟨s, .ident e.name⟩ :: toks) [e] env₁ rest
  | more {env s toks e env₁ s' toks₁ es env' rest} : InitializesOption env toks e.init (⟨s', .punct ","⟩ :: toks₁) →
    Yields (bindParserConstant e.name e.value) env (⟨s', .punct ","⟩ :: toks₁) () env₁ (⟨s', .punct ","⟩ :: toks₁) →
    EnumBody env₁ toks₁ es env' rest → EnumBody env (⟨s, .ident e.name⟩ :: toks) (e :: es) env' rest

-- The values are those of the initializers, or else they count on from `n`.
def Numbered (n : Int) : List EnumeratorDecl → Prop
  | []      => True
  | e :: es =>
    e.value.value = (e.init.map Constant.value).getD n ∧ (∀ c ∈ e.init, e.value = c ∨ e.value.type = .int) ∧
      Numbered (e.value.value + 1) es

-- The constants of the environment are enumerators.
def ParserEnv.Enumerators (env : ParserEnv) : Prop :=
  ∀ item ∈ env.constants, item.2.Enumerator

theorem eat_cases {kind : TokenKind} (h : Yields (eat kind) env toks found env₁ rest) : env₁ = env ∧
    ((found = true ∧ ∃ s, toks = ⟨s, kind⟩ :: rest) ∨
      (found = false ∧ rest = toks ∧ ∀ tok ∈ toks.head?, tok.kind ≠ kind)) := by
  cases toks
  case nil =>
    have ⟨hf, he, hr⟩ := h.unique <| eat_yields_false fun _ h => nomatch h
    exact ⟨he, .inr ⟨hf, hr, fun _ h => nomatch h⟩⟩
  case cons tok toks =>
    by_cases hk : tok.kind = kind
    case pos =>
      subst hk
      have ⟨hf, he, hr⟩ := h.unique eat_yields
      exact ⟨he, .inl ⟨hf, tok.span, hr ▸ rfl⟩⟩
    case neg =>
      have hn : ∀ t ∈ (tok :: toks).head?, t.kind ≠ kind := fun t ht => Option.some.inj ht ▸ hk
      have ⟨hf, he, hr⟩ := h.unique <| eat_yields_false hn
      exact ⟨he, .inr ⟨hf, hr, hn⟩⟩

theorem not_yields_failAt {α : Type} {a : α} : ¬Yields (failAt tok msg) env toks a env₁ rest := by
  simp [Yields, failAt, pFail, pRaw, forceConsumed]

theorem not_yields_peek_failAt {α : Type} {a : α} :
    ¬Yields (peek >>= fun tok => failAt tok msg) env toks a env₁ rest := by
  intro h
  have ⟨_, _, _, _, h⟩ := h.exists_of_bind
  exact not_yields_failAt h

theorem bindParserConstant_enumerators (he : env.Enumerators) (hv : v.Enumerator)
    (h : Yields (bindParserConstant name v) env toks () env₁ rest) : env₁.Enumerators ∧ rest = toks := by
  by_cases hn : name = ""
  case pos =>
    subst hn
    have hy : Yields (bindParserConstant "" v) env toks () env toks := rfl
    have ⟨_, h₁, hr⟩ := h.unique hy
    exact ⟨h₁ ▸ he, hr⟩
  case neg =>
    unfold bindParserConstant bindParserName at h
    rw [if_pos hn] at h
    have ⟨x, _, _, hx, h⟩ := h.exists_of_bind
    have ⟨hxe, _, ht⟩ := Yields.pEnv.unique hx
    subst hxe ht
    simp only [Yields, pSetEnv, Option.map_some, forceConsumed, Option.some.injEq, Reply.ok.injEq, true_and] at h
    refine ⟨?_, h.right.symm⟩
    rw [←h.left]
    have hc : ∀ item ∈ (name, v) :: env.constants, item.2.Enumerator := List.forall_mem_cons.mpr ⟨hv, he⟩
    intro item hi
    apply hc
    dsimp only at hi
    rcases List.mem_cons.mp hi with hi | hi
    case inl => exact hi ▸ .head _
    case inr =>
      apply List.mem_cons_of_mem
      split at hi
      · exact List.mem_of_mem_filter hi
      · exact hi

theorem enumValue_cases (h : Yields (enumValue next) env toks v env₁ rest) : env₁ = env ∧
    ((InitializesOption env toks none rest ∧ next = some v) ∨
      ∃ c, InitializesOption env toks (some c) rest ∧ v = normalizeParserConstant c) := by
  unfold enumValue at h
  obtain ⟨found, _, toks₁, hf, hb⟩ := h.exists_of_bind
  obtain ⟨rfl, ⟨rfl, s, rfl⟩ | ⟨rfl, rfl, hn⟩⟩ := eat_cases hf
  case inl =>
    rw [if_pos rfl] at hb
    obtain ⟨expr, _, _, hx, hb⟩ := hb.exists_of_bind
    simp only [Yields, takeEnumValueExpr, pRaw, Option.map_some, forceConsumed, Option.some.injEq,
      Reply.ok.injEq] at hx
    obtain ⟨rfl, rfl, rfl⟩ := hx
    obtain ⟨x, _, _, hx, hb⟩ := hb.exists_of_bind
    obtain ⟨rfl, rfl, rfl⟩ := Yields.pEnv.unique hx
    split at hb
    case h_1 => cases hb
    case h_2 => exact absurd hb not_yields_peek_failAt
    case h_3 c trailing hp =>
      split at hb
      case isTrue ht =>
        obtain ⟨hv, he, hr⟩ := Yields.pure.unique hb
        exact ⟨he.symm, .inr ⟨c, ⟨s, _, rfl, _, _, hr ▸ rfl, hp, ht⟩, hv.symm⟩⟩
      case isFalse =>
        split at hb
        · exact absurd hb not_yields_failAt
        · exact absurd hb not_yields_peek_failAt
  case inr =>
    rw [if_neg Bool.false_ne_true] at hb
    split at hb
    case h_1 value =>
      obtain ⟨hv, he, hr⟩ := Yields.pure.unique hb
      exact ⟨he.symm, .inl ⟨⟨hr.symm, hn⟩, congrArg some hv⟩⟩
    case h_2 => exact absurd hb not_yields_peek_failAt

theorem needIdent_cases (h : Yields needIdent env toks name env₁ rest) :
    env₁ = env ∧ ∃ s, toks = ⟨s, .ident name⟩ :: rest := by
  cases toks
  case nil => cases Option.some.inj h
  case cons tok toks =>
    have hb : Yields _ env (tok :: toks) name env₁ rest := peek_yields.bind_iff.mp h
    split at hb
    case h_1 s hk =>
      obtain ⟨hn, he, hr⟩ := hb.unique <| advanceToken_yields.bind .pure
      subst hn he hr
      exact ⟨rfl, tok.span, by rw [←hk]⟩
    case h_2 => exact absurd hb not_yields_failAt

theorem needPunct_cases (h : Yields (needPunct p) env toks () env₁ rest) :
    env₁ = env ∧ ∃ s, toks = ⟨s, .punct p⟩ :: rest := by
  unfold needPunct at h
  obtain ⟨found, _, toks₁, hf, hb⟩ := h.exists_of_bind
  obtain ⟨rfl, ⟨rfl, s, rfl⟩ | ⟨rfl, rfl, -⟩⟩ := eat_cases hf
  case inl =>
    have ⟨_, he, hr⟩ := Yields.pure.unique hb
    exact ⟨he.symm, s, by rw [hr]⟩
  case inr => exact absurd hb not_yields_peek_failAt

-- The value of an enumerator, and that of the next one without an initializer.
theorem enumValue_spec (he : env.Enumerators) (hn : ∀ m ∈ next, m.Enumerator ∧ m.value = n)
    (h : Yields (enumValue next) env toks v env₁ rest) : env₁ = env ∧ v.Enumerator ∧
    (∀ m ∈ nextParserConstant v, m.Enumerator ∧ m.value = v.value + 1) ∧
    ∃ init, InitializesOption env toks init rest ∧ v.value = (init.map Constant.value).getD n ∧
      ∀ c ∈ init, v = c ∨ v.type = .int := by
  have ⟨hv, hc⟩ := enumValue_cases h
  rcases hc with ⟨hi, hs⟩ | ⟨c, hi, rfl⟩
  case inl =>
    have ⟨hm, hx⟩ := hn v hs
    exact ⟨hv, hm, fun _ hm' => nextParserConstant_spec hm.integral hm', none, hi, hx, nofun⟩
  case inr =>
    have ⟨_, _, _, _, _, _, hp, _⟩ := hi
    have hc := parseTypedConstExprTarget_integral (fun item hi => (he item hi).integral) hp
    have ⟨hm, hx, ht⟩ := normalizeParserConstant_spec hc
    refine ⟨hv, hm, fun _ hm' => nextParserConstant_spec hm.integral hm', some c, hi, hx, fun c' hc' => ?_⟩
    cases hc'
    exact ht

-- The induction is on the fuel. The enumerators before the position have the values below `n`.
theorem parseEnumBody_reads (he : env.Enumerators) (hn : ∀ m ∈ next, m.Enumerator ∧ m.value = n)
    (h : Yields (parseEnumBody fuel next) env toks () env' rest) :
    ∃ es, EnumBody env toks es env' rest ∧ Numbered n es ∧ (∀ e ∈ es, e.value.Enumerator) ∧ env'.Enumerators := by
  induction fuel generalizing env toks next n
  case zero => cases h
  case succ fuel hi =>
    rw [parseEnumBody] at h
    obtain ⟨found, _, toks₁, hf, h₁⟩ := h.exists_of_bind
    obtain ⟨rfl, ⟨rfl, s, rfl⟩ | ⟨rfl, rfl, -⟩⟩ := eat_cases hf
    case inl =>
      obtain ⟨-, rfl, rfl⟩ := Yields.pure.unique h₁
      exact ⟨[], .close, trivial, List.forall_mem_nil _, he⟩
    case inr =>
      rw [if_neg Bool.false_ne_true] at h₁
      obtain ⟨found, _, toks₁, hf, h₂⟩ := h₁.exists_of_bind
      obtain ⟨rfl, ⟨rfl, s, rfl⟩ | ⟨rfl, rfl, -⟩⟩ := eat_cases hf
      case inl =>
        obtain ⟨es, hes, hr⟩ := hi he hn h₂
        exact ⟨es, .comma hes, hr⟩
      case inr =>
        rw [if_neg Bool.false_ne_true] at h₂
        obtain ⟨name, _, toks₂, hx, h₃⟩ := h₂.exists_of_bind
        obtain ⟨rfl, s, rfl⟩ := needIdent_cases hx
        obtain ⟨v, _, toks₃, hx, h₄⟩ := h₃.exists_of_bind
        obtain ⟨rfl, hv, hm, init, hinit, hval, hint⟩ := enumValue_spec he hn hx
        obtain ⟨⟨⟩, env₃, toks₄, hx, h₅⟩ := h₄.exists_of_bind
        obtain ⟨he₃, rfl⟩ := bindParserConstant_enumerators he hv hx
        have one : Numbered n [⟨name, init, v⟩] ∧ ∀ e ∈ [EnumeratorDecl.mk name init v], e.value.Enumerator :=
          ⟨⟨hval, hint, trivial⟩, List.forall_mem_singleton.mpr hv⟩
        obtain ⟨found, _, toks₅, hf, h₆⟩ := h₅.exists_of_bind
        obtain ⟨rfl, ⟨rfl, s', rfl⟩ | ⟨rfl, rfl, -⟩⟩ := eat_cases hf
        case inr =>
          obtain ⟨rfl, s', rfl⟩ := needPunct_cases h₆
          exact ⟨[⟨name, init, v⟩], .last (e := ⟨name, init, v⟩) hinit hx, one.left, one.right, he₃⟩
        case inl =>
          rw [if_pos rfl] at h₆
          obtain ⟨found, _, toks₆, hf, h₇⟩ := h₆.exists_of_bind
          obtain ⟨rfl, ⟨rfl, s'', rfl⟩ | ⟨rfl, rfl, -⟩⟩ := eat_cases hf
          case inl =>
            obtain ⟨-, rfl, rfl⟩ := Yields.pure.unique h₇
            exact ⟨[⟨name, init, v⟩], .more (e := ⟨name, init, v⟩) hinit hx .close, one.left, one.right, he₃⟩
          case inr =>
            rw [if_neg Bool.false_ne_true] at h₇
            obtain ⟨es, hes, hnum, hall, he'⟩ := hi he₃ hm h₇
            exact ⟨⟨name, init, v⟩ :: es, .more (e := ⟨name, init, v⟩) hinit hx hes, ⟨hval, hint, hnum⟩,
              List.forall_mem_cons.mpr ⟨hv, hall⟩, he'⟩

theorem optionalIdent_cases (h : Yields optionalIdent env toks name env₁ rest) :
    env₁ = env ∧ (name = "" ∧ rest = toks ∨ ∃ s, toks = ⟨s, .ident name⟩ :: rest) := by
  have hb : Yields _ env toks name env₁ rest := peekKind_yields.bind_iff.mp h
  split at hb
  case h_1 s hk =>
    cases toks
    case nil => cases hk
    case cons tok toks =>
      obtain ⟨rfl, rfl, rfl⟩ := hb.unique <| advanceToken_yields.bind .pure
      exact ⟨rfl, .inr ⟨tok.span, by rw [←Option.some.inj hk]⟩⟩
  case h_2 =>
    obtain ⟨rfl, rfl, rfl⟩ := Yields.pure.unique hb
    exact ⟨rfl, .inl ⟨rfl, rfl⟩⟩

-- An enumeration that is read has enumerators that count from zero.
theorem enumType_reads (he : env.Enumerators) (h : Yields (enumType n) env toks type env' rest) :
    ∃ name tok toks₁, type = .enum name ∧
      (name = "" ∧ toks = tok :: toks₁ ∨ ∃ s, toks = tok :: ⟨s, .ident name⟩ :: toks₁) ∧
      (rest = toks₁ ∧ env' = env ∨ ∃ s toks₂ es, toks₁ = ⟨s, .punct "\x7b"⟩ :: toks₂ ∧
        EnumBody env toks₂ es env' rest ∧ Numbered 0 es ∧ ∀ e ∈ es, e.value.Enumerator) ∧ env'.Enumerators := by
  unfold enumType at h
  obtain ⟨⟨⟩, env₁, toks₁, hx, h₁⟩ := h.exists_of_bind
  cases toks
  case nil => cases Option.some.inj hx
  case cons tok toks =>
    obtain ⟨_, hv, ht⟩ := hx.unique advanceToken_yields
    subst env₁ toks₁
    obtain ⟨name, _, toks₁, hx, h₂⟩ := h₁.exists_of_bind
    obtain ⟨rfl, hname⟩ := optionalIdent_cases hx
    have hname : name = "" ∧ tok :: toks = tok :: toks₁ ∨ ∃ s, tok :: toks = tok :: ⟨s, .ident name⟩ :: toks₁ := by
      rcases hname with ⟨hn, rfl⟩ | ⟨s, rfl⟩
      · exact .inl ⟨hn, rfl⟩
      · exact .inr ⟨s, rfl⟩
    obtain ⟨body, _, toks₂, hx, h₃⟩ := h₂.exists_of_bind
    obtain ⟨rfl, ⟨rfl, s, rfl⟩ | ⟨rfl, rfl, -⟩⟩ := eat_cases hx
    case inl =>
      rw [if_pos rfl] at h₃
      obtain ⟨⟨⟩, env₂, toks₃, hx, h₄⟩ := h₃.exists_of_bind
      obtain ⟨rfl, rfl, rfl⟩ := Yields.pure.unique h₄
      obtain ⟨hz, hv⟩ := @constantInt_int 0 (by decide)
      have hn : ∀ m ∈ some (constantInt 4 0), m.Enumerator ∧ m.value = 0 := by
        rintro m ⟨⟩
        exact ⟨hz, hv⟩
      obtain ⟨es, hes, hnum, hall, he'⟩ := parseEnumBody_reads he hn hx
      exact ⟨name, tok, _, rfl, hname, .inr ⟨s, _, es, rfl, hes, hnum, hall⟩, he'⟩
    case inr =>
      rw [if_neg Bool.false_ne_true] at h₃
      obtain ⟨rfl, rfl, rfl⟩ := Yields.pure.unique h₃
      exact ⟨name, tok, _, rfl, hname, .inl ⟨rfl, rfl⟩, he⟩

-- `enum E { A = 5, B }`
def enumeratedTokens : List Token :=
  [.ident "enum", .ident "E", .punct "\x7b", .ident "A", .punct "=", .int "5", .punct ",", .ident "B",
    .punct "\x7d"].map bareToken

theorem enumType_reads_twoEnumerators : ∃ env' es,
    Yields (enumType 4) (initialParserEnv 64) enumeratedTokens (.enum "E") env' [] ∧
      EnumBody (initialParserEnv 64) (enumeratedTokens.drop 3) es env' [] ∧ Numbered 0 es ∧ env'.Enumerators := by
  have he : (initialParserEnv 64).Enumerators := fun _ h => nomatch h
  have h : Yields (enumType 4) (initialParserEnv 64) enumeratedTokens (.enum "E") _ [] := rfl
  obtain ⟨name, tok, toks₁, hn, hs, hr, he'⟩ := enumType_reads he h
  cases hn
  rcases hs with ⟨hf, -⟩ | ⟨_, ht⟩
  case inl => exact absurd hf <| by decide
  cases ht
  obtain ⟨⟨⟩, -⟩ | ⟨_, _, es, ht, hb, hnum, -⟩ := hr
  cases ht
  exact ⟨_, es, h, hb, hnum, he'⟩

end Runs
end Hcc
