import Hcc.Lower.Theorems.Meaning.Operators

open Stateful CInteger Digits

-- The code for integer expressions computes their values.
namespace Hcc

variable {w word fuel : Nat} {World : Type} {m : Machine w World} {s s' : Frame w World} {st st₁ st' : ValueState}
variable {scope : Scope} {op : Operand} {is : List Instr} {ty : CType} {t u : IntType} {x y z : Int}
variable {Γ : String → Option CType} {ρ : String → Int} {e a b : Expr} {bop : BinaryOp} {l : Lowering}

section Branches

-- The temporaries of code that is not executed are not used.
theorem Performs.weaken {st₀ st₂ : ValueState} (h₀ : st₀.Extends st) (h : Performs m st st₁ is s s')
    (h₁ : st₁.Extends st₂) : Performs m st₀ st₂ is s s' where
  runs      := h.runs
  temps t k := h.temps t <| k.trans_le h₀.nextTemp
  next      := (h₀.nextTemp.trans h.next).trans h₁.nextTemp
  bits      := h₁.targetBits.trans <| h.bits.trans h₀.targetBits
  constants := h₁.constants.trans <| h.constants.trans h₀.constants

theorem Realizes.weaken {st₀ st₂ : ValueState} (h₀ : st₀.Extends st) (h : Realizes m st st₁ s is op x)
    (h₁ : st₁.Extends st₂) : Realizes m st₀ st₂ s is op x := by
  obtain ⟨s', hp, hw, hd⟩ := h
  exact ⟨s', hp.weaken h₀ h₁, hw, hd.word, hd.small, hd.below.mono h₁.nextTemp⟩

-- Only one of the arms is executed.
theorem cond_realizes {cis tis fis : List Instr} {cop top fop : Operand} (h : Realizes m st st₁ s cis cop z)
    (hz : BitVec.ofInt w z = 0 ↔ z = 0)
    (ht : z ≠ 0 → ∀ s₁, Performs m st st₁ cis s s₁ → Realizes m st₁ st' s₁ tis top x)
    (hf : z = 0 → ∀ s₁, Performs m st st₁ cis s s₁ → Realizes m st₁ st' s₁ fis fop x) :
    Realizes m st { st' with nextTemp := st'.nextTemp + 1 } s [.cond ⟨st'.nextTemp⟩ cis cop tis top fis fop]
      (.temp ⟨st'.nextTemp⟩) x := by
  obtain ⟨s₁, hp₁, hw₁, hd₁⟩ := h
  have hr {arm : List Instr} {aop : Operand} (ha : Realizes m st₁ st' s₁ arm aop x)
      (he : ∀ s₂, m.execs 0 arm s₁ = some s₂ → m.exec 0 (.cond ⟨st'.nextTemp⟩ cis cop tis top fis fop) s =
        m.convert 0 s₂ id ⟨st'.nextTemp⟩ aop) :
      Realizes m st { st' with nextTemp := st'.nextTemp + 1 } s [.cond ⟨st'.nextTemp⟩ cis cop tis top fis fop]
        (.temp ⟨st'.nextTemp⟩) x := by
    obtain ⟨s₂, hp₂, hw₂, hd₂⟩ := ha
    have hx : m.exec 0 (.copy ⟨st'.nextTemp⟩ aop) s₂ = some (m.set 0 s₂ ⟨st'.nextTemp⟩ (.ofInt w x)) := by
      rw [Machine.exec, Machine.convert, hd₂.word]
      rfl
    obtain ⟨s₃, hp₃, hw₃, hd₃⟩ := fresh_realizes hx
    have hp := (hp₁.append hp₂).append hp₃
    refine ⟨s₃, ⟨?_, hp.temps, hp.next, hp.bits, hp.constants⟩, (hw₃.trans hw₂).trans hw₁, hd₃⟩
    have hr := hp₃.runs
    rw [Machine.execs_singleton] at hr ⊢
    rw [he s₂ hp₂.runs, ←hr, Machine.exec]
  by_cases hc : z = 0
  case pos =>
    refine hr (hf hc s₁ hp₁) fun s₂ hr₂ => ?_
    simp [Machine.exec, hp₁.runs, hd₁.word, hz.mpr hc, hr₂]
  case neg =>
    refine hr (ht hc s₁ hp₁) fun s₂ hr₂ => ?_
    have hn : ¬BitVec.ofInt w z = 0#w := mt hz.mp hc
    simp [Machine.exec, hp₁.runs, hd₁.word, hn, hr₂]

theorem lowerTruthExpr_lowers (hx : t.size ≤ word ∧ t.wrap x = x)
    (hb : exprIsBoolean e → x = BinaryOp.ofBool (x ≠ 0)) (ha : LowersTo m word Γ ρ scope (l.lowerExpr e) x) :
    LowersTo m word Γ ρ scope (l.lowerTruthExpr e) (BinaryOp.ofBool (x ≠ 0)) := by
  intro st s is op st' hc hr
  obtain ⟨⟨instrs, op₁⟩, st₁, hra, hr⟩ := run_value_bind_iff.mp hr
  dsimp only at hr
  split at hr
  case isTrue h =>
    obtain ⟨he, rfl⟩ := run_pure_iff.mp hr
    cases he
    rw [←hb h]
    exact ha hc hra
  case isFalse =>
    obtain ⟨out, _, hf, hr⟩ := run_value_bind_iff.mp hr
    obtain ⟨rfl, rfl⟩ := run_freshTemp_iff.mp hf
    obtain ⟨he, rfl⟩ := run_pure_iff.mp hr
    cases he
    refine (ha hc hra).then fun s₁ hp hd => ?_
    have hz := IntType.ofInt_eq_zero_iff (hc.width_le hx.left) hx.right
    refine bin_realizes hd (Denotes.imm (v := 0) (x := 0) (by decide) (by decide) rfl) ?_
    refine hc.standard.binary trivial ?_
    exact (congrArg (truth w) <| decide_eq_decide.mpr <| not_congr hz).trans truth_eq_ofInt

-- The second operand is evaluated only if the first one does not decide the result.
theorem lowerShortCircuit_lowers {isAnd : Bool} (hl : l.AllSteady) (hx : t.size ≤ word ∧ t.wrap x = x)
    (ha : LowersTo m word Γ ρ scope (l.lowerExpr a) x)
    (hb : (x ≠ 0 ↔ isAnd) → LowersTo m word Γ ρ scope (l.lowerTruthExpr b) z)
    (hz : ¬(x ≠ 0 ↔ isAnd) → z = BinaryOp.ofBool (x ≠ 0)) :
    LowersTo m word Γ ρ scope (l.lowerShortCircuit isAnd a b) z := by
  intro st s is op st' hc hr
  obtain ⟨⟨ai, ao⟩, st₁, hra, hr⟩ := run_value_bind_iff.mp hr
  obtain ⟨⟨bi, bo⟩, st₂, hrb, hr⟩ := run_value_bind_iff.mp hr
  obtain ⟨out, _, hf, hr⟩ := run_value_bind_iff.mp hr
  obtain ⟨rfl, rfl⟩ := run_freshTemp_iff.mp hf
  have he : st₁.Extends st₂ := Lowering.lowerTruthExpr_respects hl b hrb
  have hw := IntType.ofInt_eq_zero_iff (hc.width_le hx.left) hx.right
  have hright (h : x ≠ 0 ↔ isAnd) (s₁ : Frame w World) (hp : Performs m st st₁ ai s s₁) :
      Realizes m st₁ st₂ s₁ bi bo z :=
    hb h (hc.after hp) hrb
  have hshort {v : Int} (hv : v = z) (hl : -2 ^ 31 ≤ v ∧ v < 2 ^ 31) (s₁ : Frame w World) :
      Realizes m st₁ st₂ s₁ [] (.imm v) z :=
    (Denotes.imm hl.left hl.right <| congrArg _ hv).realizes.weaken .refl he
  cases isAnd
  case true =>
    obtain ⟨h, rfl⟩ := run_pure_iff.mp hr
    cases h
    refine cond_realizes (ha hc hra) hw (fun h => hright <| by simpa using h) fun h s₁ _ => hshort ?_ (by decide) s₁
    rw [hz (by simp [h]), h]
    rfl
  case false =>
    obtain ⟨h, rfl⟩ := run_pure_iff.mp hr
    cases h
    refine cond_realizes (ha hc hra) hw (fun h s₁ _ => hshort ?_ (by decide) s₁) fun h => hright <| by simpa using h
    rw [hz (by simp [h]), BinaryOp.ofBool, decide_eq_true h]
    rfl

theorem lowerConditional_lowers {c : Expr} {mty : IntType} (hl : l.AllSteady) (hT : l.toTyping = typing fuel)
    (ht : Expr.Typed word Γ a t) (hu : Expr.Typed word Γ b u) (hx : mty.size ≤ word ∧ mty.wrap x = x)
    (hcond : LowersTo m word Γ ρ scope (l.lowerExpr c) x)
    (ha : x ≠ 0 → LowersTo m word Γ ρ scope (l.lowerExpr a) y)
    (hb : x = 0 → LowersTo m word Γ ρ scope (l.lowerExpr b) y) :
    LowersTo m word Γ ρ scope (l.lowerConditional c a b) ((t.promote.common u.promote).wrap y) := by
  intro st s is op st' hc hr
  obtain ⟨hle, -⟩ := common_size_le hc ht hu
  unfold Lowering.lowerConditional at hr
  obtain ⟨⟨ci, co⟩, st₁, hrc, hr⟩ := run_value_bind_iff.mp hr
  obtain ⟨⟨ai, ao⟩, st₂, hra, hr⟩ := run_value_bind_iff.mp hr
  obtain ⟨⟨bi, bo⟩, st₃, hrb, hr⟩ := run_value_bind_iff.mp hr
  have h₁ : st.Extends st₁ := hl.lowerExpr c hrc
  have h₂ : st₁.Extends st₂ := hl.lowerExpr a hra
  have h₃ : st₂.Extends st₃ := hl.lowerExpr b hrb
  rw [hT] at hr
  obtain ⟨mty, st₄, hrt, hr⟩ := run_value_bind_iff.mp hr
  obtain ⟨⟨aci, aco⟩, st₅, hrac, hr⟩ := run_value_bind_iff.mp hr
  obtain ⟨⟨bci, bco⟩, st₆, hrbc, hr⟩ := run_value_bind_iff.mp hr
  obtain ⟨out, _, hf, hr⟩ := run_value_bind_iff.mp hr
  obtain ⟨rfl, rfl⟩ := run_freshTemp_iff.mp hf
  obtain ⟨h, rfl⟩ := run_pure_iff.mp hr
  cases h
  have hc₃ := hc.extend <| (h₁.trans h₂).trans h₃
  obtain ⟨⟨ty, rfl, hty⟩, rfl⟩ :=
    conditionalType_answers (hc.exprType ht) (hc.exprType hu) (hc.usual ht hu) hc₃.target rfl hrt
  have h₅ : st₄.Extends st₅ := Typing.coerceScalar_respects (typing_respects fuel) ty ao hrac
  have h₆ : st₅.Extends st₆ := Typing.coerceScalar_respects (typing_respects fuel) ty bo hrbc
  have hw := IntType.ofInt_eq_zero_iff (hc.width_le hx.left) hx.right
  refine cond_realizes (hcond hc hrc) hw (fun h s₁ hp => ?_) fun h s₁ hp => ?_
  case refine_1 =>
    have hc₁ := hc.after hp
    refine ((ha h hc₁ hra).weaken .refl h₃).then fun s₂ hp₂ hd₂ => ?_
    exact ((hc₁.after hp₂).coerceWide hty hle hd₂ hrac).weaken .refl h₆
  case refine_2 =>
    have hc₂ := (hc.after hp).extend h₂
    obtain ⟨s₂, hp₂, hw₂, hd₂⟩ := hb h hc₂ hrb
    have hp₂' := hp₂.weaken h₂ h₅
    have hc₃ := (hc₂.after hp₂).extend h₅
    have hd₃ : Denotes m st₅ s₂ bo y := ⟨hd₂.word, hd₂.small, hd₂.below.mono h₅.nextTemp⟩
    obtain ⟨s₃, hp₃, hw₃, hd₃⟩ := hc₃.coerceWide hty hle hd₃ hrbc
    exact ⟨s₃, hp₂'.append hp₃, hw₃.trans hw₂, hd₃⟩

end Branches
section Unary

theorem neg_realizes (hm : m.Standard) (h : Denotes m st s op x) :
    Realizes m st { st with nextTemp := st.nextTemp + 1 + 1 } s
      [.const ⟨st.nextTemp⟩ 0, .bin ⟨st.nextTemp + 1⟩ .sub (.temp ⟨st.nextTemp⟩) op] (.temp ⟨st.nextTemp + 1⟩) (-x) :=
  const_realizes.then fun _ hp hd => bin_realizes hd (h.after hp) <| hm.binary trivial <| by
    rw [BinOp.eval, ←ofInt_sub, Int.zero_sub]

theorem compl_realizes (hm : m.Standard) (h : Denotes m st s op x) :
    Realizes m st { st with nextTemp := st.nextTemp + 1 + 1 + 1 } s
      [.const ⟨st.nextTemp⟩ 0, .bin ⟨st.nextTemp + 1⟩ .sub (.temp ⟨st.nextTemp⟩) op,
        .bin ⟨st.nextTemp + 1 + 1⟩ .sub (.temp ⟨st.nextTemp + 1⟩) (.imm 1)] (.temp ⟨st.nextTemp + 1 + 1⟩) (-x - 1) :=
  (neg_realizes hm h).then fun _ _ hd =>
    bin_realizes hd (Denotes.imm (v := 1) (x := 1) (by decide) (by decide) rfl) <|
      hm.binary trivial ofInt_sub.symm

theorem not_realizes (hc : Context m word Γ ρ scope st s) (hx : t.size ≤ word ∧ t.wrap x = x)
    (h : Denotes m st s op x) : Realizes m st { st with nextTemp := st.nextTemp + 1 + 1 } s
      [.const ⟨st.nextTemp⟩ 0, .bin ⟨st.nextTemp + 1⟩ .eq op (.temp ⟨st.nextTemp⟩)] (.temp ⟨st.nextTemp + 1⟩)
      (BinaryOp.ofBool (x = 0)) := by
  have hz := IntType.ofInt_eq_zero_iff (hc.width_le hx.left) hx.right
  refine const_realizes.then fun _ hp hd => bin_realizes (h.after hp) hd ?_
  refine hc.standard.binary trivial ?_
  exact (congrArg (truth w) <| decide_eq_decide.mpr hz).trans truth_eq_ofInt

variable (hT : l.toTyping = typing fuel) (ht : Expr.Typed word Γ e t)
variable (ha : LowersTo m word Γ ρ scope (l.lowerExpr e) x)

include ht ha in
-- The code for an operator that is followed by the conversion to the promoted type.
theorem promoted_then {st₂ : ValueState} {n : Nat} {ai js ci : List Instr} {ao out co : Operand}
    (hc : Context m word Γ ρ scope st s) (hra : Run (l.lowerExpr e scope) st (ai, ao) st₁)
    (hrt : Run ((typing fuel).promotedExprType e scope) { st₁ with nextTemp := n } ty st₂)
    (hop : ∀ s₁, Denotes m st₁ s₁ ao x → Realizes m st₁ { st₁ with nextTemp := n } s₁ js out y)
    (hrc : Run ((typing fuel).coerceScalar ty out scope) st₂ (ci, co) st') :
    Realizes m st st' s (ai ++ (js ++ ci)) co (t.promote.wrap y) := by
  refine (ha hc hra).then fun s₁ hp₁ hd₁ => ?_
  have hc₁ := hc.after hp₁
  obtain ⟨hty, rfl⟩ := (hc₁.promoted ht).fresh hc₁.target hrt
  refine (hop s₁ hd₁).then fun s₂ hp₂ hd₂ => ?_
  exact (hc₁.after hp₂).coerceWide hty promote_size hd₂ hrc

include hT ht ha

theorem plus_lowers (hx : t.wrap x = x) : LowersTo m word Γ ρ scope (l.lowerUnaryExpr "+" e) x := by
  intro st s is op st' hc hr
  unfold Lowering.lowerUnaryExpr at hr
  dsimp only at hr
  rw [hT] at hr
  obtain ⟨⟨ai, ao⟩, st₁, hra, hr⟩ := run_value_bind_iff.mp hr
  obtain ⟨ty, st₂, hrt, hr⟩ := run_value_bind_iff.mp hr
  obtain ⟨⟨ci, co⟩, st₃, hrc, hr⟩ := run_value_bind_iff.mp hr
  obtain ⟨h, rfl⟩ := run_pure_iff.mp hr
  cases h
  refine (ha hc hra).then fun s₁ hp₁ hd₁ => ?_
  have hc₁ := hc.after hp₁
  obtain ⟨hty, rfl⟩ := hc₁.promoted ht hc₁.target rfl hrt
  have h := hc₁.coerceWide hty promote_size hd₁ hrc
  rw [IntType.promote_wrap hx] at h
  exact h

theorem unary_lowers {name : String} {uop : UnaryOp} (hn : unaryOp? name = some uop) :
    LowersTo m word Γ ρ scope (l.lowerUnaryExpr name e) (t.promote.wrap (uop.eval x)) := by
  intro st s is op st' hc hr
  unfold unaryOp? at hn
  split at hn <;> cases hn
  case h_1 =>
    unfold Lowering.lowerUnaryExpr at hr
    dsimp only at hr
    rw [hT] at hr
    obtain ⟨⟨ai, ao⟩, st₁, hra, hr⟩ := run_value_bind_iff.mp hr
    obtain ⟨zero, _, hf, hr⟩ := run_value_bind_iff.mp hr
    obtain ⟨rfl, rfl⟩ := run_freshTemp_iff.mp hf
    obtain ⟨out, _, hf, hr⟩ := run_value_bind_iff.mp hr
    obtain ⟨rfl, rfl⟩ := run_freshTemp_iff.mp hf
    obtain ⟨ty, st₂, hrt, hr⟩ := run_value_bind_iff.mp hr
    obtain ⟨⟨ci, co⟩, st₃, hrc, hr⟩ := run_value_bind_iff.mp hr
    obtain ⟨h, rfl⟩ := run_pure_iff.mp hr
    cases h
    rw [List.append_assoc]
    exact promoted_then ht ha hc hra hrt (fun _ hd => neg_realizes hc.standard hd) hrc
  case h_2 =>
    unfold Lowering.lowerUnaryExpr at hr
    dsimp only at hr
    rw [hT] at hr
    obtain ⟨⟨ai, ao⟩, st₁, hra, hr⟩ := run_value_bind_iff.mp hr
    obtain ⟨zero, _, hf, hr⟩ := run_value_bind_iff.mp hr
    obtain ⟨rfl, rfl⟩ := run_freshTemp_iff.mp hf
    obtain ⟨neg, _, hf, hr⟩ := run_value_bind_iff.mp hr
    obtain ⟨rfl, rfl⟩ := run_freshTemp_iff.mp hf
    obtain ⟨out, _, hf, hr⟩ := run_value_bind_iff.mp hr
    obtain ⟨rfl, rfl⟩ := run_freshTemp_iff.mp hf
    obtain ⟨ty, st₂, hrt, hr⟩ := run_value_bind_iff.mp hr
    obtain ⟨⟨ci, co⟩, st₃, hrc, hr⟩ := run_value_bind_iff.mp hr
    obtain ⟨h, rfl⟩ := run_pure_iff.mp hr
    cases h
    rw [List.append_assoc]
    exact promoted_then ht ha hc hra hrt (fun _ hd => compl_realizes hc.standard hd) hrc

omit hT ht in
theorem not_lowers (hx : t.size ≤ word ∧ t.wrap x = x) :
    LowersTo m word Γ ρ scope (l.lowerUnaryExpr "!" e) (BinaryOp.ofBool (x = 0)) := by
  intro st s is op st' hc hr
  obtain ⟨⟨ai, ao⟩, st₁, hra, hr⟩ := run_value_bind_iff.mp hr
  obtain ⟨zero, _, hf, hr⟩ := run_value_bind_iff.mp hr
  obtain ⟨rfl, rfl⟩ := run_freshTemp_iff.mp hf
  obtain ⟨out, _, hf, hr⟩ := run_value_bind_iff.mp hr
  obtain ⟨rfl, rfl⟩ := run_freshTemp_iff.mp hf
  obtain ⟨h, rfl⟩ := run_pure_iff.mp hr
  cases h
  exact (ha hc hra).then fun s₁ hp₁ hd₁ => not_realizes (hc.after hp₁) hx hd₁

end Unary

section Leaves

theorem exceedsSignedInt_small {bytes : List Int} (hp : Proper 256 bytes) (hl : bytes.length = 8)
    (h : exceedsSignedInt bytes = false) : value 256 bytes < 2 ^ 31 := by
  rcases bytes with _ | ⟨b₀, _ | ⟨b₁, _ | ⟨b₂, _ | ⟨b₃, _ | ⟨b₄, _ | ⟨b₅, _ | ⟨b₆, _ | ⟨b₇, _ | _⟩⟩⟩⟩⟩⟩⟩⟩ <;>
    cases hl
  simp [exceedsSignedInt, Proper, value_cons] at *
  omega

theorem intConstOperand_denotes {base : Int} {digits suffix text : List Char} (hm : m.Standard)
    (h : IntegerText base digits suffix text) (hx : digitsValue base 0 digits < 256 ^ 8)
    (hw : digitsValue base 0 digits < 2 ^ w) :
    Denotes m st s (intConstOperand text) (digitsValue base 0 digits) := by
  obtain ⟨hp, hl, hv⟩ := h.readBytes hx
  have h₀ := h.nonneg
  simp only [intConstOperand, parseIntBytes, h.natural]
  by_cases he : exceedsSignedInt (readBaseBytes base digits)
  case pos =>
    rw [if_pos he]
    refine ⟨?_, ⟨by rintro _ ⟨⟩, ?_⟩, by rintro _ ⟨⟩⟩
    case refine_1 =>
      rw [←hv, ←hm.immediateBytes]
      rfl
    case refine_2 =>
      rintro _ ⟨⟩
      rw [hv]
      exact ⟨h₀, hw⟩
  case neg =>
    rw [if_neg he, h.parseInt]
    have hs := exceedsSignedInt_small hp hl <| by simpa using he
    rw [hv] at hs
    exact .imm (by omega) hs rfl

theorem lowerVarExpr_lowers {name : String} (hT : l.toTyping = typing fuel) (hn : Γ name = some ty)
    (ht : ty.Integer word t) : LowersTo m word Γ ρ scope (l.lowerVarExpr name) (ρ name) := by
  intro st s is op st' hc hr
  obtain ⟨hf, hb, hk⟩ := hc.named hn
  obtain ⟨temp, hs⟩ := hc.bound hn
  obtain ⟨hl, v, hv, he⟩ := hc.values hn hs
  unfold Lowering.lowerVarExpr at hr
  rw [hf, if_neg (by decide), hb] at hr
  obtain ⟨_, _, hc', hr₁⟩ := run_value_bind_iff.mp hr
  obtain ⟨rfl, rfl⟩ := run_lookupConstant_iff.mp hc'
  rw [hk] at hr₁
  obtain ⟨_, _, hm, hr₂⟩ := run_value_bind_iff.mp hr₁
  obtain ⟨rfl, rfl⟩ := run_lookupVarMaybe_iff.mp hm
  rw [hs] at hr₂
  obtain ⟨_, _, hm, hr₃⟩ := run_value_bind_iff.mp hr₂
  obtain ⟨rfl, rfl⟩ := run_lookupVarType_iff.mp hm
  rw [hs] at hr₃
  obtain ⟨_, _, hm, hr₄⟩ := run_value_bind_iff.mp hr₃
  obtain ⟨rfl, rfl⟩ := run_pure_iff.mp hm
  rw [hT] at hr₄
  rw [he t ht]
  have hd : Denotes m _ s (.temp temp) v.toInt :=
    ⟨hv.trans <| congrArg some (BitVec.ofInt_toInt ..).symm, Operand.small_temp, Operand.below_temp hl⟩
  refine hc.coerce ht ⟨⟨word, false⟩, le_rfl, ?_⟩ hd hr₄
  rw [IntType.wrap_eq_self_iff, if_neg Bool.false_ne_true, IntType.modulus_eq, ←hc.width]
  have hlt := v.two_mul_toInt_lt
  have hle := v.le_two_mul_toInt
  push_cast
  omega

theorem lowerSize_lowers (hT : l.toTyping = typing fuel) (ht : ty.Integer word t) :
    LowersTo m word Γ ρ scope (l.lowerSize ty) t.size := by
  intro st s is op st' hc hr
  unfold Lowering.lowerSize at hr
  rw [hT] at hr
  obtain ⟨size, st₁, hrs, hr₁⟩ := run_value_bind_iff.mp hr
  obtain ⟨rfl, rfl⟩ := typeSize_answers ht hc.target rfl hrs
  obtain ⟨temp, _, hf, hr₂⟩ := run_value_bind_iff.mp hr₁
  obtain ⟨rfl, rfl⟩ := run_freshTemp_iff.mp hf
  obtain ⟨h, rfl⟩ := run_pure_iff.mp hr₂
  cases h
  exact const_realizes

end Leaves

section Expressions

theorem boolean_isTest {name : String} (hn : binaryOp? name = some bop) (hb : exprIsBoolean (.binary name a b)) :
    bop.IsShift = false ∧ bop.IsTest := by
  unfold binaryOp? at hn
  split at hn <;> cases hn <;> first
    | exact ⟨rfl, rfl⟩
    | simp [exprIsBoolean] at hb

-- The expressions whose code is not compared with zero once more.
theorem Expr.Evaluates.boolean (h : Expr.Evaluates word Γ ρ e t x) (hb : exprIsBoolean e) :
    x = BinaryOp.ofBool (x ≠ 0) := by
  have hp {p : Bool} : BinaryOp.ofBool p = BinaryOp.ofBool (BinaryOp.ofBool p ≠ 0) := by cases p <;> rfl
  cases h
  case plus => simp [exprIsBoolean] at hb
  case unary hn _ =>
    unfold unaryOp? at hn
    split at hn <;> cases hn <;> simp [exprIsBoolean] at hb
  case not => exact hp
  case binary hn _ _ _ _ _ =>
    have ht := boolean_isTest hn hb
    rw [BinaryOp.value_strict ht.left, if_pos ht.right]
    obtain ⟨p, h⟩ := BinaryOp.eval_isTest ht.right
    rw [h]
    exact hp
  case and => exact hp
  case andFalse => rfl
  case or => exact hp
  case orTrue => rfl
  all_goals cases hb

-- The code of an expression computes its value.
theorem lowerExpr_lowers (h : Expr.Evaluates word Γ ρ e t x) (fuel : Nat) :
    LowersTo m word Γ ρ scope ((lowering fuel).lowerExpr e) x := by
  induction h generalizing fuel
  all_goals
    intro st s is op st' hc hr
    cases fuel
    case zero => cases hr
  case int hi hx hl fuel =>
    obtain ⟨h, rfl⟩ := run_pure_iff.mp hr
    cases h
    have hw := hc.value_lt hl <| firstType_wrap hi.nonneg hx
    exact (intConstOperand_denotes hc.standard hi hx hw).realizes
  case char hx fuel =>
    obtain ⟨h, rfl⟩ := run_pure_iff.mp hr
    cases h
    have hx := IntType.wrap_eq_self_iff.mp hx
    rw [if_neg (by decide), show (IntType.int.modulus : Int) = 2 ^ 32 from rfl] at hx
    exact (Denotes.imm (by omega) (by omega) rfl).realizes
  case var hn ht fuel => exact lowerVarExpr_lowers lowering_toTyping hn ht hc hr
  case sizeofType ht fuel => exact lowerSize_lowers lowering_toTyping ht hc hr
  case sizeofExpr e t he fuel =>
    have hs : (lowering (fuel + 1)).lowerExpr (.sizeofExpr e) = (lowering fuel).exprType e >>= fun mty =>
        requireMaybeType "sizeof expression has unknown type" mty >>= fun ty => (lowering fuel).lowerSize ty := rfl
    rw [hs, lowering_toTyping] at hr
    obtain ⟨mty, st₁, hrt, hr₁⟩ := run_value_bind_iff.mp hr
    obtain ⟨⟨ty, rfl, hty⟩, rfl⟩ := hc.exprType he hc.target rfl hrt
    exact lowerSize_lowers lowering_toTyping hty hc hr₁
  case cast ty t e u x ht he hi fuel =>
    obtain ⟨⟨ai, ao⟩, st₁, hra, hr⟩ := run_value_bind_iff.mp hr
    obtain ⟨⟨ci, co⟩, st₂, hrc, hr⟩ := run_value_bind_iff.mp hr
    obtain ⟨h, rfl⟩ := run_pure_iff.mp hr
    cases h
    rw [lowering_toTyping] at hrc
    refine (hi fuel hc hra).then fun s₁ hp₁ hd₁ => ?_
    exact (hc.after hp₁).coerce ht ⟨u, hc.fits he⟩ hd₁ hrc
  case plus e t x he hi fuel =>
    exact plus_lowers lowering_toTyping he.typed (hi fuel) (hc.fits he).right hc hr
  case unary hn he hi fuel =>
    exact unary_lowers lowering_toTyping he.typed (hi fuel) hn hc hr
  case not he hi fuel =>
    exact not_lowers (hi fuel) (hc.fits he) hc hr
  case binary hn hl ha hb hd hq hia hib fuel =>
    exact binary_lowers lowering_toTyping ha.typed hb.typed (hia fuel) (hib fuel) hn hl hd hq
      (hc.fits ha).right hc hr
  case and a b s t x y ha hx hb hia hib fuel =>
    refine lowerShortCircuit_lowers (lowering_steady fuel) (hc.fits ha)
      (hia fuel) (fun _ => ?_) (fun h => absurd (iff_of_true hx rfl) h) hc hr
    exact lowerTruthExpr_lowers (hc.fits hb) hb.boolean (hib fuel)
  case andFalse a b s t ha ht hia fuel =>
    exact lowerShortCircuit_lowers (lowering_steady fuel) (hc.fits ha)
      (hia fuel) (fun h => absurd rfl <| h.mpr rfl) (fun _ => rfl) hc hr
  case or a b s t y ha hb hia hib fuel =>
    refine lowerShortCircuit_lowers (lowering_steady fuel) (hc.fits ha)
      (hia fuel) (fun _ => ?_) (fun h => absurd (iff_of_false (by simp) (by decide)) h) hc hr
    exact lowerTruthExpr_lowers (hc.fits hb) hb.boolean (hib fuel)
  case orTrue a b s t x ha hx ht hia fuel =>
    refine lowerShortCircuit_lowers (lowering_steady fuel) (hc.fits ha)
      (hia fuel) (fun h => absurd (h.mp hx) (by decide)) (fun _ => ?_) hc hr
    rw [BinaryOp.ofBool, decide_eq_true hx]
    rfl
  case comma a b s t x y ha hb hia hib fuel =>
    obtain ⟨ai, st₁, hra, hr⟩ := run_value_bind_iff.mp hr
    obtain ⟨⟨bi, bo⟩, st₂, hrb, hr⟩ := run_value_bind_iff.mp hr
    obtain ⟨h, rfl⟩ := run_pure_iff.mp hr
    cases h
    rcases fuel with _ | fuel
    · cases hra
    · have hra : Run ((lowering fuel).lowerSideEffectStep a scope) st ai st₁ := hra
      rw [ha.typed.sideEffect] at hra
      obtain ⟨⟨ai, ao⟩, hra', rfl⟩ := run_value_map_iff.mp hra
      exact (hia fuel hc hra').then fun s₁ hp₁ _ => hib (fuel + 1) (hc.after hp₁) hrb
  case condTrue hc' hz ha ht hic hia fuel =>
    exact lowerConditional_lowers (lowering_steady fuel) lowering_toTyping ha.typed ht
      (hc.fits hc') (hic fuel) (fun _ => hia fuel) (fun h => absurd h hz) hc hr
  case condFalse hc' ht hb hic hib fuel =>
    exact lowerConditional_lowers (lowering_steady fuel) lowering_toTyping ht hb.typed
      (hc.fits hc') (hic fuel) (fun h => absurd rfl h) (fun _ => hib fuel) hc hr

end Expressions

section Example

theorem byteMachine_standard {pos : 0 < w} : (byteMachine w pos).Standard where
  arithmetic _ _   := rfl
  immediateBytes _ := rfl

def isNegative : Expr :=
  .binary "<" (.var "x") (.int "0".toList)

def magnitude : Expr :=
  .cond isNegative (.unary "-" (.var "x")) (.var "x")

theorem magnitude_context : Context (byteMachine 64 (by decide)) 8 magnitudeVars (fun _ => -7) magnitudeScope
    { nextTemp := 1 } ⟨fun _ => 0, fun _ => some <| .ofInt 64 (-7)⟩ where
  standard := byteMachine_standard
  sizes    := .inr rfl
  width    := rfl
  target   := rfl
  named {name ty} h := by
    unfold magnitudeVars at h
    split at h <;> cases h
    subst ‹name = "x"›
    decide +kernel
  bound h  := (magnitude_names h).right
  values {name ty temp} h hs := by
    unfold magnitudeVars at h
    split at h <;> cases h
    subst ‹name = "x"›
    cases hs
    exact ⟨Nat.one_pos, _, rfl, fun _ _ => by decide +kernel⟩

theorem magnitude_var : Expr.Evaluates 8 magnitudeVars (fun _ => -7) (.var "x") .int (-7) :=
  .var rfl ⟨rfl, by decide⟩

theorem isNegative_evaluates : Expr.Evaluates 8 magnitudeVars (fun _ => -7) isNegative .int 1 := by
  have h₀ : IntegerText 8 [] [] "0".toList := .octal (by simp) (by simp)
  have h₀ : Expr.Evaluates 8 magnitudeVars (fun _ => -7) (.int "0".toList) .int 0 := .int h₀ (by decide) (by decide)
  have hlt : binaryOp? "<" = some .lt := rfl
  exact .binary hlt ⟨by decide, by decide⟩ magnitude_var h₀ trivial fun h => absurd h <| by decide

theorem magnitude_evaluates : Expr.Evaluates 8 magnitudeVars (fun _ => -7) magnitude .int 7 := by
  have hneg : unaryOp? "-" = some .neg := rfl
  exact .condTrue isNegative_evaluates (by decide) (.unary hneg magnitude_var) magnitude_var.typed

end Example

end Hcc
