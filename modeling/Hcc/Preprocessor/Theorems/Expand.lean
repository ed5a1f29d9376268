import Hcc.Library.GuardedStream
import Hcc.Preprocessor.Basic
import Hcc.SymbolTable.Theorems.Entries
import Mathlib.Data.List.Sublists

open GuardedStream

namespace Hcc

variable {toks rest : List PPToken} {macros : Macros} {bound : MacroArgs}

theorem sourceFromTokens_tokens (pos) (toks : List Token) :
    (sourceFromTokens.go pos toks).map PPToken.token = toks := by
  induction toks generalizing pos
  case nil         => rfl
  case cons tok ts hi => exact congrArg (tok :: ·) (hi _)

section HideSets

-- The names that are hidden at each token of a source.
def hideSets (toks : List PPToken) : List (Set String) :=
  toks.map fun tok => { name | name ∈ tok.hidden }

@[simp]
theorem length_hideSets : (hideSets toks).length = toks.length := by
  simp [hideSets]

@[simp]
theorem hideSets_append : hideSets (toks ++ rest) = hideSets toks ++ hideSets rest := by
  simp [hideSets]

@[simp]
theorem hideSets_leadingSpace : hideSets (leadingSpace space toks) = hideSets toks := by
  cases toks <;> simp [hideSets, leadingSpace]

@[simp]
theorem hideSets_addLeadingSpace : hideSets (addLeadingSpace space toks) = hideSets toks := by
  cases toks <;> simp [hideSets, addLeadingSpace]

theorem mem_intersect : name ∈ intersect xs ys ↔ name ∈ xs ∧ name ∈ ys := by
  simp [intersect]

theorem mem_union_left (h : name ∈ xs) : name ∈ union xs ys :=
  List.mem_append_left _ h

theorem mem_union_right (h : name ∈ ys) : name ∈ union xs ys := by
  by_cases hx : name ∈ xs
  case pos => exact mem_union_left hx
  case neg =>
    apply List.mem_append_right
    have hd := List.mem_eraseDups.mpr h
    generalize ys.eraseDups = zs at hd
    induction xs generalizing zs <;> simp at *
    case nil          => exact hd
    case cons x xs hi => exact hi hx.right _ <| (List.mem_erase_of_ne hx.left).mpr hd

-- All tokens of a replacement hide the names that constrain it.
theorem hideSets_map_hideToken (h : s ∈ hideSets (toks.map (hideToken names))) (hn : name ∈ names) :
    name ∈ s := by
  simp only [hideSets, List.map_map, List.mem_map] at h
  have ⟨_, _, h⟩ := h
  exact h ▸ mem_union_left hn

theorem hideSets_rescanReplacement :
    hideSets (rescanReplacement space e rest).2.1 = hideSets e.tokens ++ hideSets rest := by
  simp [rescanReplacement]

end HideSets

section Invocations

variable {a : List PPToken} {as args : List (List PPToken)} {cs commas : List PPToken}

theorem joinVariadicArgs_concat_token (h : as.length = cs.length) :
    joinVariadicArgs (as ++ [a ++ [tok]]) cs = joinVariadicArgs (as ++ [a]) cs ++ [tok] := by
  induction as generalizing cs <;> cases cs <;> simp_all [joinVariadicArgs]

theorem joinVariadicArgs_concat_comma (h : as.length = cs.length) :
    joinVariadicArgs (as ++ [a] ++ [[]]) (cs ++ [tok]) = joinVariadicArgs (as ++ [a]) cs ++ [tok] := by
  induction as generalizing cs <;> cases cs <;> simp_all [joinVariadicArgs]

theorem sublist_joinVariadicArgs (h : as.length ≤ cs.length + 1) (ha : a ∈ as) :
    a.Sublist (joinVariadicArgs as cs) := by
  induction as generalizing cs <;> cases cs <;> simp_all [joinVariadicArgs]
  case cons.cons hi _ _ =>
    rcases ha with rfl | ha
    · exact List.sublist_append_left ..
    · exact (hi h ha).trans <| .trans (List.sublist_cons_self ..) (List.sublist_append_right ..)

theorem joinVariadicArgs_drop_sublist (h : as.length ≤ cs.length + 1) (n : Nat) :
    (joinVariadicArgs (as.drop n) (cs.drop n)).Sublist (joinVariadicArgs as cs) := by
  induction n generalizing as cs
  case zero => simp
  case succ n hi =>
    cases as <;> cases cs <;> simp_all [joinVariadicArgs]
    exact (hi h).trans <| .trans (List.sublist_cons_self ..) (List.sublist_append_right ..)

-- The tokens of an invocation up to its closing parenthesis, by its arguments and commas.
structure Invoked (toks : List PPToken) (args : List (List PPToken)) (commas : List PPToken)
    (closeHidden : List String) (rest : List PPToken) (close : PPToken) : Prop where
  tokens : toks = joinVariadicArgs args commas ++ close :: rest
  hidden : close.hidden = closeHidden
  length : args.length ≤ commas.length + 1

theorem collectInvocationArgs.go_invoked (hl : as.length = cs.length)
    (h : go sp depth current as cs toks = .ok (args, commas, closeHidden, rest)) :
    ∃ close, Invoked (joinVariadicArgs (as.reverse ++ [current.reverse]) cs.reverse ++ toks)
      args commas closeHidden rest close := by
  induction toks generalizing depth current as cs <;> simp only [go] at h
  case nil => contradiction
  case cons tok toks hi =>
    have hr : as.reverse.length = cs.reverse.length := by simp [hl]
    -- A token that belongs to the current argument.
    have hnext {depth}
        (h : go sp depth (tok :: current) as cs toks = .ok (args, commas, closeHidden, rest)) :
        ∃ close, Invoked (joinVariadicArgs (as.reverse ++ [current.reverse]) cs.reverse ++ tok :: toks)
          args commas closeHidden rest close := by
      have ⟨close, hi⟩ := hi hl h
      rw [List.reverse_cons, joinVariadicArgs_concat_token hr, List.append_assoc] at hi
      exact ⟨close, hi⟩
    split at h
    case h_1 =>
      split at h
      case isFalse => exact hnext h
      case isTrue  =>
        simp only [Except.ok.injEq, Prod.mk.injEq] at h
        have ⟨ha, hc, hh, ht⟩ := h
        refine ⟨tok, ?_, hh, ?_⟩
        all_goals
          subst ha hc ht
          split <;> cases cs <;> simp_all [joinVariadicArgs]
    case h_2 => exact hnext h
    case h_3 =>
      split at h
      case isFalse => exact hnext h
      case isTrue  =>
        have ⟨close, hi⟩ := hi (by simp [hl]) h
        simp only [List.reverse_cons, List.reverse_nil] at hi
        rw [joinVariadicArgs_concat_comma hr, List.append_assoc] at hi
        exact ⟨close, hi⟩
    case h_4 => exact hnext h

theorem collectInvocationArgs_invoked
    (h : collectInvocationArgs sp toks = .ok (args, commas, closeHidden, rest)) :
    ∃ close, Invoked toks args commas closeHidden rest close :=
  collectInvocationArgs.go_invoked rfl h

-- The arguments of an invocation, and the join of its variadic arguments, are substreams of the tokens
-- between the parentheses.
theorem Invoked.sublist (h : Invoked toks args commas closeHidden rest close)
    (ha : a ∈ args ∨ a = joinVariadicArgs (args.drop n) (commas.drop n)) :
    a.Sublist (joinVariadicArgs args commas) := by
  rcases ha with ha | rfl
  · exact sublist_joinVariadicArgs h.length ha
  · exact joinVariadicArgs_drop_sublist h.length n

end Invocations

section Prescans

variable {p q : List PPToken → Expand Expansion} {P : MacroArg → Prop}

-- The argument values that an invocation may prescan.
def Prescanned (args : List (List PPToken)) (commas : List PPToken) (raw : List PPToken) : Prop :=
  raw = [] ∨ raw ∈ args ∨ ∃ n, raw = joinVariadicArgs (args.drop n) (commas.drop n)

theorem prescanned_args (params : List String) (variadic : Option String)
    (args : List (List PPToken)) (commas : List PPToken) :
    let args' := if params.length = 1 && variadic = none && args.isEmpty then [[]] else args
    (∀ raw ∈ args', Prescanned args commas raw) ∧
      Prescanned args commas
        (joinVariadicArgs (args'.drop params.length) (commas.drop params.length)) := by
  intro args'
  by_cases h : (params.length = 1 && variadic = none && args.isEmpty) = true <;>
    simp only [args', h, Bool.false_eq_true, if_true, if_false]
  case pos =>
    have hl : params.length = 1 := by simp_all
    exact ⟨fun raw hr => .inl <| List.mem_singleton.mp hr, .inl <| by simp [hl, joinVariadicArgs]⟩
  case neg => exact ⟨fun _ hr => .inr <| .inl hr, .inr <| .inr ⟨_, rfl⟩⟩

theorem bindFixed_congr
    (h : ∀ raw ∈ args, p (leadingSpace false raw) = q (leadingSpace false raw)) :
    bindMacroArgs.bindFixed p sp bound params args = bindMacroArgs.bindFixed q sp bound params args := by
  induction params generalizing args bound <;> cases args <;>
    simp_all [bindMacroArgs.bindFixed, bindMacroArgs.makeArg]

theorem bindFixed_all (h : ∀ raw ∈ args, P (bindMacroArgs.makeArg p raw)) (hb : bound.All P)
    (he : bindMacroArgs.bindFixed p sp bound params args = .ok bound') : bound'.All P := by
  induction params generalizing args bound <;> cases args <;>
    simp only [bindMacroArgs.bindFixed] at he <;> try contradiction
  case nil.nil => exact Except.ok.inj he ▸ hb
  case cons.cons hi a args =>
    exact hi (fun raw hr => h raw (.tail _ hr)) (hb.insert <| h a (.head _)) he

-- Binding arguments only depends on their prescans.
theorem bindMacroArgs_congr
    (h : ∀ raw, Prescanned args commas raw → p (leadingSpace false raw) = q (leadingSpace false raw)) :
    bindMacroArgs p sp params variadic args commas = bindMacroArgs q sp params variadic args commas := by
  have ⟨hf, hv⟩ := prescanned_args params variadic args commas
  simp only [bindMacroArgs]
  generalize (if params.length = 1 && variadic = none && args.isEmpty then [[]] else args) = args' at *
  rw [bindFixed_congr fun raw hr => h raw <| hf raw <| List.mem_of_mem_take hr]
  simp only [bindMacroArgs.makeArg, h _ hv]

theorem bindMacroArgs_all
    (h : ∀ raw, Prescanned args commas raw → P (bindMacroArgs.makeArg p raw))
    (he : bindMacroArgs p sp params variadic args commas = .ok bound) : bound.All P := by
  have ⟨hf, hv⟩ := prescanned_args params variadic args commas
  simp only [bindMacroArgs] at he
  generalize (if params.length = 1 && variadic = none && args.isEmpty then [[]] else args) = args' at *
  split at he
  case isTrue => contradiction
  case isFalse =>
    cases hb : bindMacroArgs.bindFixed p sp symbolMapEmpty params (args'.take params.length)
    case error => simp [hb, bind, Except.bind] at he
    case ok fixed =>
      have ha := bindFixed_all (fun raw hr => h raw <| hf raw <| List.mem_of_mem_take hr)
        SymbolMap.all_empty hb
      simp only [hb, bind, Except.bind] at he
      cases variadic
      case none      => exact Except.ok.inj he ▸ ha
      case some name => exact Except.ok.inj he ▸ ha.insert (h _ hv)

theorem boundArg_lookup (h : boundArg bound tok = some arg) :
    ∃ name, symbolMapLookup name bound = some arg := by
  unfold boundArg at h
  split at h
  · exact ⟨_, h⟩
  · contradiction

-- A substitution does not run out of fuel if none of the prescans of its arguments does.
theorem substituteMacroBody_done (h : bound.All fun arg => arg.expanded.IsDone) :
    (substituteMacroBody bound body).IsDone := by
  unfold substituteMacroBody
  generalize [] = acc
  fun_induction substituteMacroBody.go
  case case1                           => exact .done
  case case2 | case3 | case4 | case7   => assumption
  case case5 hi | case6 hi | case9 hi | case10 hi => exact .bind .liftM hi
  case case8 ha _ _ _ hi | case11 ha _ _ _ _ _ _ hi =>
    have ⟨_, ha⟩ := boundArg_lookup ha
    exact .bind (h.lookup ha) hi

end Prescans

section Termination

open Fueled

variable {prescan : Nat → List PPToken → Expand Expansion} {original : PPToken}

-- The expansion of an invocation terminates if all prescans of substreams of its tokens do.
theorem expandInvocation_terminates
    (h : ∀ raw, raw.Sublist toks → raw.length < toks.length →
      Terminates (prescan · (leadingSpace false raw))) :
    Terminates fun n => expandInvocation (prescan n) original name params variadic body toks := by
  simp only [expandInvocation, liftM_eq_done]
  rcases hc : collectInvocationArgs original.token.span toks with e | ⟨args, commas, closeHidden, rest⟩
  case error => exact .done
  case ok =>
    have ⟨close, hi⟩ := collectInvocationArgs_invoked hc
    let inner := joinVariadicArgs args commas
    have hp (raw) (hr : Prescanned args commas raw) : raw ∈ inner.sublists := by
      apply List.mem_sublists.mpr
      rcases hr with rfl | hr | ⟨n, hr⟩
      · exact List.nil_sublist _
      · exact hi.sublist (.inl hr) (n := 0)
      · exact hi.sublist (.inr hr)
    have ⟨n, hn⟩ := exists_fuel (l := inner.sublists) (x := fun n raw => prescan n (leadingSpace false raw)) <| by
      intro raw hr
      have hs : raw.Sublist (joinVariadicArgs args commas) := List.mem_sublists.mp hr
      have := hs.length_le
      exact h raw (hi.tokens ▸ hs.trans (List.sublist_append_left ..)) (by simp [hi.tokens]; omega)
    apply Terminates.of_stable (n := n)
    · simp only [done_ok_bind]
      cases hb : bindMacroArgs (prescan n) original.token.span params variadic args commas
      case error => exact .done
      case ok bound =>
        have ha := bindMacroArgs_all (P := (·.expanded.IsDone)) (fun raw hr => (hn raw (hp raw hr)).left) hb
        simp only [done_ok_bind]
        exact .bind (substituteMacroBody_done ha) fun _ => .done
    · intro m hm
      simp only [done_ok_bind]
      rw [bindMacroArgs_congr fun raw hr => (hn raw (hp raw hr)).right m hm]

theorem expandNextSource_terminates
    (h : ∀ raw, raw.Sublist toks → raw.length < toks.length →
      Terminates (prescan · (leadingSpace false raw))) :
    Terminates fun n => expandNextSource (prescan n) macros toks := by
  cases toks
  case nil => exact .done
  case cons original rest =>
    simp only [expandNextSource]
    split
    case h_2 => exact .done
    case h_1 =>
      split
      case isTrue => exact .done
      case isFalse =>
        split
        case h_1 => exact .done
        case h_2 => exact .done
        case h_3 =>
          split
          case h_2 => exact .done
          case h_1 =>
            refine expandInvocation_terminates fun raw hs hl => h raw ?_ (by simp; omega)
            exact hs.trans <| .trans (List.sublist_cons_self ..) (List.sublist_cons_self ..)

end Termination

section Steps

variable {prescan : List PPToken → Expand Expansion} {original : PPToken}

-- An identifier that names an object-like macro is only left over where the macro is hidden.
def Expanded (macros : Macros) (tok : PPToken) : Prop :=
  ∀ name, tok.token.kind = .ident name →
    (∃ key body, symbolMapLookup name macros = some (.object key body)) → name ∈ tok.hidden

-- The replacement of a macro invocation at the front of a source: the invocation ends at the token
-- `last`, and the replacement hides the macro's name and all names that are hidden at both of its ends.
structure Replaced (macros : Macros) (original : PPToken) (rest next : List PPToken)
    (name : String) (front : List PPToken) (last : PPToken) (rest' : List PPToken)
    (replaced : List (Set String)) : Prop where
  key     : name ∈ macros.keys
  visible : name ∉ original.hidden
  source  : original :: rest = front ++ last :: rest'
  next    : hideSets next = replaced ++ hideSets rest'
  hidden  : ∀ s ∈ replaced, name ∈ s ∧ ∀ n ∈ original.hidden, n ∈ last.hidden → n ∈ s

theorem expandInvocation_replaced
    (h : expandInvocation prescan original name params variadic body toks =
      .done (.ok (expanded, next, trailing)))
    (hk : name ∈ macros.keys) (hv : name ∉ original.hidden) :
    expanded = [] ∧ ∃ front last rest' replaced,
      Replaced macros original (tok :: toks) next name front last rest' replaced := by
  simp only [expandInvocation, Fueled.liftM_eq_done, Fueled.bind_eq_done_ok, Fueled.done_inj] at h
  obtain ⟨⟨args, commas, closeHidden, rest⟩, hc, bound, _, e, _, hr⟩ := h
  simp only [Fueled.pure_eq_done, Fueled.done_inj, Except.ok.injEq] at hr
  obtain ⟨close, hi⟩ := collectInvocationArgs_invoked hc
  refine ⟨congrArg Prod.fst hr.symm, original :: tok :: joinVariadicArgs args commas, close, rest, _,
    hk, hv, ?_, (congrArg (hideSets ·.2.1) hr.symm).trans hideSets_rescanReplacement, ?_⟩
  · rw [hi.tokens]; rfl
  · intro s hs
    refine ⟨hideSets_map_hideToken hs (.head _), fun n h₁ h₂ => ?_⟩
    exact hideSets_map_hideToken hs (.tail _ <| mem_intersect.mpr ⟨h₁, hi.hidden ▸ h₂⟩)

-- One step of the expansion either passes on a token, or replaces an invocation.
theorem expandNextSource_cases
    (h : expandNextSource prescan macros (original :: rest) = .done (.ok (expanded, next, trailing))) :
    (expanded = [original] ∧ next = rest ∧ Expanded macros original) ∨
      (expanded = [] ∧ ∃ name front last rest' replaced,
        Replaced macros original rest next name front last rest' replaced) := by
  have hpass (he : Expanded macros original)
      (h : (pure ([original], rest, false) : Expand _) = .done (.ok (expanded, next, trailing))) :
      expanded = [original] ∧ next = rest ∧ Expanded macros original := by
    simp at h
    exact ⟨h.left.symm, h.right.left.symm, he⟩
  simp only [expandNextSource] at h
  split at h
  case h_2 hn => exact .inl <| hpass (fun name hk => absurd hk (hn name)) h
  case h_1 name hk =>
    have hname {name'} (h : original.token.kind = .ident name') : name' = name :=
      TokenKind.ident.inj <| h.symm.trans hk
    split at h
    case isTrue hh => exact .inl <| hpass (fun _ hk _ => hname hk ▸ hh) h
    case isFalse hh =>
      split at h
      case h_1 hl =>
        refine .inl <| hpass (fun _ hk ho => ?_) h
        obtain ⟨_, _, ho⟩ := ho
        rw [hname hk, hl] at ho
        contradiction
      case h_2 body hl =>
        simp only [Fueled.pure_eq_done, Fueled.done_inj, Except.ok.injEq] at h
        refine .inr ⟨congrArg Prod.fst h.symm, name, [], original, rest, _,
          SymbolMap.mem_keys_of_lookup hl, hh, rfl,
          (congrArg (hideSets ·.2.1) h.symm).trans hideSets_rescanReplacement, fun s hs => ?_⟩
        exact ⟨hideSets_map_hideToken hs (.head _),
          fun n hn _ => hideSets_map_hideToken hs (.tail _ hn)⟩
      case h_3 hl =>
        split at h
        case h_1 =>
          refine .inr <| (expandInvocation_replaced h ?_ hh).imp_right fun h => ⟨name, h⟩
          exact SymbolMap.mem_keys_of_lookup hl
        case h_2 =>
          refine .inl <| hpass (fun _ hk ho => ?_) h
          obtain ⟨_, _, ho⟩ := ho
          rw [hname hk, hl] at ho
          cases ho

-- The remaining source gets lighter with each step.
theorem expandNextSource_lighter
    (h : expandNextSource prescan macros (original :: rest) = .done (.ok (expanded, next, trailing)))
    (hg : Guarded (hideSets (original :: rest)) gs) :
    ∃ gs', Guarded (hideSets next) gs' ∧ Lighter macros.keys.toFinset gs' gs := by
  rcases expandNextSource_cases h with ⟨_, rfl, _⟩ | ⟨_, name, front, last, rest', replaced, hr⟩
  · exact hg.exists_lighter_sublist (List.sublist_cons_self ..) (by simp [hideSets])
  · rw [hr.next]
    have hs : hideSets (original :: rest) = hideSets front ++ { n | n ∈ last.hidden } :: hideSets rest' := by
      simpa [hideSets] using congrArg hideSets hr.source
    exact hg.exists_lighter_replacement hs (List.mem_toFinset.mpr hr.key) hr.visible hr.hidden

end Steps
end Hcc
