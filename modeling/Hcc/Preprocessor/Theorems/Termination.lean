import Hcc.Preprocessor.Theorems.Expand

open Fueled GuardedStream

namespace Hcc

variable {macros : Macros} {toks : List PPToken}

-- The induction is on the weight of the guards of the remaining source. It covers the prescans of
-- arguments, as these are proper substreams of the source.
theorem expandSource.go_terminates (hg : Guarded (hideSets toks) gs) :
    Terminates fun fuel => go macros fuel toks trailing acc := by
  induction gs using (lighter_wellFounded macros.keys.toFinset).induction generalizing toks trailing acc
  case _ gs hi =>
    apply Terminates.of_succ
    cases toks
    case nil => exact .done
    case cons tok toks =>
      simp only [go]
      apply Terminates.bind
      · apply expandNextSource_terminates
        intro raw hs hl
        obtain ⟨gs', hg', hw⟩ := hg.exists_lighter_sublist (hs.map _) (by simpa [hideSets] using hl)
        exact hi gs' hw (by rwa [hideSets_leadingSpace])
      · rintro ⟨expanded, next, trailing'⟩ ⟨n, hn⟩
        obtain ⟨gs', hg', hw⟩ := expandNextSource_lighter (hn n le_rfl) hg
        exact hi gs' hw hg'

theorem expandSource.go_expanded (h : go macros fuel toks trailing acc = .done (.ok e))
    (ha : ∀ tok ∈ acc, Expanded macros tok) : ∀ tok ∈ e.tokens, Expanded macros tok := by
  induction fuel generalizing toks trailing acc <;> simp only [go] at h
  case zero => simp at h
  case succ fuel hi =>
    cases toks
    case nil =>
      simp at h
      exact h ▸ ha
    case cons tok toks =>
      have ⟨⟨expanded, next, trailing'⟩, hn, h⟩ := bind_eq_done_ok.mp h
      refine hi h fun t ht => ?_
      rcases List.mem_append.mp ht with ht | ht
      · exact ha t ht
      · rcases expandNextSource_cases hn with ⟨rfl, _, he⟩ | ⟨rfl, _⟩
        · exact List.mem_singleton.mp ht ▸ he
        · contradiction

-- The expansion of a source terminates, and an identifier in its result only names an object-like
-- macro if the macro is hidden at that identifier.
theorem expandSource_terminates (macros : Macros) (toks : List PPToken) :
    ∃ result fuel, (∀ more ≥ fuel, expandSource macros more toks = .done result) ∧
      ∀ e, result = .ok e → ∀ tok ∈ e.tokens, ∀ name, tok.token.kind = .ident name →
        (∃ key body, symbolMapLookup name macros = some (.object key body)) → name ∈ tok.hidden := by
  have ⟨gs, hg⟩ := exists_guarded (hideSets toks)
  obtain ⟨result, fuel, h⟩ := expandSource.go_terminates hg
  refine ⟨result, fuel, h, ?_⟩
  rintro e rfl tok ht
  exact expandSource.go_expanded (h fuel le_rfl) nofun tok ht

end Hcc
