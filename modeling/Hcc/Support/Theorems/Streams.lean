import Hcc.Library.Since
import Hcc.Support.Streams
import Mathlib.Data.List.Nodup
import Mathlib.Tactic.SplitIfs

namespace Hcc.Support

open Strtod (int)
open History

variable {s s' s'' : Streams} {es es' : List Event} {d fd value : Int} {l l' : List StreamState}

section Indicator

-- The descriptors of the streams that are always open.
def Standard (d : Int) : Prop :=
  0 ≤ d ∧ d < 3

instance : Decidable (Standard d) :=
  inferInstanceAs <| Decidable (0 ≤ d ∧ d < 3)

namespace Event

-- A write of no bytes is a failure too.
def Fails (d : Int) : Event → Prop
  | read fd _ n  => fd = d ∧ n < 0
  | wrote fd _ n => fd = d ∧ n ≤ 0
  | overflow fd  => fd = d
  | _            => False

instance : DecidablePred (Fails d) := fun e => by
  cases e <;> unfold Fails <;> infer_instance

-- The error indicator of a single descriptor, which does not exist if the descriptor is not open.
def effect (d : Int) (e : Event) (error : Option Int) : Option Int :=
  if e = opened d then some 0
  else if e = closed d ∧ ¬Standard d then none
  else if e = cleared d then error.map fun _ => 0
  else if e.Fails d then error.map fun _ => 1
  else error

end Event

def effects (d : Int) (error : Option Int) (es : List Event) : Option Int :=
  es.foldr (Event.effect d) error

theorem effects_append {error : Option Int} :
    effects d error (es ++ es') = effects d (effects d error es') es :=
  List.foldr_append

-- A descriptor has an indicator if it is a standard one, or if it has been opened and not closed.
def Live (es : List Event) (d : Int) : Prop :=
  Standard d ∨ Since (· = .opened d) (· = .closed d) es

def FailedSince (es : List Event) (d : Int) : Prop :=
  Since (Event.Fails d) (fun e => e = .opened d ∨ e = .cleared d) es

def start (d : Int) : Option Int :=
  if Standard d then some 0 else none

theorem effects_isSome : (effects d (start d) es).isSome ↔ Live es d := by
  induction es
  case nil =>
    simp only [effects, List.foldr_nil, start, Live, not_since_nil, or_false]
    split_ifs with h <;> simp [h]
  case cons e es hi =>
    simp only [effects, List.foldr_cons, Live, since_cons] at hi ⊢
    rw [Event.effect]
    split_ifs with ho hc hl hf <;> simp_all <;> tauto

theorem effects_ne_zero (h : effects d (start d) es = some value) : value ≠ 0 ↔ FailedSince es d := by
  induction es generalizing value
  case nil =>
    simp only [effects, List.foldr_nil, start] at h
    split_ifs at h
    simp_all [FailedSince, not_since_nil]
  case cons e es hi =>
    simp only [effects, List.foldr_cons, FailedSince, since_cons] at hi h ⊢
    rw [Event.effect] at h
    split_ifs at h with ho hc hl hf
    · cases h
      simp [ho, Event.Fails]
    · have ⟨_, _, hv⟩ := Option.map_eq_some_iff.mp h
      simp [hl, ←hv, Event.Fails]
    · have ⟨_, _, hv⟩ := Option.map_eq_some_iff.mp h
      simp [hf, ←hv]
    · rw [hi h]
      simp [ho, hl, hf]

end Indicator

section Lists

-- The descriptors of the nodes. The node of a closed stream has the descriptor -1.
structure Shape (fds : List Int) : Prop where
  opened : ∀ fd ∈ fds, fd = -1 ∨ 3 ≤ fd
  nodup  : (fds.filter (· ≠ -1)).Nodup

def lookup (fd : Int) (l : List StreamState) : Option Int :=
  (l.find? (·.fd = fd)).map (·.error)

theorem lookup_cons {p : StreamState} :
    lookup d (p :: l) = if p.fd = d then some p.error else lookup d l := by
  simp only [lookup, List.find?_cons]
  by_cases h : p.fd = d <;> simp [h]

theorem lookup_append : lookup d (l ++ l') = (lookup d l).or (lookup d l') := by
  simp only [lookup, List.find?_append, Option.map_or]

theorem lookup_eq_none : lookup d l = none ↔ ∀ p ∈ l, p.fd ≠ d := by
  simp [lookup]

theorem lookup_storeError :
    lookup d (Streams.storeError.go fd value l) =
      if fd = d then (lookup d l).map fun _ => value else lookup d l := by
  induction l
  case nil => simp [Streams.storeError.go, lookup]
  case cons p l hi =>
    rw [Streams.storeError.go]
    split_ifs with hp hd hd <;> simp only [lookup_cons, hi] <;> split_ifs <;> simp_all

theorem lookup_close (hd : d ≥ 0) :
    lookup d (l.map fun p => if p.fd = fd then { p with fd := -1 } else p) =
      if fd = d then none else lookup d l := by
  induction l
  case nil => simp [lookup]
  case cons p l hi =>
    rw [List.map_cons, lookup_cons, hi, lookup_cons]
    split_ifs <;> simp_all <;> omega

theorem storeError_fds : (Streams.storeError.go fd value l).map (·.fd) = l.map (·.fd) := by
  induction l
  case nil => rfl
  case cons p l hi =>
    rw [Streams.storeError.go]
    split_ifs
    · rfl
    · exact congrArg (p.fd :: ·) hi

theorem reuse_eq_some (h : Streams.hccStreamOpen.reuse fd l = some l') :
    ∃ front p back, l = front ++ p :: back ∧ p.fd = -1 ∧ l' = front ++ ⟨fd, 0⟩ :: back := by
  induction l generalizing l'
  case nil => nomatch h
  case cons p l hi =>
    rw [Streams.hccStreamOpen.reuse] at h
    split_ifs at h with hp
    case pos =>
      cases h
      exact ⟨[], p, l, rfl, hp, rfl⟩
    case neg =>
      have ⟨l₁, hl, hv⟩ := Option.map_eq_some_iff.mp h
      have ⟨front, q, back, he, hq, hr⟩ := hi hl
      exact ⟨p :: front, q, back, congrArg (p :: ·) he, hq, by rw [←hv, hr, List.cons_append]⟩

theorem Shape.push {fds : List Int} (h : Shape fds) (hf : 3 ≤ fd) (hn : fd ∉ fds) : Shape (fd :: fds) where
  opened := by simpa [hf] using h.opened
  nodup  := by
    rw [List.filter_cons_of_pos (by simp; omega)]
    exact List.nodup_cons.mpr ⟨fun hm => hn (List.mem_filter.mp hm).1, h.nodup⟩

theorem Shape.reuse {front back : List Int} (h : Shape (front ++ -1 :: back)) (hf : 3 ≤ fd)
    (hn : fd ∉ front ++ -1 :: back) : Shape (front ++ fd :: back) := by
  have hp : List.Perm (front ++ fd :: back) (fd :: (front ++ back)) := List.perm_middle
  have hs : Shape (front ++ back) := by
    refine ⟨fun a ha => h.opened a ?_, ?_⟩
    · simp only [List.mem_append, List.mem_cons] at ha ⊢
      tauto
    · simpa using h.nodup
  have h := hs.push hf fun hm => hn <| by
    simp only [List.mem_append, List.mem_cons] at hm ⊢
    tauto
  exact ⟨fun a ha => h.opened a <| hp.mem_iff.mp ha, (hp.filter _).nodup_iff.mpr h.nodup⟩

theorem Shape.close {fds : List Int} (h : Shape fds) :
    Shape (fds.map fun a => if a = fd then -1 else a) where
  opened := by
    intro a ha
    have ⟨b, hb, he⟩ := List.mem_map.mp ha
    have := h.opened b hb
    split_ifs at he <;> omega
  nodup := by
    have he : (fds.map fun a => if a = fd then -1 else a).filter (· ≠ -1) =
        (fds.filter (· ≠ -1)).filter (· ≠ fd) := by
      clear h
      induction fds <;> simp_all [List.filter_cons]
      split_ifs <;> simp_all
    rw [he]
    exact h.nodup.filter _

end Lists

section Advances

variable {e : Event}

theorem hccStreamError_of_standard (h : Standard d) :
    s.hccStreamError d = some (s.standardErrors ⟨d.toNat, by unfold Standard at h; omega⟩) :=
  dif_pos h

theorem hccStreamError_of_not_standard (h : ¬Standard d) : s.hccStreamError d = lookup d s.streams :=
  dif_neg h

theorem hccStreamError_log : (s.log e).hccStreamError d = s.hccStreamError d :=
  rfl

theorem storeError_log : (s.log e).storeError fd value = (s.storeError fd value).log e := by
  simp only [Streams.storeError, Streams.log]
  split <;> rfl

theorem storeError_events : (s.storeError fd value).events = s.events := by
  simp only [Streams.storeError]
  split <;> rfl

theorem hccStreamError_storeError :
    (s.storeError fd value).hccStreamError d =
      if fd = d then (s.hccStreamError d).map fun _ => value else s.hccStreamError d := by
  unfold Streams.storeError Streams.hccStreamError
  by_cases hd : d ≥ 0 ∧ d < 3
  case pos =>
    have hn : (d.toNat : Int) = d := by omega
    split_ifs with hf he he
    · simp [hn, he]
    · simp [hn, Ne.symm he]
    · exact absurd (he ▸ hd) hf
    · rfl
  case neg =>
    split_ifs with hf he he <;> try rfl
    · exact absurd (he ▸ hf) hd
    · exact lookup_storeError.trans <| if_pos he
    · exact lookup_storeError.trans <| if_neg he

-- The descriptor that an event is about.
def Event.descriptor : Event → Option Int
  | attempt _ _ => none
  | opened fd | closed fd | cleared fd | read fd _ _ | wrote fd _ _ | overflow fd => some fd

theorem Event.effect_of_ne {error : Option Int} (h : e.descriptor ≠ some d) : e.effect d error = error := by
  cases e <;> simp_all [effect, descriptor, Fails]

-- A part of a run at the descriptor `fd`, in which `es` happens.
structure Advances (s : Streams) (fd : Int) (es : List Event) (s' : Streams) : Prop where
  events : s'.events = es ++ s.events
  about  : ∀ e ∈ es, e.descriptor = none ∨ e.descriptor = some fd
  opens  : .opened fd ∈ es → 0 ≤ fd
  errors : ∀ d ≥ 0, s'.hccStreamError d = effects d (s.hccStreamError d) es
  shape  : Shape (s.streams.map (·.fd)) → Shape (s'.streams.map (·.fd))

theorem Advances.refl : Advances s fd [] s :=
  ⟨rfl, fun _ h => absurd h List.not_mem_nil, fun h => absurd h List.not_mem_nil, fun _ _ => rfl, id⟩

theorem Advances.trans (h : Advances s fd es s') (h' : Advances s' fd es' s'') :
    Advances s fd (es' ++ es) s'' where
  events := by rw [h'.events, h.events, List.append_assoc]
  about  := fun e he => (List.mem_append.mp he).elim (h'.about e) (h.about e)
  opens  := fun he => (List.mem_append.mp he).elim h'.opens h.opens
  errors := fun d hd => by rw [h'.errors d hd, h.errors d hd, effects_append]
  shape  := h'.shape ∘ h.shape

theorem Advances.log (ha : e.descriptor = none ∨ e.descriptor = some fd)
    (he : e.effect fd (s.hccStreamError fd) = s.hccStreamError fd)
    (ho : e = .opened fd → 0 ≤ fd) : Advances s fd [e] (s.log e) where
  events := rfl
  about  := by simpa using ha
  opens  := fun h => ho (List.mem_singleton.mp h).symm
  errors := by
    intro d _
    by_cases hd : fd = d
    case pos => exact hd ▸ he.symm
    case neg =>
      refine (Event.effect_of_ne fun h => ?_).symm
      exact ha.elim (fun hn => nomatch hn.symm.trans h) fun hs => hd <| Option.some.inj <| hs.symm.trans h
  shape := id

theorem Advances.store (ha : e.descriptor = some fd)
    (he : e.effect fd (s.hccStreamError fd) = (s.hccStreamError fd).map fun _ => value)
    (ho : e = .opened fd → 0 ≤ fd) :
    Advances s fd [e] ((s.storeError fd value).log e) where
  events := congrArg (e :: ·) storeError_events
  about  := by simp [ha]
  opens  := fun h => ho (List.mem_singleton.mp h).symm
  errors := by
    intro d hd
    rw [hccStreamError_log, hccStreamError_storeError]
    split
    case isTrue h  => exact h ▸ he.symm
    case isFalse h => exact (Event.effect_of_ne <| ha ▸ fun hs => h <| Option.some.inj hs).symm
  shape := by
    simp only [Streams.log, Streams.storeError]
    split
    case isTrue  => exact id
    case isFalse => rw [storeError_fds]; exact id

theorem Advances.open (hf : 0 ≤ fd) (hd : ¬Standard fd) (hs : Shape (s.streams.map (·.fd)) → Shape (l.map (·.fd)))
    (hl : ∀ d ≥ 0, lookup d l = if fd = d then some 0 else lookup d s.streams) :
    Advances s fd [.opened fd] ({ s with streams := l }.log (.opened fd)) where
  events := rfl
  about  := by simp [Event.descriptor]
  opens  := fun _ => hf
  errors := by
    intro d h
    rw [hccStreamError_log]
    by_cases he : fd = d
    case pos =>
      subst he
      rw [hccStreamError_of_not_standard hd, hl fd h, if_pos rfl]
      simp [effects, Event.effect]
    case neg =>
      have hn : (Event.opened fd).descriptor ≠ some d := fun h => he <| Option.some.inj h
      simp only [effects, List.foldr_cons, List.foldr_nil, Event.effect_of_ne hn]
      by_cases hd : Standard d
      case pos => rw [hccStreamError_of_standard hd, hccStreamError_of_standard hd]
      case neg =>
        rw [hccStreamError_of_not_standard hd, hccStreamError_of_not_standard hd, hl d h, if_neg he]
  shape := hs

theorem advances_hccStreamOpen (hf : 0 ≤ fd) (h : Streams.hccStreamOpen fd memory s = (true, s')) :
    Advances s fd [.opened fd] s' := by
  rw [Streams.hccStreamOpen] at h
  split at h
  case isTrue hs =>
    cases h
    have ⟨_, hs⟩ := Option.isSome_iff_exists.mp hs
    exact .store rfl (by simp [hs, Event.effect]) fun _ => hf
  case isFalse hn =>
    have hd : ¬Standard fd := fun h => hn <| by rw [hccStreamError_of_standard h]; rfl
    have h3 : 3 ≤ fd := by unfold Standard at hd; omega
    rw [hccStreamError_of_not_standard hd, Option.not_isSome_iff_eq_none] at hn
    have hm : fd ∉ s.streams.map (·.fd) := by simpa using lookup_eq_none.mp hn
    split at h
    case h_1 l hr =>
      cases h
      have ⟨front, p, back, hl, hp, he⟩ := reuse_eq_some hr
      refine .open hf hd (fun h => ?_) fun d hd => ?_
      · rw [hl, List.map_append, List.map_cons, hp] at h hm
        rw [he, List.map_append]
        exact h.reuse h3 hm
      · have hp (d : Int) (hd : d ≥ 0) : lookup d s.streams = (lookup d front).or (lookup d back) := by
          rw [hl, lookup_append, lookup_cons, if_neg (by omega)]
        rw [hp d hd, he, lookup_append, lookup_cons]
        split
        case isTrue h =>
          rw [hp fd hf] at hn
          rw [←h, (Option.or_eq_none_iff.mp hn).1]
          rfl
        case isFalse => rfl
    case h_2 =>
      split at h <;> cases h
      exact .open hf hd (fun h => h.push h3 hm) fun d hd => lookup_cons

theorem advances_hccStreamOpen_false (h : Streams.hccStreamOpen fd memory s = (false, s')) :
    s' = s ∧ s.hccStreamError fd = none := by
  rw [Streams.hccStreamOpen] at h
  split at h
  case isTrue  => nomatch h
  case isFalse hn =>
    split at h
    case h_1 => nomatch h
    case h_2 =>
      split at h <;> cases h
      exact ⟨rfl, Option.not_isSome_iff_eq_none.mp hn⟩

theorem advances_read {size : Nat} {n : Int} (hn : ¬n < 0) :
    Advances s fd [.read fd size n] (s.log (.read fd size n)) :=
  .log (.inr rfl) (by simp [Event.effect, Event.Fails, hn]) (by simp)

theorem advances_failedRead {size : Nat} {n : Int} (hn : n < 0) :
    Advances s fd [.read fd size n] ((s.log (.read fd size n)).storeError fd 1) :=
  storeError_log ▸ .store rfl (by simp [Event.effect, Event.Fails, hn]) (by simp)

theorem advances_wrote {size : Nat} {n : Int} (hn : ¬n ≤ 0) :
    Advances s fd [.wrote fd size n] (s.log (.wrote fd size n)) :=
  .log (.inr rfl) (by simp [Event.effect, Event.Fails, hn]) (by simp)

theorem advances_failedWrite {size : Nat} {n : Int} (hn : n ≤ 0) :
    Advances s fd [.wrote fd size n] ((s.log (.wrote fd size n)).storeError fd 1) :=
  storeError_log ▸ .store rfl (by simp [Event.effect, Event.Fails, hn]) (by simp)

theorem advances_write {results : List Int} {done : Nat}
    (h : Streams.hccStreamWrite.go w fd count done results s = some (n, s')) :
    ∃ es, Advances s fd es s' := by
  induction results generalizing s done
  case nil =>
    rw [Streams.hccStreamWrite.go] at h
    split at h <;> cases h
    exact ⟨[], .refl⟩
  case cons m results hi =>
    rw [Streams.hccStreamWrite.go] at h
    split at h
    case isFalse => cases h; exact ⟨[], .refl⟩
    case isTrue =>
      dsimp only at h
      split at h
      case isTrue hm => cases h; exact ⟨_, advances_failedWrite hm⟩
      case isFalse hm =>
        have ⟨es, ha⟩ := hi h
        exact ⟨_, (advances_wrote hm).trans ha⟩

theorem advances_hccStreamWrite (h : Streams.hccStreamWrite w count stream results s = some (n, s')) :
    ∃ es, Advances s (int stream) es s' := by
  rw [Streams.hccStreamWrite] at h
  split at h
  case h_1 => cases h; exact ⟨[], .refl⟩
  case h_2 => exact advances_write h

theorem advances_retry {flags : Nat} (h : Streams.fopen.retry flags results s = some (fd, s')) :
    results.find? (fun fd => !decide (Standard fd)) = some fd ∧ ∃ es, Advances s fd es s' := by
  induction results generalizing s
  case nil => nomatch h
  case cons m results hi =>
    rw [Streams.fopen.retry] at h
    split at h
    case isTrue hm =>
      have ⟨hf, es, ha⟩ := hi h
      have hm : Standard m := hm
      refine ⟨by simp [hm, hf], _, Advances.trans (.log (.inl rfl) ?_ (by simp)) ha⟩
      simp [Event.effect, Event.Fails]
    case isFalse hm =>
      cases h
      have hm : ¬Standard fd := hm
      refine ⟨by simp [hm], _, .log (.inl rfl) ?_ (by simp)⟩
      simp [Event.effect, Event.Fails]

theorem advances_fclose (h : ¬int stream < 3) {result : Int} :
    Advances s (int stream) [.closed (int stream)] (s.fclose stream result).2 := by
  rw [Streams.fclose, if_neg h]
  refine ⟨rfl, by simp [Event.descriptor], fun _ => by omega, fun d hd => ?_, fun h => ?_⟩
  · by_cases hs : Standard d
    case pos =>
      have hn : (Event.closed (int stream)).descriptor ≠ some d := fun he => by
        have he : int stream = d := Option.some.inj he
        unfold Standard at hs
        omega
      simp only [effects, List.foldr_cons, List.foldr_nil, Event.effect_of_ne hn]
      rw [hccStreamError_of_standard hs, hccStreamError_of_standard hs]
      rfl
    case neg =>
      rw [hccStreamError_of_not_standard hs, hccStreamError_of_not_standard hs]
      refine (lookup_close hd).trans ?_
      by_cases he : int stream = d <;> simp [effects, Event.effect, Event.Fails, he, hs]
  · have he : (s.streams.map fun p => if p.fd = int stream then { p with fd := -1 } else p).map (·.fd) =
        (s.streams.map (·.fd)).map fun a => if a = int stream then -1 else a := by
      simp only [List.map_map]
      refine List.map_congr_left fun p _ => ?_
      simp only [Function.comp_apply]
      split <;> rfl
    exact he ▸ h.close

theorem advances_clearerr (s : Streams) (stream : Int) : ∃ es, Advances s (int stream) es (s.clearerr stream) := by
  rw [Streams.clearerr]
  split
  case h_1   => exact ⟨[], .refl⟩
  case h_2 h => exact ⟨_, .store rfl (by simp [h, Event.effect]) (by simp)⟩

theorem advances_fgetc (s : Streams) (stream n : Int) (c : UInt8) :
    ∃ es, Advances s (int stream) es (s.fgetc stream n c).2 := by
  rw [Streams.fgetc]
  split
  case h_1 => exact ⟨[], .refl⟩
  case h_2 =>
    by_cases hn : n < 0
    case pos => exact ⟨_, by simpa [hn, show n ≠ 1 by omega] using advances_failedRead hn⟩
    case neg => exact ⟨_, by simpa [hn, apply_ite Prod.snd] using advances_read hn⟩

theorem advances_fread (w : Nat) (s : Streams) (size count : Nat) (stream bytes : Int) :
    ∃ es, Advances s (int stream) es (s.fread w size count stream bytes).2 := by
  rw [Streams.fread]
  split
  case isTrue => exact ⟨[], .refl⟩
  case isFalse =>
    by_cases hn : bytes < 0
    case pos => exact ⟨_, by simpa [hn, Int.le_of_lt hn] using advances_failedRead hn⟩
    case neg => exact ⟨_, by simpa [hn, apply_ite Prod.snd] using advances_read hn⟩

theorem advances_fputc {c : Int} {n : Int} (h : s.fputc w c stream results = some (n, s')) :
    ∃ es, Advances s (int stream) es s' := by
  have ⟨⟨done, s₁⟩, hw, h⟩ := Option.bind_eq_some_iff.mp h
  cases h
  exact advances_hccStreamWrite hw

theorem advances_fputs {text : List UInt8} {n : Int} (h : s.fputs w text stream results = some (n, s')) :
    ∃ es, Advances s (int stream) es s' := by
  have ⟨⟨done, s₁⟩, hw, h⟩ := Option.bind_eq_some_iff.mp h
  cases h
  exact advances_hccStreamWrite hw

theorem advances_fwrite {size : Nat} (h : s.fwrite w size count stream results = some (n, s')) :
    ∃ es, Advances s (int stream) es s' := by
  rw [Streams.fwrite] at h
  split at h
  case isTrue => cases h; exact ⟨[], .refl⟩
  case isFalse =>
    split at h
    case isTrue =>
      cases h
      refine ⟨[.overflow (int stream)], ?_⟩
      rw [storeError_log]
      exact .store rfl (by simp [Event.effect, Event.Fails]) (by simp)
    case isFalse =>
      obtain ⟨⟨done, s₁⟩, hw, h⟩ := Option.bind_eq_some_iff.mp h
      cases h
      exact advances_hccStreamWrite hw

theorem advances_fdopen (s : Streams) (fd : Int) (memory : Bool) :
    ∃ es, Advances s fd es (s.fdopen fd memory).2 := by
  rw [Streams.fdopen]
  split
  case isTrue => exact ⟨[], .refl⟩
  case isFalse hf =>
    split
    case h_1 s' ho => exact ⟨[], (advances_hccStreamOpen_false ho).1 ▸ .refl⟩
    case h_2 s' ho => exact ⟨_, advances_hccStreamOpen (Int.not_lt.mp hf) ho⟩

theorem advances_fopen {mode : List Char} {memory : Bool} {n : Int}
    (h : s.fopen mode results memory = some (n, s')) :
    ∃ fd, results.find? (fun fd => !decide (Standard fd)) = some fd ∧ ∃ es, Advances s fd es s' := by
  have ⟨⟨fd, s₁⟩, hr, h⟩ := Option.bind_eq_some_iff.mp h
  have ⟨hf, es, ha⟩ := advances_retry hr
  refine ⟨fd, hf, ?_⟩
  dsimp only at h
  split at h
  case isTrue => cases h; exact ⟨es, ha⟩
  case isFalse hn =>
    split at h
    case h_1 s₂ ho =>
      cases h
      have ⟨hs, he⟩ := advances_hccStreamOpen_false ho
      subst hs
      refine ⟨_, ha.trans <| .log (.inr rfl) ?_ (by simp)⟩
      rw [he, Event.effect]
      split_ifs <;> simp_all
    case h_2 s₂ ho =>
      cases h
      exact ⟨_, ha.trans <| advances_hccStreamOpen (Int.not_lt.mp hn) ho⟩

-- The descriptor of a call. The one of `fopen` is the first that is not a standard one.
def Call.descriptor : Call → Option Int
  | fopen _ results _ => results.find? fun fd => !decide (Standard fd)
  | fdopen fd _       => some fd
  | fclose stream _ | clearerr stream | ferror stream | fgetc stream _ _ | fputc _ stream _
  | fputs _ stream _ | fread _ _ stream _ | fwrite _ _ stream _ => some (int stream)

theorem Call.step_advances {call : Call} (h : call.step w s = some s') :
    ∃ fd es, call.descriptor = some fd ∧ Advances s fd es s' := by
  cases call <;> simp only [Call.step, Option.some.injEq, Option.map_eq_some_iff] at h
  case fopen mode results memory =>
    have ⟨⟨n, s₁⟩, hr, hs⟩ := h
    exact advances_fopen hr |>.imp fun _ ⟨hf, es, ha⟩ => ⟨es, hf, hs ▸ ha⟩
  case fdopen fd memory => 
    have ⟨es, ha⟩ := advances_fdopen s fd memory
    exact ⟨fd, es, rfl, h ▸ ha⟩
  case fclose stream result =>
    by_cases hs : int stream < 3
    case pos => exact ⟨_, [], rfl, by rw [←h, Streams.fclose, if_pos hs]; exact .refl⟩
    case neg => exact ⟨_, _, rfl, h ▸ advances_fclose hs⟩
  case clearerr stream =>
    have ⟨es, ha⟩ := advances_clearerr s stream
    exact ⟨_, es, rfl, h ▸ ha⟩
  case ferror stream => exact ⟨_, [], rfl, h ▸ .refl⟩
  case fgetc stream n c =>
    have ⟨es, ha⟩ := advances_fgetc s stream n c
    exact ⟨_, es, rfl, h ▸ ha⟩
  case fputc c stream results =>
    have ⟨⟨n, s₁⟩, hr, hs⟩ := h
    have ⟨es, ha⟩ := advances_fputc hr
    exact ⟨_, es, rfl, hs ▸ ha⟩
  case fputs text stream results =>
    have ⟨⟨n, s₁⟩, hr, hs⟩ := h
    have ⟨es, ha⟩ := advances_fputs hr
    exact ⟨_, es, rfl, hs ▸ ha⟩
  case fread size count stream bytes =>
    have ⟨es, ha⟩ := advances_fread w s size count stream bytes
    exact ⟨_, es, rfl, h ▸ ha⟩
  case fwrite size count stream results =>
    have ⟨⟨n, s₁⟩, hr, hs⟩ := h
    have ⟨es, ha⟩ := advances_fwrite hr
    exact ⟨_, es, rfl, hs ▸ ha⟩

end Advances

-- The streams are those that the events tell.
structure Tracked (s : Streams) : Prop where
  opens  : ∀ d, .opened d ∈ s.events → 0 ≤ d
  errors : ∀ d ≥ 0, s.hccStreamError d = effects d (start d) s.events
  shape  : Shape (s.streams.map (·.fd))

theorem Tracked.initial : Tracked .initial where
  opens  := nofun
  errors := fun _ _ => rfl
  shape  := ⟨nofun, .nil⟩

theorem Tracked.advances (h : Tracked s) (ha : Advances s fd es s') : Tracked s' where
  opens := by
    intro d hd
    rw [ha.events] at hd
    cases List.mem_append.mp hd
    case inl hd =>
      have he := (ha.about _ hd).resolve_left nofun
      cases he
      exact ha.opens hd
    case inr hd => exact h.opens d hd
  errors := fun d hd => by rw [ha.errors d hd, h.errors d hd, ha.events, effects_append]
  shape  := ha.shape h.shape

theorem Tracked.run {calls : List Call} (h : Tracked s) (hr : Call.run w calls s = some s') : Tracked s' := by
  induction calls generalizing s
  case nil => cases hr; exact h
  case cons call calls hi =>
    have ⟨s₁, hs, hr⟩ := Option.bind_eq_some_iff.mp hr
    have ⟨_, _, _, ha⟩ := Call.step_advances hs
    exact hi (h.advances ha) hr

theorem effects_of_about (h : ∀ e ∈ es, e.descriptor = none ∨ e.descriptor = some fd) (hd : fd ≠ d)
    {error : Option Int} : effects d error es = error := by
  induction es
  case nil => rfl
  case cons e es hi =>
    simp only [List.mem_cons, forall_eq_or_imp] at h
    refine (Event.effect_of_ne fun he => ?_).trans (hi h.2)
    cases h.1
    case inl hn => exact nomatch hn.symm.trans he
    case inr hs => exact hd <| Option.some.inj <| hs.symm.trans he

theorem Tracked.live_nonneg (h : Tracked s) (hd : Live s.events d) : 0 ≤ d := by
  cases hd
  case inl hs => exact hs.1
  case inr ho =>
    have ⟨e, hm, he⟩ := ho.exists
    exact h.opens d <| he ▸ hm

theorem Tracked.ferror {stream : Int} (h : Tracked s) (hl : Live s.events (int stream)) :
    s.ferror stream ≠ 0 ↔ FailedSince s.events (int stream) := by
  have ⟨value, hv⟩ := Option.isSome_iff_exists.mp <| effects_isSome.mpr hl
  have he := (h.errors _ <| h.live_nonneg hl).trans hv
  rw [Streams.ferror, he]
  exact effects_ne_zero hv

theorem streams_exact (w : Nat) (calls : List Call) (h : Call.run w calls .initial = some s) :
    (∀ stream, Live s.events (int stream) → (s.ferror stream ≠ 0 ↔ FailedSince s.events (int stream))) ∧
    (∀ call s', Call.step w s call = some s' → ∀ d ≥ 0, call.descriptor ≠ some d →
      s'.hccStreamError d = s.hccStreamError d) ∧
    ((s.streams.map (·.fd)).filter (· ≠ -1)).Nodup := by
  have ht := Tracked.initial.run h
  refine ⟨fun stream => ht.ferror, fun call s' hs d hd hc => ?_, ht.shape.nodup⟩
  have ⟨fd, es, hf, ha⟩ := Call.step_advances hs
  have hn : fd ≠ d := fun he => hc <| he ▸ hf
  rw [ha.errors d hd, effects_of_about ha.about hn]

-- A stream on a full device, and then the next one with the same descriptor.
theorem streams_exact_full :
    let s := (Call.run 64 [.fopen ['w'] [2, 5] true, .fputc 65 5 [-28], .fclose 5 0, .fopen ['w'] [5] true,
      .fputs [65, 66] 5 [1, 0]] .initial).getD .initial
    (s.ferror 5 ≠ 0 ↔ FailedSince s.events 5) ∧ ((s.streams.map (·.fd)).filter (· ≠ -1)).Nodup :=
  have h := streams_exact 64 [.fopen ['w'] [2, 5] true, .fputc 65 5 [-28], .fclose 5 0,
    .fopen ['w'] [5] true, .fputs [65, 66] 5 [1, 0]] rfl
  ⟨h.1 5 (effects_isSome.mp rfl), h.2.2⟩

end Hcc.Support
