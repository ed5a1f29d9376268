import Hcc.Runtime.Basic
import Mathlib.Data.List.Basic
import Mathlib.Tactic.Linarith

namespace Hcc

variable {α β ε : Type} {m m' : Io Unit} {rt rt' : Runtime} {out : Obuf} {handle : Nat}
variable {text bs bs' : List UInt8} {cs : List Char}

section Io

theorem Io.bind_ok {x : Io α} {f : α → Io β} {a : α} (h : x rt = some (.ok a, rt')) :
    (x >>= f) rt = f a rt' := by
  simp only [bind, ExceptT.bind, ExceptT.mk, StateT.bind, h, Option.bind_some, ExceptT.bindCont]

theorem Io.bind_error {x : Io α} {f : α → Io β} {e : Exit} (h : x rt = some (.error e, rt')) :
    (x >>= f) rt = some (.error e, rt') := by
  simp only [bind, ExceptT.bind, ExceptT.mk, StateT.bind, h, Option.bind_some, ExceptT.bindCont]
  rfl

end Io

def byteOf (c : Char) : UInt8 :=
  .ofNat c.toNat

-- The bytes of the lines, each of them ended by a newline.
def outputBytes (lines : List String) : List UInt8 :=
  (lines.flatMap fun line => line.toList ++ ['\n']).map byteOf

section Obuf

-- The bytes that have been put into the buffer.
def Obuf.bytes (out : Obuf) : List UInt8 :=
  out.data.take out.len

theorem le_grow {next : Nat} (needed : Nat) (h : 0 < next) : needed ≤ ensureChars.grow next needed := by
  fun_induction ensureChars.grow next needed
  case case1 hi   => exact hi <| by omega
  case case2 hn   => omega

theorem grow_le (next needed : Nat) : ensureChars.grow next needed ≤ max next (2 * needed) := by
  fun_induction ensureChars.grow next needed
  case case1 hi => omega
  case case2    => omega

theorem putChar_fits (c : Char) (h : out.len < out.cap) :
    ∃ out', (∀ rt, putChar out c rt = some (.ok out', rt)) ∧ out'.cap = out.cap ∧
      out'.len = out.len + 1 ∧ out'.bytes = out.bytes ++ [byteOf c] := by
  refine ⟨⟨out.data.set out.len (byteOf c), out.len + 1⟩, fun rt => ?_, by simp [Obuf.cap], rfl, ?_⟩
  · simp only [putChar, if_pos h]
    rfl
  · simp only [Obuf.bytes, Obuf.cap] at h ⊢
    rw [List.take_add_one, List.getElem?_set_self h, List.take_set_of_le le_rfl]
    rfl

theorem putChars_fits (cs : List Char) (h : out.len + cs.length ≤ out.cap) :
    ∃ out', (∀ rt, cs.foldlM putChar out rt = some (.ok out', rt)) ∧ out'.len ≤ out'.cap ∧
      out'.bytes = out.bytes ++ cs.map byteOf := by
  induction cs generalizing out
  case nil => exact ⟨out, fun _ => rfl, h, (List.append_nil _).symm⟩
  case cons c cs hi =>
    rw [List.length_cons] at h
    have ⟨out₁, h₁, hc, hl, ht⟩ := putChar_fits c (show out.len < out.cap by omega)
    have ⟨out₂, h₂, hn, ht₂⟩ := hi (show out₁.len + cs.length ≤ out₁.cap by omega)
    refine ⟨out₂, fun rt => ?_, hn, by simp [ht₂, ht]⟩
    rw [List.foldlM_cons, Io.bind_ok (h₁ rt), h₂]

theorem checkedRealloc_cases (rt : Runtime) (data : List UInt8) (size : Nat) :
    (size > rt.memory ∧ checkedRealloc data size rt = some (.error .outOfMemory, rt)) ∨
    checkedRealloc data size rt =
      some (.ok (data.take size ++ List.replicate (size - data.length) 0), rt) := by
  by_cases h : size > rt.memory
  · exact .inl ⟨h, (Io.bind_ok (a := rt) rfl).trans <| by rw [if_pos h]; rfl⟩
  · exact .inr <| (Io.bind_ok (a := rt) rfl).trans <| by rw [if_neg h]; rfl

-- The buffer grows to at most twice of what is needed.
theorem ensureChars_cases (rt : Runtime) (needed : Nat) (h : out.len ≤ out.cap) :
    (∃ out', ensureChars out needed rt = some (.ok out', rt) ∧ needed ≤ out'.cap ∧
      out'.len = out.len ∧ out'.bytes = out.bytes) ∨
    ensureChars out needed rt = some (.error .outOfMemory, rt) ∧ rt.memory < 2 * needed + 64 := by
  unfold ensureChars
  split
  case isTrue hc => exact .inl ⟨out, rfl, hc, rfl, rfl⟩
  case isFalse hc =>
    have hp : 0 < if out.cap = 0 then 64 else out.cap := by split <;> omega
    have hn : (if out.cap = 0 then 64 else out.cap) ≤ needed + 64 := by split <;> omega
    generalize (if out.cap = 0 then 64 else out.cap) = start at hp hn
    have hg := le_grow needed hp
    have hl := grow_le start needed
    generalize ensureChars.grow start needed = next at hg hl
    rcases checkedRealloc_cases rt out.data next with ⟨hm, hr⟩ | hr
    · exact .inr ⟨Io.bind_error hr, by omega⟩
    · simp only [Obuf.cap] at h hc
      refine .inl ⟨_, Io.bind_ok hr, ?_, rfl, ?_⟩
      · simp only [Obuf.cap, List.length_append, List.length_take, List.length_replicate]
        omega
      · simp only [Obuf.bytes]
        rw [List.take_of_length_le (show out.data.length ≤ next by omega), List.take_append_of_le_length h]

end Obuf

section Table

-- The bytes of the open buffer.
def Runtime.Holds (rt : Runtime) (handle : Nat) (text : List UInt8) : Prop :=
  handle ≠ 0 ∧ ∃ out, rt.obufs[handle - 1]? = some (some out) ∧ out.len ≤ out.cap ∧ out.bytes = text

-- The action returns `a` and puts the bytes into the buffer, unless there is not enough memory for them. The
-- file stays as it is.
def Appends (m : Io α) (handle : Nat) (bs : List UInt8) (a : α) : Prop :=
  ∀ rt text, rt.Holds handle text → ∃ r rt', m rt = some (r, rt') ∧ rt'.file = rt.file ∧
    rt'.memory = rt.memory ∧ ((r = .ok a ∧ rt'.Holds handle (text ++ bs)) ∨
      (r = .error .outOfMemory ∧ rt.memory < 2 * (text ++ bs).length + 64))

variable {m : Io α} {f : α → Io β} {a : α} {b : β}

theorem Appends.pure : Appends (Pure.pure a) handle [] a :=
  fun rt text h => ⟨.ok a, rt, rfl, rfl, rfl, .inl ⟨rfl, (List.append_nil text).symm ▸ h⟩⟩

theorem Appends.bind (h : Appends m handle bs a) (hf : Appends (f a) handle bs' b) :
    Appends (m >>= f) handle (bs ++ bs') b := by
  intro rt text ht
  have ⟨r, rt₁, hr, hfile, hm, hc⟩ := h rt text ht
  rcases hc with ⟨rfl, ht⟩ | ⟨rfl, hb⟩
  case inl =>
    have ⟨r', rt₂, hr', hfile', hm', hc'⟩ := hf rt₁ _ ht
    refine ⟨r', rt₂, (Io.bind_ok hr).trans hr', hfile'.trans hfile, hm'.trans hm, ?_⟩
    rwa [List.append_assoc, hm] at hc'
  case inr =>
    refine ⟨_, rt₁, Io.bind_error hr, hfile, hm, .inr ⟨rfl, ?_⟩⟩
    simp only [List.length_append] at hb ⊢
    omega

theorem getObuf_eq (h₀ : handle ≠ 0) {out : Option Obuf} (h : rt.obufs[handle - 1]? = some out) :
    getObuf handle rt = some (.ok out, rt) := by
  unfold getObuf
  rw [if_neg h₀]
  exact (Io.bind_ok (a := rt) rfl).trans <| by rw [h]; rfl

theorem hccObufPutChars_appends : Appends (hccObufPutChars handle cs) handle (cs.map byteOf) () := by
  rintro rt _ ⟨h₀, out, hg, hl, rfl⟩
  have hi : handle - 1 < rt.obufs.length := (List.getElem?_eq_some_iff.mp hg).1
  unfold hccObufPutChars
  rw [Io.bind_ok (getObuf_eq h₀ hg)]
  rcases ensureChars_cases rt (out.len + cs.length) hl with
    ⟨out₁, h₁, hc, hlen, ht⟩ | ⟨h₁, hm⟩
  case inl =>
    have ⟨out₂, h₂, hl₂, ht₂⟩ := putChars_fits cs (show out₁.len + cs.length ≤ out₁.cap by omega)
    dsimp only
    rw [Io.bind_ok h₁, Io.bind_ok (h₂ rt)]
    refine ⟨_, _, rfl, rfl, rfl, .inl ⟨rfl, h₀, out₂, ?_, hl₂, ht₂.trans <| ht ▸ rfl⟩⟩
    simp [hi]
  case inr =>
    dsimp only
    rw [Io.bind_error h₁]
    refine ⟨_, rt, rfl, rfl, rfl, .inr ⟨rfl, ?_⟩⟩
    have : out.bytes.length = out.len := by simpa [Obuf.bytes, Obuf.cap] using hl
    simp only [List.length_append, List.length_map]
    omega

-- The chunks of a text do not matter.
theorem hccWriteBufferedText_appends :
    Appends (hccWriteBufferedText handle cs) handle (cs.map byteOf) () := by
  fun_induction hccWriteBufferedText handle cs
  case case1 => exact .pure
  case case2 hi => exact hccObufPutChars_appends.bind hi
  case case3 hi => exact hccObufPutChars_appends.bind hi
  case case4 hi => exact hccObufPutChars_appends.bind hi

theorem hccWriteTransactionLine_appends {line : String} :
    Appends (hccWriteTransactionLine handle line) handle (outputBytes [line]) () := by
  have hb : outputBytes [line] = line.toList.map byteOf ++ ['\n'].map byteOf := by simp [outputBytes]
  rw [hb]
  exact hccWriteBufferedText_appends.bind hccObufPutChars_appends

theorem outputBytes_append (lines lines' : List String) :
    outputBytes (lines ++ lines') = outputBytes lines ++ outputBytes lines' := by
  simp [outputBytes]

theorem forM_appends {lines : List String} :
    Appends (lines.forM (hccWriteTransactionLine handle)) handle (outputBytes lines) () := by
  induction lines
  case nil => exact .pure
  case cons line lines hi =>
    rw [← List.singleton_append, outputBytes_append]
    exact hccWriteTransactionLine_appends.bind hi

end Table

section Transaction

variable {result : Except ε α}

-- The state after the output file has been opened. No buffer is in use.
def openedRuntime (memory : Nat) : Runtime :=
  ⟨some [], List.replicate 256 none, memory⟩

theorem hccObufNew_opened (memory : Nat) :
    (∃ rt', hccObufNew outputChunkSize (openedRuntime memory) = some (.ok 1, rt') ∧ rt'.file = some [] ∧
      rt'.memory = memory ∧ rt'.Holds 1 []) ∨
    hccObufNew outputChunkSize (openedRuntime memory) = some (.error .outOfMemory, openedRuntime memory) ∧
      memory < 65536 := by
  rcases checkedRealloc_cases (openedRuntime memory) [] 65536 with ⟨hm, hr⟩ | hr
  · exact .inr ⟨Io.bind_error hr, hm⟩
  · refine .inl ⟨_, (Io.bind_ok hr).trans rfl, rfl, rfl, nofun, _, rfl, Nat.zero_le _, rfl⟩

theorem hccObufWrite_holds (hf : rt.file = some text) (h : rt.Holds handle bs) :
    hccObufWrite handle rt = some (.ok (), { rt with file := some (text ++ bs) }) := by
  obtain ⟨h₀, out, hg, hl, rfl⟩ := h
  unfold hccObufWrite
  rw [Io.bind_ok (a := rt) rfl, hf, Io.bind_ok (getObuf_eq h₀ hg)]
  rfl

theorem hccObufFree_ok (h : rt.Holds handle bs) :
    hccObufFree handle rt = some (.ok (), { rt with obufs := rt.obufs.set (handle - 1) none }) := by
  obtain ⟨h₀, out, hg, -, -⟩ := h
  unfold hccObufFree
  rw [Io.bind_ok (getObuf_eq h₀ hg)]
  rfl

-- The bytes are published if the action succeeds, and nothing is published otherwise.
theorem hccWithTransactionalLineWriter_spec (memory : Nat)
    (action : (String → Io Unit) → Io (Except ε α))
    (h : ∀ handle, Appends (action (hccWriteTransactionLine handle)) handle bs result) :
    ∃ r rt', hccWithTransactionalLineWriter action (openedRuntime memory) = some (r, rt') ∧
      ((r = .ok result ∧ rt'.file = some (if result.isOk then bs else [])) ∨
        (r = .error .outOfMemory ∧ rt'.file = some [] ∧ memory < max 65536 (2 * bs.length + 64))) := by
  unfold hccWithTransactionalLineWriter hccWithObuf
  rcases hccObufNew_opened memory with ⟨rt₁, hn, hf, hm, ht⟩ | ⟨hn, hm⟩
  case inr => exact ⟨_, _, Io.bind_error hn, .inr ⟨rfl, rfl, lt_max_of_lt_left hm⟩⟩
  case inl =>
    rw [Io.bind_ok hn, if_neg Nat.one_ne_zero]
    have ⟨r, rt₂, hr, hf₂, hm₂, hc⟩ := h 1 rt₁ _ ht
    have hf₂ := hf₂.trans hf
    rcases hc with ⟨rfl, ht⟩ | ⟨rfl, hb⟩
    case inr =>
      exact ⟨_, rt₂, Io.bind_error (Io.bind_error hr), .inr ⟨rfl, hf₂, lt_max_of_lt_right <| hm ▸ hb⟩⟩
    case inl =>
      cases result
      case error e =>
        rw [Io.bind_ok ((Io.bind_ok hr).trans rfl), Io.bind_ok (hccObufFree_ok ht)]
        exact ⟨_, _, rfl, .inl ⟨rfl, hf₂⟩⟩
      case ok a =>
        have hw := hccObufWrite_holds hf₂ ht
        rw [Io.bind_ok ((Io.bind_ok hr).trans <| (Io.bind_ok hw).trans rfl)]
        have hfree : hccObufFree 1 { rt₂ with file := some ([] ++ ([] ++ bs)) } = _ := hccObufFree_ok ht
        exact ⟨_, _, Io.bind_ok hfree, .inl ⟨rfl, rfl⟩⟩

end Transaction
end Hcc
