import Hcc.Ir.Availability
import Hcc.Ir.Execution

namespace Hcc

variable {w : Nat} {World : Type} {m : Machine w World} {n : Nat} {f : Temp → Temp} {A B : Temp → Prop}
variable {s s' : Frame w World} {r r' : Option (Frame w World)} {t : Temp} {op : Operand}

section Definitions

-- Variables keep their names, and the other temporaries are told apart.
structure Fits (n : Nat) (f : Temp → Temp) : Prop where
  locals    : ∀ t, t.index < n → f t = t
  others    : ∀ t, n ≤ t.index → n ≤ (f t).index
  injective : Function.Injective f

-- The frames differ only in the names of temporaries, and in those that have not got values yet.
structure Frame.Agrees (n : Nat) (A : Temp → Prop) (f : Temp → Temp) (s s' : Frame w World) : Prop where
  world : s'.world = s.world
  temps : ∀ t, A t → n ≤ t.index → s'.temps (f t) = s.temps t

-- Either both executions are stuck, or they end in frames that agree.
inductive Related (n : Nat) (A : Temp → Prop) (f : Temp → Temp) :
    Option (Frame w World) → Option (Frame w World) → Prop
  | stuck : Related n A f none none
  | ends {s s' : Frame w World} : s.Agrees n A f s' → Related n A f (some s) (some s')

end Definitions

-- Before the first instruction only variables have values.
theorem Frame.agrees_of_world (h : s'.world = s.world) : s.Agrees n (·.index < n) f s' :=
  ⟨h, fun _ ht hn => absurd ht <| not_lt.mpr hn⟩

theorem Frame.Agrees.mono (h : s.Agrees n A f s') (hA : ∀ t, B t → A t) : s.Agrees n B f s' :=
  ⟨h.world, fun t ht => h.temps t <| hA t ht⟩

section Agreement

variable (hf : Fits n f)

include hf

theorem Frame.Agrees.get (h : s.Agrees n A f s') (ht : A t) : m.get n s' (f t) = m.get n s t := by
  unfold Machine.get
  by_cases hn : t.index < n
  case pos => rw [hf.locals t hn, if_pos hn, if_pos hn, h.world]
  case neg =>
    have hn := not_lt.mp hn
    rw [if_neg (not_lt.mpr <| hf.others t hn), if_neg (not_lt.mpr hn), h.temps t ht hn]

theorem Frame.Agrees.set (h : s.Agrees n A f s') {v : BitVec w} :
    (m.set n s t v).Agrees n (extend A (some t)) f (m.set n s' (f t) v) := by
  unfold Machine.set
  by_cases hn : t.index < n
  case pos =>
    rw [hf.locals t hn, if_pos hn, if_pos hn]
    refine ⟨by rw [h.world], fun u hu hu' => h.temps u (hu.resolve_right fun he => ?_) hu'⟩
    cases he
    exact absurd hn <| not_lt.mpr hu'
  case neg =>
    have hn := not_lt.mp hn
    rw [if_neg (not_lt.mpr <| hf.others t hn), if_neg (not_lt.mpr hn)]
    refine ⟨h.world, fun u hu hu' => ?_⟩
    by_cases he : u = t
    case pos => simp [he]
    case neg =>
      have hA : A u := hu.resolve_right fun ht => he (Option.some.inj ht).symm
      simpa [he, hf.injective.ne he] using h.temps u hA hu'

theorem Frame.Agrees.operand (h : s.Agrees n A f s') (ho : op.Within A) :
    m.operand n s' (op.rename f) = m.operand n s op := by
  cases op
  case temp => exact h.get hf <| within_temp.mp ho
  all_goals rfl

theorem Frame.Agrees.operands (h : s.Agrees n A f s') {ops : List Operand} (ho : ∀ op ∈ ops, op.Within A) :
    (ops.map (·.rename f)).mapM (m.operand n s') = ops.mapM (m.operand n s) := by
  induction ops
  case nil          => rfl
  case cons hi =>
    have ⟨ho, hos⟩ := List.forall_mem_cons.mp ho
    rw [List.map_cons, List.mapM_cons, List.mapM_cons, h.operand hf ho, hi hos]

end Agreement

namespace Related

theorem mono (h : Related n A f r r') (hA : ∀ t, B t → A t) : Related n B f r r' := by
  cases h
  case stuck  => exact .stuck
  case ends h => exact .ends <| h.mono hA

theorem bind {g g' : Frame w World → Option (Frame w World)} (h : Related n A f r r')
    (hg : ∀ {s s'}, s.Agrees n A f s' → Related n B f (g s) (g' s')) :
    Related n B f (r >>= g) (r' >>= g') := by
  cases h
  case stuck  => exact .stuck
  case ends h => exact hg h

-- A value that both executions compute.
theorem value {α : Type} {o : Option α} {g g' : α → Option (Frame w World)}
    (hg : ∀ a, Related n A f (g a) (g' a)) : Related n A f (o >>= g) (o >>= g') := by
  cases o
  case none => exact .stuck
  case some => exact hg _

variable (hf : Fits n f) (h : s.Agrees n A f s')

include hf h

theorem load {size : Nat} {widen : BitVec w → BitVec w} (ho : op.Within A) :
    Related n (extend A (some t)) f (m.load n s size widen t op)
      (m.load n s' size widen (f t) (op.rename f)) := by
  unfold Machine.load
  rw [h.operand hf ho, h.world]
  exact .value fun _ => .value fun _ => .ends <| h.set hf

theorem store {size : Nat} {value : Operand} (ho : op.Within A) (hv : value.Within A) :
    Related n A f (m.store n s size op value) (m.store n s' size (op.rename f) (value.rename f)) := by
  unfold Machine.store
  rw [h.operand hf ho, h.operand hf hv, h.world]
  exact .value fun _ => .value fun _ => .value fun _ => .ends ⟨rfl, h.temps⟩

theorem convert {widen : BitVec w → BitVec w} (ho : op.Within A) :
    Related n (extend A (some t)) f (m.convert n s widen t op) (m.convert n s' widen (f t) (op.rename f)) := by
  unfold Machine.convert
  rw [h.operand hf ho]
  exact .value fun _ => .ends <| h.set hf

theorem returned {result : Option Temp} {v : World × BitVec w} : Related n (extend A result) f
    (some <| m.returned n s result v) (some <| m.returned n s' (result.map f) v) := by
  have h : Frame.Agrees n A f { s with world := v.1 } { s' with world := v.1 } := ⟨rfl, h.temps⟩
  cases result
  case none => exact .ends <| extend_none ▸ h
  case some => exact .ends <| h.set hf

end Related

mutual

theorem exec_rename (hf : Fits n f) : (i : Instr) → {A : Temp → Prop} → i.Ready A → {s s' : Frame w World} → s.Agrees n A f s' →
    Related n (extend A i.created) f (m.exec n i s) (m.exec n (i.rename f) s')
  | .param .., _, _, _, _, h => by
    rw [Instr.rename, Machine.exec, Machine.exec, h.world]
    exact .value fun _ => .ends <| h.set hf
  | .alloca .., _, _, _, _, h => by
    rw [Instr.rename, Machine.exec, Machine.exec, h.world]
    exact .value fun _ => .returned hf h
  | .const .., _, _, _, _, h => by
    rw [Instr.rename, Machine.exec, Machine.exec]
    exact .ends <| h.set hf
  | .copy .., _, hr, _, _, h => by
    rw [Instr.rename, Machine.exec, Machine.exec]
    refine Related.mono (.convert hf h hr) fun _ ht => .inl ?_
    simpa [extend, Instr.created] using ht
  | .addrOf _ source, _, hr, _, _, h => by
    rw [Instr.rename, Machine.exec, Machine.exec]
    by_cases hn : source.index < n
    case pos =>
      rw [hf.locals _ hn, if_pos hn, if_pos hn, h.world]
      exact .ends <| h.set hf
    case neg =>
      rw [if_neg hn, if_neg <| not_lt.mpr <| hf.others _ <| not_lt.mp hn]
      exact .stuck
  | .load64 .., _, hr, _, _, h | .load32 .., _, hr, _, _, h | .loadS32 .., _, hr, _, _, h | .load16 .., _, hr, _, _, h
  | .loadS16 .., _, hr, _, _, h | .load8 .., _, hr, _, _, h | .loadS8 .., _, hr, _, _, h => by
    rw [Instr.rename, Machine.exec, Machine.exec]
    exact .load hf h hr
  | .store64 .., _, hr, _, _, h | .store32 .., _, hr, _, _, h | .store16 .., _, hr, _, _, h | .store8 .., _, hr, _, _, h => by
    rw [Instr.rename, Machine.exec, Machine.exec, Instr.created, extend_none]
    exact .store hf h hr.left hr.right
  | .sext .., _, hr, _, _, h | .zext .., _, hr, _, _, h | .trunc .., _, hr, _, _, h => by
    rw [Instr.rename, Machine.exec, Machine.exec]
    exact .convert hf h hr
  | .bin .., _, hr, _, _, h => by
    rw [Instr.rename, Machine.exec, Machine.exec, h.operand hf hr.left, h.operand hf hr.right]
    exact .value fun _ => .value fun _ => .value fun _ => .ends <| h.set hf
  | .cond _ condInstrs _ trueInstrs _ falseInstrs _, _, hr, _, _, h => by
    have ⟨hc, hco, ht, hto, he, heo⟩ := hr
    rw [Instr.rename, Machine.exec, Machine.exec]
    refine .bind (execs_rename hf condInstrs hc h) fun h => ?_
    rw [h.operand hf hco]
    refine .value fun _ => ?_
    -- What the branch computes is not used after the instruction.
    split
    case isTrue =>
      refine .bind (execs_rename hf trueInstrs ht h) fun h => (Related.convert hf h hto).mono ?_
      exact fun _ => Or.imp_left fun hA => .inl <| .inl hA
    case isFalse =>
      refine .bind (execs_rename hf falseInstrs he h) fun h => (Related.convert hf h heo).mono ?_
      exact fun _ => Or.imp_left fun hA => .inl <| .inl hA
  | .call .., _, hr, _, _, h => by
    rw [Instr.rename, Machine.exec, Machine.exec, h.operands hf hr, h.world]
    exact .value fun _ => .value fun _ => .returned hf h
  | .callIndirect .., _, hr, _, _, h => by
    rw [Instr.rename, Machine.exec, Machine.exec, h.operand hf hr.left, h.operands hf hr.right, h.world]
    exact .value fun _ => .value fun _ => .value fun _ => .returned hf h

-- The execution depends neither on the names of temporaries nor on those that have not got values.
theorem execs_rename (hf : Fits n f) : (is : List Instr) → {A : Temp → Prop} → AllReady A is → {s s' : Frame w World} →
    s.Agrees n A f s' → Related n (available A is) f (m.execs n is s) (m.execs n (renameInstrs f is) s')
  | [],      _, _,  _, _, h => by
    rw [renameInstrs, Machine.execs, Machine.execs, available_nil]
    exact .ends h
  | i :: is, _, hr, _, _, h => by
    have ⟨hr, hrs⟩ := allReady_cons.mp hr
    rw [renameInstrs, Machine.execs, Machine.execs, available_cons]
    exact .bind (exec_rename hf i hr h) fun h => execs_rename hf is hrs h

end
end Hcc
