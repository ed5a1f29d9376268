import Hcc.M1.Emit

-- The allocation of the temps of a function in `hcc_m1.c`.
namespace Hcc.M1

open CInteger

def IK_ALLOCA : Int := 2

-- The slots of different temps are different ones.
structure Frame where
  locs       : LocArray
  totalSlots : Int
  total      : 0 ≤ totalSlots
  nonneg     : ∀ ⦃temp loc⦄, locs temp = some loc → 0 ≤ temp
  bounds     : ∀ ⦃temp loc⦄, locs temp = some loc →
               0 ≤ loc.slot ∧ 0 < loc.slots ∧ loc.slot + loc.slots ≤ totalSlots
  apart      : ∀ ⦃temp temp' loc loc'⦄, locs temp = some loc → locs temp' = some loc' →
               temp ≠ temp' → loc.slot + loc.slots ≤ loc'.slot ∨ loc'.slot + loc'.slots ≤ loc.slot

namespace Frame

variable (fr : Frame)

def empty : Frame where
  locs       := fun _ => none
  totalSlots := 0
  total      := Int.le_refl _
  nonneg     := nofun
  bounds     := nofun
  apart      := nofun

theorem update_eq_some {locs : LocArray} (h : Function.update locs temp (some new) temp' = some loc) :
    temp' = temp ∧ loc = new ∨ temp' ≠ temp ∧ locs temp' = some loc := by
  rw [Function.update_apply] at h
  split at h
  case isTrue he => exact .inl ⟨he, (Option.some.inj h).symm⟩
  case isFalse he => exact .inr ⟨he, h⟩

-- The new slots are those behind the slots of all other temps.
def insert (kind : LocKind) (temp slots : Int) (ht : 0 ≤ temp) (hs : 0 < slots) : Frame where
  locs       := Function.update fr.locs temp (some ⟨kind, fr.totalSlots, slots⟩)
  totalSlots := fr.totalSlots + slots
  total      := Int.add_nonneg fr.total <| Int.le_of_lt hs
  nonneg _ _ h := by
    rcases update_eq_some h with ⟨rfl, _⟩ | ⟨_, h⟩
    case inl => exact ht
    case inr => exact fr.nonneg h
  bounds _ _ h := by
    rcases update_eq_some h with ⟨_, rfl⟩ | ⟨_, h⟩
    case inl => exact ⟨fr.total, hs, Int.le_refl _⟩
    case inr =>
      have ⟨h₁, h₂, h₃⟩ := fr.bounds h
      exact ⟨h₁, h₂, by omega⟩
  apart _ _ _ _ h h' hn := by
    rcases update_eq_some h with ⟨rfl, rfl⟩ | ⟨_, ho⟩ <;>
      rcases update_eq_some h' with ⟨rfl, rfl⟩ | ⟨_, ho'⟩
    case inl.inl => contradiction
    case inl.inr => exact .inr (fr.bounds ho').right.right
    case inr.inl => exact .inl (fr.bounds ho).right.right
    case inr.inr => exact fr.apart ho ho' hn

-- A temp that is defined more than once keeps its first location.
def allocDef (temp : Int) : Frame :=
  if h : 0 ≤ temp ∧ fr.locs temp = none then fr.insert .stack temp 1 h.left Int.one_pos else fr

variable (t : Target)

def objectSlots (size : Int) : Int :=
  (max size 1 + (t.wordBytes - 1)) / t.wordBytes

theorem objectSlots_pos : 0 < objectSlots t size := by
  have h := le_max_right size 1
  cases t
  all_goals
    simp only [objectSlots, Target.wordBytes]
    omega

def allocObject (temp size : Int) : Frame :=
  if h : 0 ≤ temp ∧ fr.locs temp = none then
    fr.insert .object temp (objectSlots t size) h.left (objectSlots_pos t)
  else fr

mutual

def allocInstr (fr : Frame) : Instr → Frame
  | .mk fields condInstrs trueInstrs falseInstrs _ _ _ =>
    if fields.kind = IK_ALLOCA then fr.allocObject t fields.temp (IntType.int.wrap fields.value)
    else if fields.kind ∈ [1, 3, 5, 6, 7, 8, 9, 10, 11, 12, 13, 18, 22, 23, 24] then
      fr.allocDef fields.temp
    else if fields.kind = IK_CALL ∨ fields.kind = IK_CALLI then
      if fields.result ≥ 0 then fr.allocDef fields.result else fr
    else if fields.kind = IK_COND then
      let fr := allocInstrs fr condInstrs
      let fr := allocInstrs fr trueInstrs
      let fr := allocInstrs fr falseInstrs
      fr.allocDef fields.temp
    else fr

def allocInstrs (fr : Frame) : List Instr → Frame
  | []              => fr
  | instr :: instrs => allocInstrs (allocInstr fr instr) instrs

end

def allocFunction (fn : Function) : Frame :=
  fn.blocks.foldl (fun fr block => fr.allocInstrs t block.instrs) empty

end Frame
end Hcc.M1
