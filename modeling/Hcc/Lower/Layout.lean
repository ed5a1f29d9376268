import Hcc.Library.RecordLayout
import Hcc.Lower.Types
import Hcc.SymbolTable.Theorems.Lookup
import Mathlib.Data.Set.Insert

-- The layout of types, independently of the order in which their parts are looked up.
namespace Hcc

open Stateful RecordLayout

def Field.type : Field → CType
  | .mk ty _ => ty

def Field.name : Field → String
  | .mk _ name => name

-- The definitions of the tags of a program. The named integer types are not among them.
structure Tags where
  fields : String → Option (Bool × List Field)
  named  : ∀ {name}, (namedIntegerSize name).isSome → fields name = none

def wordSize (bits : Nat) : Int :=
  if bits = 32 then 4 else 8

-- The sizes of the types that have no parts.
def scalarSize (word : Int) : CType → Option Int
  | .void             => some 1
  | .bool             => some 1
  | .char             => some 1
  | .unsignedChar     => some 1
  | .short            => some 2
  | .unsignedShort    => some 2
  | .int              => some 4
  | .unsigned         => some 4
  | .float            => some 4
  | .enum _           => some 4
  | .long             => some word
  | .unsignedLong     => some word
  | .ptr _            => some word
  | .func ..          => some word
  | .longLong         => some 8
  | .unsignedLongLong => some 8
  | .double           => some 8
  | .longDouble       => some 16
  | .named name       => (namedIntegerSize name).map fun size => if name ∈ targetWordSizedNames then word else size
  | _                 => none

def scalarSlot (size : Int) : Slot where
  size  := size
  align := if size ≥ 8 then 8 else if size ≥ 4 then 4 else if size ≥ 2 then 2 else 1

-- The type is a record of these members. A definition inside of a type has to be the one of its tag.
def Tags.Defines (tags : Tags) (ty : CType) (isUnion : Bool) (fields : List Field) : Prop :=
  match ty with
  | .structDef fs         => isUnion = false ∧ fs = fields
  | .unionDef fs          => isUnion = true ∧ fs = fields
  | .structNamed name fs  => isUnion = false ∧ fs = fields ∧ tags.fields name = some (false, fields)
  | .unionNamed name fs   => isUnion = true ∧ fs = fields ∧ tags.fields name = some (true, fields)
  | .struct name          => tags.fields name = some (isUnion, fields)
  | .union name           => tags.fields name = some (isUnion, fields)
  | .named name           => tags.fields name = some (isUnion, fields)
  | _                     => False

-- The expression has this value wherever it is evaluated.
structure FixedBound (bits : Nat) (bound : Expr) (n : Int) : Prop where
  sound   : ∀ {fuel scope st value st'}, st.targetBits = bits →
            Run ((typing fuel).constExprTyped true bound scope) st value st' →
            st' = st ∧ constantToIntChecked value = some n
  reached : ∃ fuel scope st value st', st.targetBits = bits ∧
            Run ((typing fuel).constExprTyped true bound scope) st value st'

-- The types with a layout. The layout of the members of a record depends on their types only.
inductive HasLayout (tags : Tags) (bits : Nat) : CType → Slot → Prop
  | scalar {ty size} : scalarSize (wordSize bits) ty = some size → HasLayout tags bits ty (scalarSlot size)
  | array {inner s bound n} : HasLayout tags bits inner s → FixedBound bits bound n → 0 ≤ n →
    HasLayout tags bits (.array inner (some bound)) ⟨s.size * n, s.align⟩
  | unbounded {inner s} : HasLayout tags bits inner s → HasLayout tags bits (.array inner none) s
  | record {ty isUnion fields} (slot : CType → Slot) : tags.Defines ty isUnion fields →
    (∀ f ∈ fields, HasLayout tags bits f.type (slot f.type)) →
    HasLayout tags bits ty (RecordLayout.record isUnion (fields.map (slot ·.type)))

-- The member at the position `i` of a record, or a member of this one if it has no name, with its offset.
inductive Member (tags : Tags) (bits : Nat) : Bool → List Field → Nat → String → CType → Int → Prop
  | direct {isUnion before after ty name} (slot : CType → Slot) : (∀ f ∈ before, f.name ≠ name) →
    (∀ f ∈ before ++ [.mk ty name], HasLayout tags bits f.type (slot f.type)) →
    Member tags bits isUnion (before ++ .mk ty name :: after) before.length name ty
      (offset isUnion (before.map (slot ·.type)) (slot ty))
  | anonymous {isUnion before after anon inner fields i name ty n} (slot : CType → Slot) :
    (∀ f ∈ before ++ [.mk anon ""], f.name ≠ name) →
    (∀ f ∈ before ++ [.mk anon ""], HasLayout tags bits f.type (slot f.type)) →
    tags.Defines anon inner fields → Member tags bits inner fields i name ty n →
    Member tags bits isUnion (before ++ .mk anon "" :: after) before.length name ty
      (offset isUnion (before.map (slot ·.type)) (slot anon) + n)

-- What has been recorded of the tags is true, and the tags `known` have been defined.
structure ValueState.Layouts (tags : Tags) (bits : Nat) (known : Set String) (st : ValueState) : Prop where
  target  : st.targetBits = bits
  structs : st.structs.Ordered ∧ ∀ {name definition}, symbolMapLookup name st.structs = some definition →
            tags.fields name = some definition
  known   : ∀ name ∈ known, (symbolMapLookup name st.structs).isSome
  sizes   : st.structSizes.Ordered ∧ ∀ {name size}, symbolMapLookup name st.structSizes = some size →
            (symbolMapLookup name st.structs).isSome ∧
              ∀ s, HasLayout tags bits (.struct name) s → size = s.size
  members : st.structMembers.Ordered ∧ ∀ {name members}, symbolMapLookup name st.structMembers = some members →
            members.Ordered ∧ ∀ {field info}, symbolMapLookup field members = some info →
              ∃ isUnion fields i, tags.fields name = some (isUnion, fields) ∧
                Member tags bits isUnion fields i field info.1 info.2

end Hcc
