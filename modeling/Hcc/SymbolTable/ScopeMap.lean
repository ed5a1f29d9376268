import Hcc.SymbolTable.Basic

namespace Hcc

variable {α : Type}

structure ScopeMap (α : Type) where
  current : SymbolMap α
  parents : List (SymbolMap α)

def scopeMapEmpty : ScopeMap α :=
  ⟨symbolMapEmpty, []⟩

def scopeMapEnter (m : ScopeMap α) : ScopeMap α :=
  ⟨symbolMapEmpty, m.current :: m.parents⟩

def scopeMapLeave (m : ScopeMap α) : ScopeMap α :=
  match m.parents with
  | []                => scopeMapEmpty
  | parent :: parents => ⟨parent, parents⟩

def scopeMapInsert (key : String) (value : α) (m : ScopeMap α) : ScopeMap α :=
  ⟨symbolMapInsert key value m.current, m.parents⟩

def scopeMapLookup.lookupScopes (key : String) : List (SymbolMap α) → Option α
  | []            => none
  | scope :: rest =>
    match symbolMapLookup key scope with
    | some value => some value
    | none       => lookupScopes key rest

def scopeMapLookup (key : String) (m : ScopeMap α) : Option α :=
  scopeMapLookup.lookupScopes key (m.current :: m.parents)

end Hcc
