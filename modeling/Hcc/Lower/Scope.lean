import Hcc.Lower.Marks
import Hcc.SymbolTable.Theorems.Lookup

namespace Hcc

-- The names that are bound by the positions that are lowered, outside of the scopes of blocks and
-- of declarations in the head of a loop.
mutual

def liveBinds : Stmt → List String
  | .sDecl decl            => [decl.name]
  | .sDecls decls          => decls.map (·.name)
  | .sIf _ yes no          => binds false .live yes ++ binds false .live no
  | .sWhile _ body         => binds false .live body
  | .sDoWhile body _       => binds false .live body
  | .sFor (.decls _) _ _ _ => []
  | .sFor _ _ _ body       => binds false .live body
  | .sSwitch _ body        => binds true .body body
  | _                      => []

def bodyBinds : Stmt → List String
  | .sBlock body => binds true .dropped body
  | _            => []

def binds (inSwitch : Bool) (mode : Mode) : List Stmt → List String
  | []           => []
  | stmt :: rest =>
    (match mode with
    | .live    => liveBinds stmt
    | .skipped => []
    | .dropped => []
    | .body    => if rest.isEmpty then bodyBinds stmt else []) ++
      binds inSwitch (mode.next inSwitch stmt) rest

end

-- The statements with a body.
def Stmt.isCompound : Stmt → Bool
  | .sBlock _   => true
  | .sIf ..     => true
  | .sWhile ..  => true
  | .sDoWhile .. => true
  | .sFor ..    => true
  | .sSwitch .. => true
  | _           => false

-- Each name has the same temporary and type, and jumps have the same targets.
structure SameScope (st st' : CompileState) : Prop where
  vars            : ∀ name, scopeMapLookup name st'.vars = scopeMapLookup name st.vars
  breakTargets    : st'.breakTargets = st.breakTargets
  continueTargets : st'.continueTargets = st.continueTargets

-- The temporaries of variables have been allocated.
structure ExprState.Fresh (st : ExprState) : Prop where
  ordered : ∀ scope ∈ st.vars.current :: st.vars.parents, scope.Ordered
  bound   : ∀ scope ∈ st.vars.current :: st.vars.parents, scope.All (·.1.index < st.nextTemp)

end Hcc
