import Hcc.Ast.Basic

-- The calls in a function body, with the names that are visible where they stand.
namespace Hcc

-- `hidden` marks calls inside an initializer list, in the bounds of an array or among the operands of `asm`.
structure Call where
  name   : String
  hidden : Bool
deriving DecidableEq, Repr

def hide (calls : List Call) : List Call :=
  calls.map fun call => { call with hidden := true }

mutual

def callsType : CType → List Call
  | .structNamed _ fields   => callsFields fields
  | .unionNamed _ fields    => callsFields fields
  | .structDef fields       => callsFields fields
  | .unionDef fields        => callsFields fields
  | .array inner none       => callsType inner
  | .array inner (some len) => callsType inner ++ hide (callsExpr len)
  | .func ret params        => callsType ret ++ callsTypes params
  | .ptr inner              => callsType inner
  | _                       => []

def callsTypes : List CType → List Call
  | []            => []
  | type :: types => callsType type ++ callsTypes types

def callsFields : List Field → List Call
  | []                    => []
  | .mk type _ :: fields => callsType type ++ callsFields fields

def callsExpr : Expr → List Call
  | .call (.var name) args    =>
    ⟨name, false⟩ :: if name = "asm" then hide (callsExprs args) else callsExprs args
  | .call callee args         => callsExpr callee ++ callsExprs args
  | .index base ix            => callsExpr base ++ callsExpr ix
  | .member base _            => callsExpr base
  | .ptrMember base _         => callsExpr base
  | .unary _ value            => callsExpr value
  | .sizeofType type          => callsType type
  | .sizeofExpr value         => callsExpr value
  | .cast type value          => callsType type ++ callsExpr value
  | .postIncDec _ value       => callsExpr value
  | .binary _ left right      => callsExpr left ++ callsExpr right
  | .cond cond yes no         => callsExpr cond ++ callsExpr yes ++ callsExpr no
  | .assign lhs rhs           => callsExpr lhs ++ callsExpr rhs
  | .compoundAssign _ lhs rhs => callsExpr lhs ++ callsExpr rhs
  | .initList exprs           => hide (callsExprs exprs)
  | _                         => []

def callsExprs : List Expr → List Call
  | []            => []
  | expr :: exprs => callsExpr expr ++ callsExprs exprs

end

def callsMaybe : Option Expr → List Call
  | none      => []
  | some expr => callsExpr expr

-- `own` are the names that are declared by the declaration or the clause that the call is part of.
structure CallSite extends Call where
  own   : List String
  outer : List String
deriving DecidableEq, Repr

def CallSite.Local (site : CallSite) : Prop :=
  site.name ∈ site.own ∨ site.name ∈ site.outer

def sites (own outer : List String) (calls : List Call) : List CallSite :=
  calls.map fun call => ⟨call, own, outer⟩

-- The scope of a name starts before its initializer.
def sitesDecl (scope : List String) (decl : Decl) : List CallSite :=
  sites [] scope (callsType decl.type) ++ sites [decl.name] scope (callsMaybe decl.init)

def sitesDecls (scope : List String) : List Decl → List CallSite
  | []            => []
  | decl :: decls => sitesDecl scope decl ++ sitesDecls (decl.name :: scope) decls

def scopeDecls (scope : List String) : List Decl → List String
  | []            => scope
  | decl :: decls => scopeDecls (decl.name :: scope) decls

def sitesForInit (scope : List String) : ForInit → List CallSite
  | .noInit      => []
  | .expr expr   => sites [] scope (callsExpr expr)
  | .decls decls => sitesDecls scope decls

def scopeForInit (scope : List String) : ForInit → List String
  | .decls decls => scopeDecls scope decls
  | _            => scope

def scopeStmt (scope : List String) : Stmt → List String
  | .sDecl decl   => decl.name :: scope
  | .sDecls decls => scopeDecls scope decls
  | _             => scope

mutual

def sitesStmt (scope : List String) : Stmt → List CallSite
  | .sDecl decl               => sitesDecl scope decl
  | .sDecls decls             => sitesDecls scope decls
  | .sReturn value            => sites [] scope (callsMaybe value)
  | .sExpr expr               => sites [] scope (callsExpr expr)
  | .sIf cond yes no          =>
    sites [] scope (callsExpr cond) ++ sitesStmts scope yes ++ sitesStmts scope no
  | .sWhile cond body         => sites [] scope (callsExpr cond) ++ sitesStmts scope body
  | .sDoWhile body cond       => sitesStmts scope body ++ sites [] scope (callsExpr cond)
  | .sFor init cond step body =>
    let names := scopeForInit [] init
    sitesForInit scope init ++ sites names scope (callsMaybe cond) ++ sites names scope (callsMaybe step) ++
      sitesStmts (scopeForInit scope init) body
  | .sSwitch value body       => sites [] scope (callsExpr value) ++ sitesStmts scope body
  | .sCase expr               => sites [] scope (callsExpr expr)
  | .sBlock body              => sitesStmts scope body
  | _                         => []

def sitesStmts (scope : List String) : List Stmt → List CallSite
  | []            => []
  | stmt :: stmts => sitesStmt scope stmt ++ sitesStmts (scopeStmt scope stmt) stmts

end

end Hcc
