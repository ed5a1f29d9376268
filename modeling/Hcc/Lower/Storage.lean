import Hcc.Lower.Scope
import Hcc.Lower.Declaration
import Hcc.Lower.Theorems.Cases
import Hcc.Parser.Program
import Hcc.ParseLite.Theorems.Reads

open Stateful

namespace Hcc

-- The storage classes that keep an object for the whole run of a program.
inductive StorageClass
  | externObject
  | staticObject

namespace StorageClass

def word : StorageClass → String
  | .externObject => "extern"
  | .staticObject => "static"

-- The word is one of the specifiers in front of the declarators.
def Specifies (storage : StorageClass) (g : Grammar) (env : ParserEnv) (toks : List Token) : Prop :=
  ∃ specifiers type env' rest span, toks = specifiers ++ rest ∧
    Yields g.ctype env toks type env' rest ∧ ⟨span, .ident storage.word⟩ ∈ specifiers

-- The object of the file scope with this name, or any object that is part of the data.
def Denotes : StorageClass → String → LValue → Prop
  | .externObject, name, .lAddress addr _ => addr = .global name
  | .staticObject, _,    .lAddress addr _ => ∃ label, addr = .global label
  | _,             _,    .lLocal ..       => False

-- The expressions that are lowered from the state on refer to an object with the storage class.
def Kept (storage : StorageClass) (st : ExprState) (name : String) : Prop :=
  ∃ lvalue st', Run (onValues (Lowering.lowerVarLValue name)) st ([], lvalue) st' ∧ storage.Denotes name lvalue

-- A declaration at block scope is a statement, or the head of a loop.
inductive Position
  | statement
  | head

-- The declarations with the storage class. Each declares some variables and is lowered by an action.
inductive Declares (storage : StorageClass) (g : Grammar) (n : Nat) (ex : ExprLowering) (env : ParserEnv)
    (toks : List Token) : Position → List String → ExprM (List Instr) → Prop
  | statement (stmt : Stmt) (action : ExprM (List Instr)) (env' : ParserEnv) (rest : List Token) :
    storage.Specifies g env toks →
    Yields (Parser.parseDeclStmt g n) env toks stmt env' rest →
    straightInstrs ex stmt = some action →
    storage.Declares g n ex env toks .statement (liveBinds stmt) action
  | head (decls : List Decl) (env' : ParserEnv) (rest : List Token) :
    storage.Specifies g env toks →
    Yields (Parser.forInit g n) env toks (.decls decls) env' rest →
    storage.Declares g n ex env toks .head (decls.map (·.name)) (lowerForInit ex (.decls decls))

-- A type on its own, or the prototype of a function.
def DeclaresNothing (g : Grammar) (n : Nat) (env : ParserEnv) (toks : List Token) : Position → Prop
  | .head      => False
  | .statement => ∃ type env₁ toks₁, Yields g.ctype env toks type env₁ toks₁ ∧
    ((∃ tok ∈ toks₁.head?, tok.kind = .punct ";") ∨
      ∃ env₂ rest, Yields (Parser.localPrototype g n type) env₁ toks₁ () env₂ rest)

end StorageClass

end Hcc
