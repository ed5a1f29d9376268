namespace Hcc

mutual

inductive CType
  | void
  | int
  | short
  | char
  | unsigned
  | unsignedShort
  | unsignedChar
  | long
  | unsignedLong
  | longLong
  | unsignedLongLong
  | bool
  | float
  | double
  | longDouble
  | struct      (name : String)
  | union       (name : String)
  | structNamed (name : String) (fields : List Field)
  | unionNamed  (name : String) (fields : List Field)
  | structDef   (fields : List Field)
  | unionDef    (fields : List Field)
  | enum        (name : String)
  | named       (name : String)
  | array       (inner : CType) (count : Option Expr)
  | func        (ret : CType) (params : List CType)
  | ptr         (inner : CType)

inductive Field
  | mk (type : CType) (name : String)

-- The text of a literal is kept as a list of characters.
inductive Expr
  | int            (text : List Char)
  | float          (text : List Char)
  | char           (text : List Char)
  | string         (text : List Char)
  | var            (name : String)
  | call           (callee : Expr) (args : List Expr)
  | index          (base ix : Expr)
  | member         (base : Expr) (field : String)
  | ptrMember      (base : Expr) (field : String)
  | unary          (op : String) (value : Expr)
  | sizeofType     (type : CType)
  | sizeofExpr     (value : Expr)
  | cast           (type : CType) (value : Expr)
  | postIncDec     (op : String) (value : Expr)
  | binary         (op : String) (left right : Expr)
  | cond           (cond yes no : Expr)
  | assign         (lhs rhs : Expr)
  | compoundAssign (op : String) (lhs rhs : Expr)
  | initList       (exprs : List Expr)

end

structure Param where
  type : CType
  name : String

structure Decl where
  type : CType
  name : String
  init : Option Expr

inductive ForInit
  | noInit
  | expr  (expr : Expr)
  | decls (decls : List Decl)

inductive Stmt
  | sDecl     (decl : Decl)
  | sDecls    (decls : List Decl)
  | sTypedef
  | sReturn   (value : Option Expr)
  | sExpr     (expr : Expr)
  | sIf       (cond : Expr) (yes no : List Stmt)
  | sWhile    (cond : Expr) (body : List Stmt)
  | sDoWhile  (body : List Stmt) (cond : Expr)
  | sFor      (init : ForInit) (cond step : Option Expr) (body : List Stmt)
  | sSwitch   (value : Expr) (body : List Stmt)
  | sCase     (expr : Expr)
  | sDefault
  | sBreak
  | sContinue
  | sGoto     (name : String)
  | sLabel    (name : String)
  | sBlock    (body : List Stmt)

inductive TopDecl
  | function      (ret : CType) (name : String) (params : List Param) (body : List Stmt)
  | prototype     (ret : CType) (name : String) (params : List Param)
  | global        (decl : Decl)
  | globals       (decls : List Decl)
  | externGlobals (decls : List (CType × String))
  | structDecl    (isUnion : Bool) (tag : String) (fields : List Field)
  | enumConstants (constants : List (String × Int))
  | typeDecl      (types : List CType)

def renderExprTag : Expr → String
  | .int ..            => "EInt"
  | .float ..          => "EFloat"
  | .char ..           => "EChar"
  | .string ..         => "EString"
  | .var ..            => "EVar"
  | .call ..           => "ECall"
  | .index ..          => "EIndex"
  | .member ..         => "EMember"
  | .ptrMember ..      => "EPtrMember"
  | .unary ..          => "EUnary"
  | .sizeofType ..     => "ESizeofType"
  | .sizeofExpr ..     => "ESizeofExpr"
  | .cast ..           => "ECast"
  | .postIncDec ..     => "EPostfix"
  | .binary ..         => "EBinary"
  | .cond ..           => "ECond"
  | .assign ..         => "EAssign"
  | .compoundAssign .. => "ECompoundAssign"
  | .initList ..       => "EInitList"

def renderStmtTag : Stmt → String
  | .sDecl ..    => "SDecl"
  | .sDecls ..   => "SDecls"
  | .sTypedef    => "STypedef"
  | .sReturn ..  => "SReturn"
  | .sExpr ..    => "SExpr"
  | .sIf ..      => "SIf"
  | .sWhile ..   => "SWhile"
  | .sDoWhile .. => "SDoWhile"
  | .sFor ..     => "SFor"
  | .sSwitch ..  => "SSwitch"
  | .sCase ..    => "SCase"
  | .sDefault    => "SDefault"
  | .sBreak      => "SBreak"
  | .sContinue   => "SContinue"
  | .sGoto ..    => "SGoto"
  | .sLabel ..   => "SLabel"
  | .sBlock ..   => "SBlock"

end Hcc
