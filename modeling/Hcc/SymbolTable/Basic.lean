namespace Hcc

inductive Color
  | R
  | B
deriving DecidableEq, Repr

-- A deleted entry stays in the tree, without a value.
inductive Tree (α : Type)
  | E
  | N (color : Color) (key : String) (hash : Int) (value : Option α) (left right : Tree α)

inductive Cmp
  | lt
  | eq
  | gt
deriving DecidableEq, Repr

def cmpString.go : List Char → List Char → Cmp
  | [],      []      => .eq
  | [],      _       => .lt
  | _,       []      => .gt
  | a :: as, b :: bs => if a < b then .lt else if a > b then .gt else go as bs

def cmpString (l r : String) : Cmp :=
  cmpString.go l.toList r.toList

def cmpHash (l : String) (lh : Int) (r : String) (rh : Int) : Cmp :=
  if lh < rh then .lt else if lh > rh then .gt else cmpString l r

def hash (s : String) : Int :=
  s.toList.foldl (fun h c => (h * 33 + c.toNat) % 2147483647) 5381

variable {α : Type}

def lookupH (k : String) (kh : Int) : Tree α → Option α
  | .E              => none
  | .N _ x xh v l r =>
    match cmpHash k kh x xh with
    | .lt => lookupH k kh l
    | .eq => v
    | .gt => lookupH k kh r

def lookupT (k : String) : Tree α → Option α :=
  lookupH k (hash k)

def blacken : Tree α → Tree α
  | .E              => .E
  | .N _ x xh v l r => .N .B x xh v l r

def balR (x : String) (xh : Int) (v : Option α) (l r : Tree α) : Tree α :=
  match r with
  | .N .R rx rxh rv rl rr =>
    match rl, rr with
    | .N .R rlx rlxh rlv rll rlr, _ =>
      .N .R rlx rlxh rlv (.N .B x xh v l rll) (.N .B rx rxh rv rlr rr)
    | _, .N .R rrx rrxh rrv rrl rrr =>
      .N .R rx rxh rv (.N .B x xh v l rl) (.N .B rrx rrxh rrv rrl rrr)
    | _, _ => .N .B x xh v l r
  | _ => .N .B x xh v l r

def balL (x : String) (xh : Int) (v : Option α) (l r : Tree α) : Tree α :=
  match l with
  | .N .R lx lxh lv ll lr =>
    match ll, lr with
    | .N .R llx llxh llv lll llr, _ =>
      .N .R lx lxh lv (.N .B llx llxh llv lll llr) (.N .B x xh v lr r)
    | _, .N .R lrx lrxh lrv lrl lrr =>
      .N .R lrx lrxh lrv (.N .B lx lxh lv ll lrl) (.N .B x xh v lrr r)
    | _, _ => balR x xh v l r
  | _ => balR x xh v l r

def bal (c : Color) (x : String) (xh : Int) (v : Option α) (l r : Tree α) : Tree α :=
  match c with
  | .R => .N .R x xh v l r
  | .B => balL x xh v l r

def alterT.go (k : String) (v : Option α) (kh : Int) : Tree α → Tree α
  | .E                => .N .R k kh v .E .E
  | .N c x xh old l r =>
    match cmpHash k kh x xh with
    | .lt => bal c x xh old (go k v kh l) r
    | .eq => .N c k kh v l r
    | .gt => bal c x xh old l (go k v kh r)

def alterT (k : String) (v : Option α) (t : Tree α) : Tree α :=
  blacken (alterT.go k v (hash k) t)

def insertT (k : String) (v : α) : Tree α → Tree α :=
  alterT k (some v)

def deleteT (k : String) : Tree α → Tree α :=
  alterT k none

structure SymbolMap (α : Type) where
  tree : Tree α

def symbolMapEmpty : SymbolMap α :=
  ⟨.E⟩

def symbolMapLookup (k : String) (m : SymbolMap α) : Option α :=
  lookupT k m.tree

def symbolMapInsert (k : String) (v : α) (m : SymbolMap α) : SymbolMap α :=
  ⟨insertT k v m.tree⟩

def symbolMapDelete (k : String) (m : SymbolMap α) : SymbolMap α :=
  ⟨deleteT k m.tree⟩

def symbolMapMember (k : String) (m : SymbolMap α) : Bool :=
  (symbolMapLookup k m).isSome

end Hcc
