import Hcc.Lower.Statement

namespace Hcc

-- How a position in a list of statements is treated: `body` and `dropped` are the positions before
-- the first label of a switch, `skipped` are the positions after a jump.
inductive Mode
  | body
  | dropped
  | skipped
  | live

inductive Mark
  | label (name : String)
  | goto  (name : String)
deriving DecidableEq

def Mode.next (inSwitch : Bool) : Mode → Stmt → Mode
  | mode,     .sCase _    => if inSwitch then .live else mode
  | mode,     .sDefault   => if inSwitch then .live else mode
  | .body,    _           => .dropped
  | .dropped, _           => .dropped
  | _,        .sLabel _   => .live
  | .skipped, _           => .skipped
  | .live,    .sReturn _  => .skipped
  | .live,    .sGoto _    => .skipped
  | .live,    .sBreak     => .skipped
  | .live,    .sContinue  => .skipped
  | .live,    _           => .live

def labelMarks : Stmt → List Mark
  | .sLabel name => [.label name]
  | _            => []

-- The labels and gotos in the positions that are lowered.
mutual

def liveMarks : Stmt → List Mark
  | .sLabel name    => [.label name]
  | .sGoto name     => [.goto name]
  | .sBlock body    => marks false .live body
  | .sIf _ yes no   => marks false .live yes ++ marks false .live no
  | .sWhile _ body  => marks false .live body
  | .sDoWhile body _ => marks false .live body
  | .sFor _ _ _ body => marks false .live body
  | .sSwitch _ body => marks true .body body
  | _               => []

def bodyMarks : Stmt → List Mark
  | .sBlock body => marks true .dropped body
  | _            => []

def marks (inSwitch : Bool) (mode : Mode) : List Stmt → List Mark
  | []           => []
  | stmt :: rest =>
    (match mode with
    | .live    => liveMarks stmt
    | .skipped => labelMarks stmt
    | .dropped => []
    | .body    => if rest.isEmpty then bodyMarks stmt else []) ++
      marks inSwitch (mode.next inSwitch stmt) rest

end

def markedLabels (ms : List Mark) : List String :=
  ms.filterMap fun | .label name => some name | .goto _ => none

def markedGotos (ms : List Mark) : List String :=
  ms.filterMap fun | .goto name => some name | .label _ => none

-- The labels and gotos in all positions.
mutual

def stmtMarks : Stmt → List Mark
  | .sLabel name     => [.label name]
  | .sGoto name      => [.goto name]
  | .sBlock body     => allMarks body
  | .sIf _ yes no    => allMarks yes ++ allMarks no
  | .sWhile _ body   => allMarks body
  | .sDoWhile body _ => allMarks body
  | .sFor _ _ _ body => allMarks body
  | .sSwitch _ body  => allMarks body
  | _                => []

def allMarks : List Stmt → List Mark
  | []           => []
  | stmt :: rest => stmtMarks stmt ++ allMarks rest

end

-- Each goto refers to a label that occurs once.
def UniqueLabels (body : List Stmt) : Prop :=
  ∀ name ∈ markedGotos (allMarks body), (markedLabels (allMarks body)).count name = 1

instance : Decidable (UniqueLabels body) :=
  inferInstanceAs <| Decidable (∀ name ∈ _, _)

-- Labels that are lowered are distinct, and gotos that are lowered refer to such labels.
def GotosResolve (body : List Stmt) : Prop :=
  (markedLabels (marks false .live body)).Nodup ∧
    ∀ name ∈ markedGotos (marks false .live body), name ∈ markedLabels (marks false .live body)

def terminatorTargets : Terminator → List BlockId
  | .ret _                => []
  | .jump target          => [target]
  | .branch _ yes no      => [yes, no]
  | .branchCmp _ _ _ yes no => [yes, no]

def blockTargets (blocks : List BasicBlock) : List BlockId :=
  blocks.flatMap (terminatorTargets ·.term)

-- Every target is the id of exactly one block, all ids are distinct, and the first block is not a target.
structure Closed (fn : FunctionIr) : Prop where
  distinct : (fn.blocks.map (·.id)).Nodup
  targets  : ∀ target ∈ blockTargets fn.blocks, (fn.blocks.map (·.id)).count target = 1
  entry    : ∃ block blocks, fn.blocks = block :: blocks ∧ block.id ∉ blockTargets fn.blocks

end Hcc
