import Hcc.Lower.Marks
import Hcc.Lower.Theorems.Cases

namespace Hcc

variable {stmt : Stmt} {stmts rest : List Stmt} {mode : Mode}

-- The statements before the first label of a switch, and the clauses of the labels.
def splitClauses : List Stmt → List Stmt × List SwitchClause
  | []                  => ([], [])
  | .sCase expr :: rest => ([], ⟨some expr, (splitClauses rest).1⟩ :: (splitClauses rest).2)
  | .sDefault :: rest   => ([], ⟨none, (splitClauses rest).1⟩ :: (splitClauses rest).2)
  | stmt :: rest        => (stmt :: (splitClauses rest).1, (splitClauses rest).2)

theorem collectSwitchClausesFinish_eq {label : Option (Option Expr)} :
    collectSwitchClausesFinish label body clauses stmts =
      (splitClauses stmts).2.reverse ++
        collectSwitchClauseFinishOne label ((splitClauses stmts).1.reverse ++ body) clauses := by
  fun_induction splitClauses generalizing label body clauses
  case case1 => rfl
  case case2 hi =>
    rw [collectSwitchClausesFinish, hi]
    simp [collectSwitchClauseFinishOne]
  case case3 hi =>
    rw [collectSwitchClausesFinish, hi]
    simp [collectSwitchClauseFinishOne]
  case case4 hc hd hi =>
    cases label
    case none => rw [collectSwitchClausesFinish, hi] <;> simp_all [collectSwitchClauseFinishOne]
    case some => rw [collectSwitchClausesFinish, hi] <;> simp_all [collectSwitchClauseFinishOne]

theorem collectSwitchClauses_eq : collectSwitchClauses stmts = (splitClauses stmts).2 := by
  simp [collectSwitchClauses, collectSwitchClausesFinish_eq, collectSwitchClauseFinishOne]

theorem marks_live_cons :
    marks sw .live (stmt :: rest) = liveMarks stmt ++ marks sw (Mode.live.next sw stmt) rest := by
  rw [marks]

theorem marks_skipped_cons :
    marks sw .skipped (stmt :: rest) = labelMarks stmt ++ marks sw (Mode.skipped.next sw stmt) rest := by
  rw [marks]

theorem marks_skipped_cons_of_ne (h : ∀ name, stmt ≠ .sLabel name) :
    marks false .skipped (stmt :: rest) = marks false .skipped rest := by
  cases stmt
  case sLabel => exact absurd rfl <| h _
  all_goals simp [marks_skipped_cons, labelMarks, Mode.next]

theorem marks_dropped : marks false .dropped stmts = [] := by
  induction stmts
  case nil          => rfl
  case cons stmt _ hi => cases stmt <;> simp [marks, Mode.next, hi]

theorem Mode.next_eq (hc : ∀ expr, stmt ≠ .sCase expr) (hd : stmt ≠ .sDefault) :
    mode.next true stmt = mode.next false stmt := by
  cases stmt
  case sCase    => exact absurd rfl <| hc _
  case sDefault => exact absurd rfl hd
  all_goals cases mode <;> rfl

theorem Mode.next_ne_body (sw : Bool) (stmt : Stmt) (h : mode ≠ .body) : mode.next sw stmt ≠ .body := by
  cases mode <;> cases stmt <;> cases sw <;> simp_all [Mode.next]

theorem marks_straight (h : straightInstrs ex stmt = some action) :
    marks false .live (stmt :: rest) = marks false .live rest := by
  cases stmt <;> simp_all [marks_live_cons, liveMarks, Mode.next, straightInstrs]

def clauseMarks (clauses : List SwitchClause) : List Mark :=
  clauses.flatMap (marks false .live ·.body)

-- The marks of the body of a switch are the marks of its clauses.
theorem marks_switch (h : mode ≠ .body) :
    marks true mode stmts = marks false mode (splitClauses stmts).1 ++ clauseMarks (splitClauses stmts).2 := by
  fun_induction splitClauses generalizing mode
  case case1 => simp [marks, clauseMarks]
  case case2 hi =>
    have hi := @hi .live nofun
    cases mode
    case body => contradiction
    all_goals simp [marks, Mode.next, labelMarks, liveMarks, clauseMarks, hi]
  case case3 hi =>
    have hi := @hi .live nofun
    cases mode
    case body => contradiction
    all_goals simp [marks, Mode.next, labelMarks, liveMarks, clauseMarks, hi]
  case case4 stmt _ hc hd hi =>
    have hi := hi <| Mode.next_ne_body true stmt h
    rw [Mode.next_eq hc hd] at hi
    cases mode
    case body => contradiction
    all_goals simp [marks, Mode.next_eq hc hd, hi]

theorem Mode.next_body : Mode.body.next true stmt = Mode.dropped.next true stmt := by
  cases stmt <;> rfl

theorem marks_body : marks true .body stmts = marks true .dropped (switchBodyStatements stmts) := by
  unfold switchBodyStatements
  split
  case h_1 => simp [marks, bodyMarks]
  case h_2 hb =>
    rcases stmts with _ | ⟨stmt, _ | ⟨_, _⟩⟩
    · rfl
    · cases stmt <;> simp_all [marks, bodyMarks]
    · simp [marks, Mode.next_body]

end Hcc
