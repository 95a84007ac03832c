import RingLock.Puzzle.ManyColor
import RingLock.Puzzle.TwoColor

/-!
# Reports

Two fixed runs, as the lines they print and the status they end with. The verdict decides the
two-color lock of four holes with a hand of two. The survey solves the three-color lock of three
holes with a hand of two.
-/
namespace RingLock

structure Report where
  lines : List String
  status : UInt32
  deriving DecidableEq

namespace Report

/-- The printed text. -/
def text (r : Report) : String := String.join (r.lines.map (· ++ "\n"))

/-- The lock of the verdict. -/
def verdictConfig : Config := .twoColor 4 2

/-- The lock of the survey. -/
def surveyConfig : Config := .manyColor 3 2 3

/-- The closing lines of the verdict. -/
def verdictLines (playerWins : Bool) : List String :=
  [toString playerWins,
    if playerWins then
      "Winning space for the adversary is empty. A winning strategy may exist for the player."
    else "Winning space for the adversary is non-empty. The player cannot surely win."]

/-- Decides a two-color lock. A lock that is refused ends the report with status 1. -/
def verdict? (c : Config) : Option Report :=
  let opening := ["Starting..."]
  match (Puzzle.twoColor c).run with
  | none => none
  | some (.error _) => some ⟨opening, 1⟩
  | some (.ok puzzle) => puzzle.playerWins?.map fun wins =>
    ⟨opening ++ ["Game graph initialized. Proceeding to calculate existence of winning strategy..."]
      ++ verdictLines wins, 0⟩

/-- Solves a many-color lock. A lock that is refused ends the report with status 1. -/
def survey? (c : Config) : Option Report :=
  match (Puzzle.manyColor c).run with
  | none => none
  | some (.error _) => some ⟨[], 1⟩
  | some (.ok puzzle) => puzzle.solve?.map fun _ => ⟨["Done."], 0⟩

end Report

end RingLock
