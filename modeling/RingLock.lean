import RingLock.Arena.Basic
import RingLock.Arena.Label
import RingLock.Arena.Numbering
import RingLock.Arena.Region
import RingLock.Arena.Snapshot
import RingLock.Coloring.Basic
import RingLock.Coloring.Listed
import RingLock.Coloring.Packed
import RingLock.Capacity
import RingLock.Config
import RingLock.Decimal.Basic
import RingLock.Decimal.Layout
import RingLock.Decimal.Shortest
import RingLock.Encoding.Binary
import RingLock.Encoding.Json
import RingLock.Encoding.JsonForm
import RingLock.Encoding.JsonText
import RingLock.Encoding.Values
import RingLock.Fault
import RingLock.Hand
import RingLock.Main
import RingLock.Position
import RingLock.Puzzle.Basic
import RingLock.Puzzle.ManyColor
import RingLock.Puzzle.TwoColor
import RingLock.Random.Generator
import RingLock.Random.KeyStream
import RingLock.Report
import RingLock.Ring
import RingLock.Safety.Fixpoint
import RingLock.Safety.Stats
import RingLock.Session
import RingLock.Text.Inspect
import RingLock.Text.Utf8
import RingLock.Proofs.Arena.Table
import RingLock.Proofs.Arena.WellFormed
import RingLock.Proofs.Arena.RegionIds
import RingLock.Proofs.Safety.Descent
import RingLock.Proofs.Safety.Greatest
import RingLock.Proofs.Safety.Strategy
import RingLock.Proofs.Safety.Locations
import RingLock.Proofs.Coloring.Lawful
import RingLock.Proofs.Puzzle.Game
import RingLock.Proofs.Coloring.Listed
import RingLock.Proofs.Coloring.Packed
import RingLock.Proofs.Coloring.Views
import RingLock.Proofs.Puzzle.Rings
import RingLock.Proofs.Puzzle.Expansion
import RingLock.Proofs.Puzzle.Winning
import RingLock.Proofs.Puzzle.Models
import RingLock.Proofs.Puzzle.Verdict
import RingLock.Proofs.Puzzle.Agreement
import RingLock.Proofs.Puzzle.Bounds
import RingLock.Proofs.Arena.Moves
import RingLock.Proofs.Puzzle.Relation
import RingLock.Proofs.Text.Utf8
import RingLock.Proofs.Arena.Snapshot
import RingLock.Proofs.Arena.Restored
import RingLock.Proofs.Encoding.RoundTrip
import RingLock.Proofs.Encoding.JsonText
import RingLock.Proofs.Encoding.JsonForm
import RingLock.Proofs.Arena.RoundTrip
import RingLock.Proofs.Puzzle.Construction
import RingLock.Proofs.Ring
import RingLock.Proofs.Ring.Steps
import RingLock.Proofs.Session.Invariants
import RingLock.Proofs.Session.Runs
import RingLock.Proofs.Session.Turns
import RingLock.Proofs.Session.Play
import RingLock.Proofs.Session.Ending
import RingLock.Proofs.Arena.Description
import RingLock.Proofs.Safety.Relisting
import RingLock.Proofs.Puzzle.Monotone
import RingLock.Proofs.Puzzle.Symmetry
import RingLock.Proofs.Puzzle.Counting
import RingLock.Proofs.Puzzle.MoveCount
import RingLock.Proofs.Ring.Stored
import RingLock.Proofs.Encoding.Exact
import RingLock.Proofs.Encoding.Records
import RingLock.Proofs.Arena.RegionEdits
import RingLock.Proofs.Random.Fork
import RingLock.Proofs.Session.Adversary
import RingLock.Proofs.Coloring.Digits
import RingLock.Proofs.Puzzle.Numbering
import RingLock.Proofs.Arena.RegionAlgebra
import RingLock.Proofs.Safety.Statistics
import RingLock.Proofs.Puzzle.Uniform
import RingLock.Proofs.Random.Saving
import RingLock.Proofs.Enumeration
import RingLock.Proofs.Coloring.Recoloring
import RingLock.Proofs.Coloring.Wheel
import RingLock.Proofs.Coloring.Turning
import RingLock.Proofs.Config
import RingLock.Proofs.Decimal
import RingLock.Proofs.Coloring.Enumeration
import RingLock.Proofs.Random.Interleaving
