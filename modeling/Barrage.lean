import Barrage.Scalar
import Barrage.Scalar.Single
import Barrage.Scalar.Exact
import Barrage.Plane
import Barrage.Text.Line
import Barrage.Text.Letter
import Barrage.Text.Padding
import Barrage.Decimal.Whole
import Barrage.Decimal.Reader
import Barrage.Decimal.Rounding
import Barrage.Decimal.Single
import Barrage.Random.Words
import Barrage.Random.Seeded
import Barrage.Number
import Barrage.Number.Reader
import Barrage.Scheduler
import Barrage.Pattern.Packed
import Barrage.Pattern.Mnemonic
import Barrage.Pattern.Volley
import Barrage.Pattern.Projectile
import Barrage.Channel
import Barrage.Reward
import Barrage.Script.Error
import Barrage.Trajectory.Token
import Barrage.Trajectory.Effect
import Barrage.Trajectory.Compile
import Barrage.Trajectory.Flight
import Barrage.Script.Instruction
import Barrage.Script.Reader
import Barrage.Level.Spawn
import Barrage.Level.Event
import Barrage.Level.Pool
import Barrage.Level.Basic
import Barrage.Level.History
import Barrage.Level.Bounty
import Barrage.Level.Rehearsal
import Barrage.Arena.Entity
import Barrage.Arena.Basic
import Barrage.Arena.Damage
import Barrage.Arena.Step
import Barrage.Game
import Barrage.Screen.Terminal
import Barrage.Screen.Sprite
import Barrage.Screen.Frame
import Barrage.Config.Json
import Barrage.Config.Basic
import Barrage.Report
import Barrage.Files
import Barrage.Commands
import Barrage.Main
import Barrage.Proofs.Chance
import Barrage.Proofs.Level.Outcome
import Barrage.Proofs.Level.Run
import Barrage.Proofs.Level.Path
import Barrage.Proofs.Level.Turn
import Barrage.Proofs.Level.Clearing
import Barrage.Proofs.Scalar.Laws
import Barrage.Proofs.Scalar.Rank
import Barrage.Proofs.Scalar.Rounding
import Barrage.Proofs.Firing
import Barrage.Proofs.Scheduler.Record
import Barrage.Proofs.Scheduler.Discipline
import Barrage.Proofs.Scheduler.Accuracy
import Barrage.Proofs.Scheduler.CatchUp
import Barrage.Proofs.Pattern.Packing
import Barrage.Proofs.Pattern.Shorthand
import Barrage.Proofs.Channel
import Barrage.Proofs.Level.Pool
import Barrage.Proofs.Level.Ledger
import Barrage.Proofs.Level.Dealing
import Barrage.Proofs.Level.Arrival
import Barrage.Proofs.Level.Progress
import Barrage.Proofs.Level.Timetable
import Barrage.Proofs.Level.Pace
import Barrage.Proofs.Level.Rounds
import Barrage.Proofs.Level.Members
import Barrage.Proofs.Level.Punctual
import Barrage.Proofs.Trajectory.Nesting
import Barrage.Proofs.Measured
import Barrage.Proofs.Trajectory.Shape
import Barrage.Proofs.Trajectory.Structure
import Barrage.Proofs.Trajectory.Replay
import Barrage.Proofs.Level.Loading
import Barrage.Proofs.Level.Telling
import Barrage.Proofs.Arena.Parts
import Barrage.Proofs.Arena.Roster
import Barrage.Proofs.Game.Run
import Barrage.Proofs.Game.Census
import Barrage.Proofs.Game.Patterns
import Barrage.Proofs.Level.Bounty
import Barrage.Proofs.Level.Terms
import Barrage.Proofs.Arena.Defeats
import Barrage.Proofs.Game.Rewards
import Barrage.Proofs.Game.Ending
import Barrage.Proofs.Trajectory.Scope
import Barrage.Proofs.Trajectory.Displacement
import Barrage.Proofs.Trajectory.Announcement
import Barrage.Proofs.Level.Timing
import Barrage.Proofs.Level.DueTime
import Barrage.Proofs.Level.Resumption
import Barrage.Proofs.Level.Recurrence
import Barrage.Proofs.Pattern.Homing
import Barrage.Proofs.Pattern.Cadence
import Barrage.Proofs.Pattern.Course
import Barrage.Proofs.Game.Bursts
import Barrage.Proofs.Text.Lines
import Barrage.Proofs.Level.Transcript
import Barrage.Proofs.Arena.Blows
import Barrage.Proofs.Arena.Salvo
import Barrage.Proofs.Arena.Aftermath
import Barrage.Proofs.Game.Score
import Barrage.Proofs.Arena.Orbits
import Barrage.Proofs.Game.Orphans
import Barrage.Proofs.Game.Strides
import Barrage.Proofs.Game.Overstaying
import Barrage.Proofs.Arena.Toll
import Barrage.Proofs.Game.Respite
import Barrage.Proofs.Pattern.Edits
import Barrage.Proofs.Scalar.Scaling
import Barrage.Proofs.Screen.Border
import Barrage.Proofs.Script.Fields
import Barrage.Proofs.Script.Diagnosis
import Barrage.Proofs.Level.Placement
import Barrage.Proofs.Number.Grammar
import Barrage.Proofs.Arena.Pursuit
