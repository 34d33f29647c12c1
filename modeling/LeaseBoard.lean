import LeaseBoard.Arrival
import LeaseBoard.Board.Basic
import LeaseBoard.Board.Trace
import LeaseBoard.Display
import LeaseBoard.Feed.Frame
import LeaseBoard.Feed.Line
import LeaseBoard.Feed.Machine
import LeaseBoard.Feed.Signal
import LeaseBoard.Feed.Utf8
import LeaseBoard.Feed.Written
import LeaseBoard.Heartbeat
import LeaseBoard.Instruction
import LeaseBoard.Json.Record
import LeaseBoard.Json.Text
import LeaseBoard.Json.Token
import LeaseBoard.Json.Value
import LeaseBoard.Keyed
import LeaseBoard.Lease.Basic
import LeaseBoard.Lease.Roster
import LeaseBoard.Monitor
import LeaseBoard.Policy.Basic
import LeaseBoard.Policy.Book
import LeaseBoard.Proofs.Ageing
import LeaseBoard.Proofs.Ageless
import LeaseBoard.Proofs.Appearance
import LeaseBoard.Proofs.Banner
import LeaseBoard.Proofs.Change
import LeaseBoard.Proofs.Commutation
import LeaseBoard.Proofs.Convergence
import LeaseBoard.Proofs.Countdown
import LeaseBoard.Proofs.Cutting
import LeaseBoard.Proofs.Difference
import LeaseBoard.Proofs.DisplayHistory
import LeaseBoard.Proofs.Encoding
import LeaseBoard.Proofs.Identity
import LeaseBoard.Proofs.Idle
import LeaseBoard.Proofs.InPlace
import LeaseBoard.Proofs.Isolation
import LeaseBoard.Proofs.Lifecycle
import LeaseBoard.Proofs.Origin
import LeaseBoard.Proofs.Payload
import LeaseBoard.Proofs.PolicyHistory
import LeaseBoard.Proofs.Projection
import LeaseBoard.Proofs.Rebuild
import LeaseBoard.Proofs.Reconciliation
import LeaseBoard.Proofs.Released
import LeaseBoard.Proofs.Repetition
import LeaseBoard.Proofs.Replay
import LeaseBoard.Proofs.Respelling
import LeaseBoard.Proofs.Results
import LeaseBoard.Proofs.Revision
import LeaseBoard.Proofs.Rewriting
import LeaseBoard.Proofs.Schedule
import LeaseBoard.Proofs.SessionTrace
import LeaseBoard.Proofs.Shown
import LeaseBoard.Proofs.Spacing
import LeaseBoard.Proofs.Step
import LeaseBoard.Proofs.Survival
import LeaseBoard.Proofs.Tickers
import LeaseBoard.Proofs.Unnamed
import LeaseBoard.Proofs.Unset
import LeaseBoard.Proofs.Verdict
import LeaseBoard.Proofs.WellFormed
import LeaseBoard.Proofs.Writing
import LeaseBoard.Ranking
import LeaseBoard.Rejection
import LeaseBoard.Revisions
import LeaseBoard.Session
import LeaseBoard.Text.Blank
import LeaseBoard.Text.Numeral
import LeaseBoard.Time.Calendar
import LeaseBoard.Time.Instant
import LeaseBoard.Time.Label
import LeaseBoard.Time.Stamp
import LeaseBoard.Wire.Decode
import LeaseBoard.Wire.Encode
import LeaseBoard.Wire.Entry
