import Leviathan.Foundations.Allotment
import Leviathan.Foundations.Decimal
import Leviathan.Foundations.Spelling
import Leviathan.Foundations.Machine
import Leviathan.Foundations.OrderedMap
import Leviathan.Foundations.Ranking
import Leviathan.Foundations.Transitions
import Leviathan.Foundations.WithNaN
import Leviathan.Book.Order
import Leviathan.Book.OrderBook
import Leviathan.Book.Sides
import Leviathan.Book.Matching
import Leviathan.Book.Operations
import Leviathan.Book.Calls
import Leviathan.Book.Depth
import Leviathan.Book.Iterations
import Leviathan.Book.NotANumber
import Leviathan.Book.Priority
import Leviathan.Book.FillOrKill
import Leviathan.Book.Preview
import Leviathan.Book.BestExecution
import Leviathan.Book.Splitting
import Leviathan.Book.Index
import Leviathan.Book.UnitFills
import Leviathan.Book.Amortized
import Leviathan.Book.Placement
import Leviathan.Book.TimeOrder
import Leviathan.Book.ReusedIds
import Leviathan.Book.Soundness
import Leviathan.Book.Relabel
import Leviathan.Book.Mirror
import Leviathan.Book.Rounded
import Leviathan.Book.NonCrossing
import Leviathan.Book.Prices
import Leviathan.Book.Uncrossed
import Leviathan.Book.Ledger
import Leviathan.Book.Timestamps
import Leviathan.Book.Withdrawn
import Leviathan.Book.Modify
import Leviathan.Book.Overtaking
import Leviathan.Book.Exchange
import Leviathan.Book.Slices
import Leviathan.Book.Snapshot
import Leviathan.Book.StateSpace
import Leviathan.Engine.Engine
import Leviathan.Engine.WakeUps
import Leviathan.Engine.Linearizable
import Leviathan.Engine.Shutdown
import Leviathan.Engine.Threads
import Leviathan.Engine.Progress
import Leviathan.Engine.Service
import Leviathan.Engine.Arrival
import Leviathan.Engine.Confluence
import Leviathan.Log.Recording
import Leviathan.Log.Replay
import Leviathan.Log.Entries
import Leviathan.Log.RoundTrip
import Leviathan.Log.Recovery
import Leviathan.Log.TornLine
import Leviathan.Log.Compaction
import Leviathan.Log.Crash
import Leviathan.Log.Rounding
import Leviathan.Log.Grammar
import Leviathan.Log.Verdict
import Leviathan.Log.History
import Leviathan.Log.ReplayTool
