import LearningCpp.Lib.Run
import LearningCpp.Lib.SortedMap
import LearningCpp.Lib.UnorderedMap
import LearningCpp.Orderbook.Model
import LearningCpp.Orderbook.Sweep
import LearningCpp.Orderbook.WellFormed
import LearningCpp.Orderbook.Reachable
import LearningCpp.Orderbook.Lazy
import LearningCpp.Orderbook.Priority
import LearningCpp.Orderbook.Ledger
import LearningCpp.Orderbook.Metadata
import LearningCpp.Orderbook.TwoBooks
import LearningCpp.Orderbook.Commute
import LearningCpp.Orderbook.Sizes
import LearningCpp.Lib.Fold
import LearningCpp.SegmentTree.Model
import LearningCpp.SegmentTree.Readings
import LearningCpp.SegmentTree.Canonical
import LearningCpp.SegmentTree.Build
import LearningCpp.Lib.Rotation
import LearningCpp.KacRing.Model
import LearningCpp.KacRing.Simulation
import LearningCpp.KacRing.Kstep
import LearningCpp.KacRing.HalfPeriod
import LearningCpp.Lib.Token
import LearningCpp.SharedPtr.Model
import LearningCpp.SharedPtr.Invariant
import LearningCpp.SharedPtr.Steps
import LearningCpp.SharedPtr.Resume
import LearningCpp.SharedPtr.Exact
import LearningCpp.SharedPtr.Runs
import LearningCpp.SharedPtr.Ledger
import LearningCpp.SharedPtr.SingleThread
import LearningCpp.Lib.Program
import LearningCpp.CustomVector.Model
import LearningCpp.CustomVector.Memory
import LearningCpp.CustomVector.Buffer
import LearningCpp.CustomVector.Methods
import LearningCpp.CustomVector.Exceptions
import LearningCpp.CustomVector.Lists
import LearningCpp.CustomVector.Books
import LearningCpp.CustomVector.Refinement
import LearningCpp.CustomVector.Steps
import LearningCpp.CustomVector.Runs
import LearningCpp.CustomVector.Lifetimes
import LearningCpp.CustomVector.Storage
import LearningCpp.CustomVector.Assignment
import LearningCpp.Lib.UndoStack
import LearningCpp.Command.Model
import LearningCpp.Command.History
import LearningCpp.Command.Overdraft
import LearningCpp.Lib.Table
import LearningCpp.PollServer.Model
import LearningCpp.PollServer.Table
import LearningCpp.PollServer.Ready
import LearningCpp.Lib.Acyclic
import LearningCpp.UniquePtr.Model
import LearningCpp.UniquePtr.Forest
import LearningCpp.UniquePtr.Deletion
import LearningCpp.UniquePtr.Ownership
import LearningCpp.PollServer.Bounds
import LearningCpp.PollServer.Exact
import LearningCpp.LimitOrderBook.Model
import LearningCpp.LimitOrderBook.Runs
import LearningCpp.LimitOrderBook.Volumes
import LearningCpp.LimitOrderBook.Limits
import LearningCpp.LimitOrderBook.Cancel
import LearningCpp.TicTacToe.Model
import LearningCpp.TicTacToe.Board
import LearningCpp.Lib.PriorityQueue
import LearningCpp.Lib.Unordered
import LearningCpp.BusiestServers.Model
import LearningCpp.BusiestServers.Circular
import LearningCpp.Anagrams.Model
import LearningCpp.Anagrams.Groups
import LearningCpp.Flyweight.Factory
import LearningCpp.Lib.Plan
import LearningCpp.MaxEvents.Model
import LearningCpp.MaxEvents.Optimal
import LearningCpp.Lib.PairRemoval
import LearningCpp.MaximumGain.Optimal
import LearningCpp.Lib.Calendar
import LearningCpp.MaxFreeTime.Model
import LearningCpp.MaxFreeTime.Optimal
import LearningCpp.Lib.Rooms
import LearningCpp.MeetingRooms.Optimal
import LearningCpp.Lib.Matching
import LearningCpp.Players.Optimal
import LearningCpp.FancyString.Longest
import LearningCpp.Lib.Window
import LearningCpp.SlidingWindow.Exact
import LearningCpp.Lib.Loop
import LearningCpp.Lib.Memo
import LearningCpp.Palindromes.Substrings
import LearningCpp.Lib.Checked
import LearningCpp.Lib.OrderedPairs
import LearningCpp.Palindromes.Quintuples
import LearningCpp.Lib.TreePath
import LearningCpp.MaxPathSum.Exact
import LearningCpp.Lib.LinkedList
import LearningCpp.MergeLists.Model
import LearningCpp.MergeLists.Merged
import LearningCpp.CustomVector.Frames
import LearningCpp.CustomVector.Strong
import LearningCpp.Lib.Triple
import LearningCpp.CustomVector.Readings
import LearningCpp.SharedGraph.Heap
import LearningCpp.SharedGraph.Release
import LearningCpp.Lib.Frame
import LearningCpp.Lib.Guarded
import LearningCpp.SharedGraph.Runs
import LearningCpp.SharedGraph.MoveAssign
import LearningCpp.Mediator.Login
import LearningCpp.SendRecv.Echo
import LearningCpp.IntRange.Iteration
import LearningCpp.SelectServer.Model
import LearningCpp.SelectServer.Master
import LearningCpp.SelectServer.Bounds
import LearningCpp.SelectServer.Echo
import LearningCpp.EchoNetwork.Model
import LearningCpp.EchoNetwork.Delivery
import LearningCpp.DBConnections.Factory
import LearningCpp.Lib.Demand
import LearningCpp.Orderbook.Market
import LearningCpp.Orderbook.Mirror
import LearningCpp.Orderbook.Split
import LearningCpp.TwoSum.Exact
import LearningCpp.ProductExceptSelf.Exact
import LearningCpp.TopK.Frequent
import LearningCpp.Duplicates.Sudoku
import LearningCpp.Lib.PartialRun
import LearningCpp.AutoPtr.Model
import LearningCpp.AutoPtr.Slots
import LearningCpp.AutoPtr.Holds
import LearningCpp.AutoPtr.Refinement
import LearningCpp.AutoPtr.Balance
import LearningCpp.Lib.Amortized
import LearningCpp.SegmentTree.Cost
import LearningCpp.Orderbook.Work
import LearningCpp.CustomVector.Growth
