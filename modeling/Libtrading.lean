import Libtrading.Fast.RoundTrip
import Libtrading.Book.Feeds
import Libtrading.Itoa
import Libtrading.Fix.Message
import Libtrading.Wire.Delimited
import Libtrading.Fix.Parse
import Libtrading.Fix.ParseFacts
import Libtrading.Fix.Report
import Libtrading.Fix.Framing
import Libtrading.Fix.Progress
import Libtrading.Fix.Resync
import Libtrading.Fix.Session
import Libtrading.Fix.Room
import Libtrading.Store.Linked
import Libtrading.Sim.Reference
import Libtrading.Sim.Links
import Libtrading.Sim.Sweep
import Libtrading.Sim.Priority
import Libtrading.Book.OrderBook
import Libtrading.Book.Levels
import Libtrading.Book.FastBook
import Libtrading.Book.Recover
import Libtrading.Book.Cleared
import Libtrading.Fast.Sequences
import Libtrading.Fast.Calls
import Libtrading.Fast.AnyCut
import Libtrading.Fast.Tidy
import Libtrading.Fast.OwnBytes
import Libtrading.Fast.Place
import Libtrading.Fast.Session
import Libtrading.Fast.InBounds
import Libtrading.Fast.Numbers
import Libtrading.Soup.Session
import Libtrading.Fast.Updates
import Libtrading.Fast.ElementMap
import Libtrading.Fast.Strings
import Libtrading.Fast.MapTruth
import Libtrading.Fast.FailedEncode
import Libtrading.Fast.Omission
import Libtrading.Fast.Waiting
import Libtrading.Fast.Packed
import Libtrading.Fast.Feed
import Libtrading.Fix.Retry
import Libtrading.Fix.FieldArray
import Libtrading.Fix.Sending
import Libtrading.Fix.Admin
import Libtrading.Fix.SequenceReset
import Libtrading.Fix.Consumed
import Libtrading.Book.Routing
import Libtrading.Fast.TemplateIds
import Libtrading.Fast.AsciiDelta
import Libtrading.Fast.Stores
import Libtrading.Fast.CopiedOut
import Libtrading.Fix.Template
import Libtrading.Fix.Printed
import Libtrading.Fix.Capacity
import Libtrading.Fix.OnWire
import Libtrading.Fix.Places
import Libtrading.Fix.FastPath
import Libtrading.Fix.Pieces
import Libtrading.Fix.Delivery
import Libtrading.Book.Decimals
import Libtrading.Fix.NumberText
import Libtrading.Fifo
import Libtrading.Wire.Frames
import Libtrading.Proto.Ouch42
import Libtrading.Proto.Framed
import Libtrading.Proto.MbtQuote
import Libtrading.Book.Counters
import Libtrading.Book.Emptied
import Libtrading.Sim.WellFormed
import Libtrading.Book.Opened
import Libtrading.Fix.Decided
import Libtrading.Fix.Cuts
import Libtrading.Fix.Link
import Libtrading.Wire.Hex
import Libtrading.Fast.VectorInit
import Libtrading.Fix.InFlight
import Libtrading.Fix.GapRecovery
import Libtrading.Fast.Alike
import Libtrading.Fast.AlikeReaders
import Libtrading.Fast.AlikeDecimals
import Libtrading.Fast.AlikeElements
import Libtrading.Fast.AlikeSequences
import Libtrading.Fast.AlikeMessages
import Libtrading.Fast.AlikeSessions
import Libtrading.Fast.Forgotten
import Libtrading.Fast.ResetFresh
import Libtrading.Store.CatchUp
import Libtrading.Book.Exchange
import Libtrading.Book.Merging
import Libtrading.Book.Following
import Libtrading.Book.Joined
import Libtrading.Book.Converged
import Libtrading.Fix.Keepalive
import Libtrading.Fix.KeptAlive
import Libtrading.Sim.Ledger
import Libtrading.Sim.Execution
import Libtrading.Fast.Refused
