import ZipoLogger.Lib.Machine
import ZipoLogger.Lib.Trace
import ZipoLogger.Lib.Observe
import ZipoLogger.Lib.WaitFor
import ZipoLogger.Lib.Measure
import ZipoLogger.Lib.WaitGroup
import ZipoLogger.Lib.Lru
import ZipoLogger.Lib.Recency
import ZipoLogger.Lib.Count
import ZipoLogger.Lib.BigEndian
import ZipoLogger.Lib.Codec
import ZipoLogger.Lib.Scanner
import ZipoLogger.Lib.Text
import ZipoLogger.Lib.Chain
import ZipoLogger.Lib.Overwrite
import ZipoLogger.Lib.Handle
import ZipoLogger.Lib.PrefixReader
import ZipoLogger.Lib.Weave
import ZipoLogger.Lib.StateOp
import ZipoLogger.Enc.Ecies
import ZipoLogger.Enc.Keys
import ZipoLogger.Enc.KeyStrings
import ZipoLogger.Enc.RoundTrip
import ZipoLogger.Enc.ShortBody
import ZipoLogger.Enc.Canonical
import ZipoLogger.Enc.KeyFile
import ZipoLogger.Logger.State
import ZipoLogger.Logger.Step
import ZipoLogger.Logger.Cases
import ZipoLogger.Logger.WellFormed
import ZipoLogger.Logger.Locks
import ZipoLogger.Logger.Calls
import ZipoLogger.Logger.Accounting
import ZipoLogger.Logger.Delivery
import ZipoLogger.Logger.Loss
import ZipoLogger.Logger.Secrecy
import ZipoLogger.Logger.Waiting
import ZipoLogger.Logger.Service
import ZipoLogger.Logger.Starvation
import ZipoLogger.Logger.Parked
import ZipoLogger.Logger.Release
import ZipoLogger.Logger.Registry
import ZipoLogger.Logger.Agreement
import ZipoLogger.Logger.WorkingSet
import ZipoLogger.Logger.Sequential
import ZipoLogger.Logger.PackageWait
import ZipoLogger.Logger.Evicted
import ZipoLogger.Logger.SingleWriter
import ZipoLogger.Logger.Dropped
import ZipoLogger.Logger.Gate
import ZipoLogger.Logger.WorkerPanic
import ZipoLogger.Logger.Deadlock
import ZipoLogger.Logger.Completion
import ZipoLogger.Logger.KeyText
import ZipoLogger.Logger.Without
import ZipoLogger.Logger.KeyInForce
import ZipoLogger.Logger.Caller
import ZipoLogger.Logger.CallerDepth
import ZipoLogger.Logger.EntryPoints
import ZipoLogger.Logger.Limited
import ZipoLogger.Logger.RateLimit
import ZipoLogger.Logger.Burst
import ZipoLogger.Logger.Suppressed
import ZipoLogger.Logger.PanicLog
import ZipoLogger.Logger.PanicRace
import ZipoLogger.Logger.EmptyLogger
import ZipoLogger.Decrypter.Main
import ZipoLogger.Decrypter.EndToEnd
import ZipoLogger.Decrypter.Lines
import ZipoLogger.Rlp.Format
import ZipoLogger.Rlp.Raw
import ZipoLogger.Rlp.EncBuffer
import ZipoLogger.Rlp.Encode
import ZipoLogger.Rlp.EncReader
import ZipoLogger.Rlp.Stream
import ZipoLogger.Rlp.StreamReads
import ZipoLogger.Rlp.Values
import ZipoLogger.Rlp.Decode
import ZipoLogger.Rlp.RoundTrip
import ZipoLogger.Rlp.Session
import ZipoLogger.Rlp.Address
