import NetworkSystemProgramming.SharedMemory.Teardown
import NetworkSystemProgramming.Dictionary.UdpServer
import NetworkSystemProgramming.Dictionary.FieldBounds
import NetworkSystemProgramming.Dictionary.Agreement
import NetworkSystemProgramming.Dictionary.Deadlock
import NetworkSystemProgramming.SequenceNumbers.LostResponses
import NetworkSystemProgramming.SequenceNumbers.Ranges
import NetworkSystemProgramming.SequenceNumbers.Versions
import NetworkSystemProgramming.FileServer.Isolation
import NetworkSystemProgramming.FileServer.ServerQueue
import NetworkSystemProgramming.Shell.Wiring
import NetworkSystemProgramming.Shell.Redirection
import NetworkSystemProgramming.Shell.FailedRedirection
import NetworkSystemProgramming.Shell.Builtins
import NetworkSystemProgramming.Popen.Waiting
import NetworkSystemProgramming.BidirectionPipe.Generations
import NetworkSystemProgramming.Inotify.EventWalk
import NetworkSystemProgramming.Signals.SystemV
import NetworkSystemProgramming.RingBuffer.Locking
import NetworkSystemProgramming.RingBuffer.LostSignals
import NetworkSystemProgramming.RingBuffer.Counting
import NetworkSystemProgramming.RingBuffer.Bounds
import NetworkSystemProgramming.Signals.SigSpeed
import NetworkSystemProgramming.Dictionary.StaticRecord
import NetworkSystemProgramming.Dictionary.LookupCalls
import NetworkSystemProgramming.Dictionary.SortedLookup
import NetworkSystemProgramming.Shell.Parse
import NetworkSystemProgramming.Shell.Allocations
import NetworkSystemProgramming.ProcessTree.Indentation
import NetworkSystemProgramming.FileServer.Totals
import NetworkSystemProgramming.FileServer.Pathnames
import NetworkSystemProgramming.SequenceNumbers.Wrapping
import NetworkSystemProgramming.Tee.Copying
import NetworkSystemProgramming.Popen.ReadMode
import NetworkSystemProgramming.Popen.Registry
import NetworkSystemProgramming.BidirectionPipe.RoundTrip
import NetworkSystemProgramming.Dictionary.FirstExchange
import NetworkSystemProgramming.Dictionary.ServingLoop
import NetworkSystemProgramming.Dictionary.DatagramQueries
import NetworkSystemProgramming.ProcFiles.UserProcesses
import NetworkSystemProgramming.ProcFiles.OpenDescriptors
import NetworkSystemProgramming.FileServer.Reaper
import NetworkSystemProgramming.Dictionary.Accepting
import NetworkSystemProgramming.Shell.Waiting
import NetworkSystemProgramming.Listing
import NetworkSystemProgramming.Arguments.GetNum
import NetworkSystemProgramming.SharedMemory.Completion
import NetworkSystemProgramming.Signals.Sigpause
import NetworkSystemProgramming.SequenceNumbers.AbnormalClients
import NetworkSystemProgramming.FileCopies
import NetworkSystemProgramming.Signals.PingPong
import NetworkSystemProgramming.SequenceNumbers.ServedInTime
import NetworkSystemProgramming.FileServer.Completion
import NetworkSystemProgramming.Shell.Composition
import NetworkSystemProgramming.RingBuffer.FullCount
import NetworkSystemProgramming.Dictionary.LostDatagrams
import NetworkSystemProgramming.Shell.SharedInput
