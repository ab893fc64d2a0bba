import Pdk.Foundation.Transition
import Pdk.Foundation.Tally
import Pdk.Foundation.Ring
import Pdk.Foundation.Framing
import Pdk.Foundation.Bytes
import Pdk.Net.MemoryStream
import Pdk.Net.EventDefs
import Pdk.Net.TcpChannel
import Pdk.Net.TcpReassembly
import Pdk.Foundation.BoundedFifo
import Pdk.Foundation.Condvar
import Pdk.Queue.BoundedQueue
import Pdk.Queue.BoundedQueueWakeup
import Pdk.Queue.BoundedQueueRefinement
import Pdk.Queue.CircularQueue
import Pdk.Queue.CircularQueueFifo
import Pdk.Queue.CircularQueueTokens
import Pdk.Pool.PgPool
import Pdk.Pool.PgPoolCustody
import Pdk.Sync.Thread
import Pdk.Sync.ThreadLifecycle
import Pdk.Sync.QThread
import Pdk.Sync.QThreadClose
import Pdk.Foundation.LittleEndian
import Pdk.Io.Archive
import Pdk.Foundation.BufferedWriter
import Pdk.Io.ArchiveStore
import Pdk.Io.ArchiveLoad
import Pdk.Io.ArchiveRoundTrip
import Pdk.Foundation.OrderedMap
import Pdk.Config.IniFile
import Pdk.Config.IniFileMap
import Pdk.Config.IniFileText
import Pdk.Config.IniFileRoundTrip
import Pdk.Config.IniFileSave
import Pdk.Foundation.NestedMap
import Pdk.Sync.GlobalTimer
import Pdk.Sync.GlobalTimerAgreement
import Pdk.Sync.GlobalTimerBalance
import Pdk.Queue.ShmQueue
import Pdk.Queue.ShmQueueOrder
import Pdk.Config.IniFileLines
import Pdk.Sync.GlobalTimerEarly
import Pdk.Sync.ThreadLiveness
import Pdk.Sync.SemaphoreWakeup
import Pdk.Queue.ShmQueueLength
import Pdk.Config.IniFileInt
import Pdk.Queue.SharedMemory
import Pdk.Queue.SharedMemoryLock
import Pdk.Net.TcpServer
import Pdk.Net.TcpServerLock
import Pdk.Net.TcpLengths
import Pdk.Net.UdpServer
import Pdk.Net.EventLengths
import Pdk.Foundation.Slots
import Pdk.Io.Logger
import Pdk.Io.LoggerRotation
import Pdk.Io.LoggerQueue
import Pdk.Foundation.OnesComplement
import Pdk.Net.Icmp
import Pdk.Foundation.ByteFile
import Pdk.Net.MemoryStreamFile
import Pdk.Io.ArchiveString
import Pdk.Foundation.ShortWriter
import Pdk.Io.ArchiveShortWrite
import Pdk.Foundation.LinkedNodes
import Pdk.Queue.MemList
import Pdk.Queue.MemListShape
import Pdk.Queue.MemListSafety
import Pdk.Queue.MemListWindow
import Pdk.Pool.PgPoolHealth
import Pdk.Queue.ShmQueueIntact
import Pdk.Sync.GlobalTimerDelivery
import Pdk.Sync.GlobalTimerRearm
import Pdk.Net.TcpServerCalls
import Pdk.Net.TcpServerSelfJoin
import Pdk.Net.TcpCompaction
import Pdk.Net.TcpServerLimit
import Pdk.Queue.CircularQueueReset
import Pdk.Io.LoggerDate
import Pdk.Net.IcmpLiveness
import Pdk.Foundation.Fields
import Pdk.Net.IcmpHosts
import Pdk.Queue.ShmQueueTable
import Pdk.Foundation.Descriptors
import Pdk.Net.SocketSetup
import Pdk.Foundation.DirTree
import Pdk.Io.MakeDirs
import Pdk.Foundation.TaggedQueue
import Pdk.Queue.MsgQueue
import Pdk.Net.UdpIfThread
import Pdk.Net.UdpTeardown
import Pdk.Queue.MsgQueueDelivery
import Pdk.Queue.MsgQueueStop
import Pdk.Net.TcpExchange
import Pdk.Net.UdpExchange
import Pdk.Net.UnixPaths
import Pdk.Config.IniFileBool
import Pdk.Foundation.Custody
import Pdk.Foundation.Disk
import Pdk.Io.FileAppend
import Pdk.Net.IcmpSockets
import Pdk.Net.Reconnect
import Pdk.Net.SocketCustody
import Pdk.Sync.QueueThreads
import Pdk.Io.FileReaders
import Pdk.Net.UdpStart
import Pdk.Queue.ShmQThread
