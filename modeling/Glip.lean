import Glip.CircularBuffer.Allocation
import Glip.CircularBuffer.BlockingRead
import Glip.CircularBuffer.Deadline
import Glip.CircularBuffer.FillLevelRace
import Glip.CircularBuffer.LevelWaits
import Glip.CircularBuffer.NonBlocking
import Glip.CircularBuffer.QueueRefinement
import Glip.CircularBuffer.SharedQueue
import Glip.CircularBuffer.SizeArithmetic
import Glip.CircularBuffer.WriteTimeout
import Glip.CypressFx2.BusService
import Glip.CypressFx2.DataPath
import Glip.CypressFx2.DeviceSearch
import Glip.CypressFx2.UsbThreads
import Glip.CypressFx3.DataPath
import Glip.CypressFx3.UsbReadThread
import Glip.Fifo.ProgrammableFlags
import Glip.Fifo.SingleClock
import Glip.FifoWidth
import Glip.Jtag.ByteOrder
import Glip.Jtag.Discovery
import Glip.Jtag.HeaderWords
import Glip.Jtag.OpenocdStartup
import Glip.Jtag.PauseTolerance
import Glip.Jtag.PollThread
import Glip.Jtag.ResponseCounters
import Glip.Jtag.ResponseFrame
import Glip.Jtag.ScanRoundTrip
import Glip.Jtag.SocketWrite
import Glip.Jtag.TapToplevel
import Glip.Jtag.WriteTransfers
import Glip.Options.NumericValues
import Glip.Scaler.ScaledStream
import Glip.StressTest.DeviceVerdict
import Glip.StressTest.ReadCompare
import Glip.StressTest.StatusMessages
import Glip.StressTest.WriteStream
import Glip.Tcp.ComThread
import Glip.Tcp.ControlMessages
import Glip.Tcp.OutgoingSocket
import Glip.Tcp.SessionLifecycle
import Glip.Tcp.SystemcReceive
import Glip.Uart.BlockingTimeout
import Glip.Uart.ChunkedParse
import Glip.Uart.CreditDelivery
import Glip.Uart.CreditGrants
import Glip.Uart.EgressCredit
import Glip.Uart.EgressOrder
import Glip.Uart.IngressOverflow
import Glip.Uart.ReceiveTolerance
import Glip.Uart.SessionReset
import Glip.Uart.WordDelivery
import Glip.CircularBuffer.BlockingRuns
