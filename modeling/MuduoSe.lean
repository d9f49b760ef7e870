import MuduoSe.Net.TcpFailures
import MuduoSe.Net.HttpPipeline
import MuduoSe.Net.TimerBatch
import MuduoSe.Net.TimerDeferred
import MuduoSe.Net.TimerSpin
import MuduoSe.Net.EventLoopTimers
import MuduoSe.Net.TimerIds
import MuduoSe.Net.EventLoopWake
import MuduoSe.Net.EventLoopThread
import MuduoSe.Base.ThreadPoolStop
import MuduoSe.Base.BlockQueue
import MuduoSe.Base.BlockingQueue
import MuduoSe.Base.QueueTestEnds
import MuduoSe.Base.RlogCycle
import MuduoSe.Base.RlogFormat
import MuduoSe.Base.RlogIdle
import MuduoSe.Base.RlogRing
import MuduoSe.Base.RlogRotation
import MuduoSe.Base.RlogShutdown
import MuduoSe.Base.TimestampCache
import MuduoSe.Base.CellBufferFlush
import MuduoSe.Net.EpollQuiet
import MuduoSe.Net.Pollers
import MuduoSe.Net.HttpLogin
import MuduoSe.Net.HttpProgress
import MuduoSe.Net.HttpReset
import MuduoSe.Net.TcpServer
import MuduoSe.Net.TcpServerLoops
import MuduoSe.Net.TcpSend
import MuduoSe.Net.IpAdress
import MuduoSe.Net.HttpRequestLine
import MuduoSe.Net.HttpDecode
import MuduoSe.Net.Uilt
import MuduoSe.Net.TimerHandOver
import MuduoSe.Net.TcpListen
import MuduoSe.Net.HttpSession
