import VideoProcessing.Fifo.DcfifoQueue
import VideoProcessing.Fifo.SimpleFifoQueue
import VideoProcessing.Video.DmaFrame
import VideoProcessing.Video.DmaFifo
import VideoProcessing.Video.DmaProtocol
import VideoProcessing.Lib.Synchronizer
import VideoProcessing.Video.FrameResync
import VideoProcessing.Video.StillRun
import VideoProcessing.Video.TestPattern
import VideoProcessing.Video.HdmiClosedForm
import VideoProcessing.Burst.StartAgreement
import VideoProcessing.Burst.TransferRun
import VideoProcessing.Burst.Copy
import VideoProcessing.Burst.ElasticChannel
import VideoProcessing.Burst.Stuck
import VideoProcessing.Burst.Deadlock
import VideoProcessing.Burst.Padding
import VideoProcessing.Burst.Programming
import VideoProcessing.Burst.Oversubscription
import VideoProcessing.Burst.Isolation
import VideoProcessing.Burst.WriteBursts
import VideoProcessing.Fifo.DcfifoStatus
import VideoProcessing.Fifo.DcfifoGray
import VideoProcessing.Fifo.AsyncFifo
import VideoProcessing.Burst.Scaler
import VideoProcessing.Software.SelfTest
import VideoProcessing.Software.DoneFlags
import VideoProcessing.Software.HdmiControl
import VideoProcessing.Software.CycleCounter
import VideoProcessing.Software.Display
import VideoProcessing.Software.ConsoleAnswers
import VideoProcessing.Software.MemVerify
import VideoProcessing.Software.SelfTestHardware
import VideoProcessing.Software.FrameLoader
import VideoProcessing.Video.DmaProgress
import VideoProcessing.Video.FrameFetched
