import SrWebSocket.General.Iteration
import SrWebSocket.General.Machine
import SrWebSocket.General.Framing
import SrWebSocket.General.Memory
import SrWebSocket.General.Trace
import SrWebSocket.General.RefCount
import SrWebSocket.Parse.MsgFrame
import SrWebSocket.Parse.FrameUnits
import SrWebSocket.Parse.DecodeMsg
import SrWebSocket.Parse.Reassembly
import SrWebSocket.Parse.Scan
import SrWebSocket.Parse.DecodeSpec
import SrWebSocket.Parse.ScanVisits
import SrWebSocket.Parse.CallCases
import SrWebSocket.Parse.CacheRuns
import SrWebSocket.Parse.Agreement
import SrWebSocket.Parse.Resumed
import SrWebSocket.Parse.HandedOut
import SrWebSocket.Parse.HeaderReads
import SrWebSocket.Parse.StaleMemory
import SrWebSocket.Parse.NarrowSizes
import SrWebSocket.Parse.BothWidths
import SrWebSocket.Stream.Receiver
import SrWebSocket.Stream.PatientRun
import SrWebSocket.Stream.ReceiveLoop
import SrWebSocket.Stream.EndlessLoop
import SrWebSocket.Wire.WireFrame
import SrWebSocket.Parse.EncodeMsg
import SrWebSocket.Wire.DecodeStream
import SrWebSocket.Wire.RoundTrip
import SrWebSocket.Wire.ReferenceDecoder
import SrWebSocket.Stream.Cuts
import SrWebSocket.Stream.SplitStream
import SrWebSocket.Wire.ReferenceStream
import SrWebSocket.Wire.ControlFrames
import SrWebSocket.Wire.FrameBoundary
import SrWebSocket.Wire.EmptyFrames
import SrWebSocket.Server.HttpText
import SrWebSocket.Server.UpgradeHandler
import SrWebSocket.Server.Connection
import SrWebSocket.Server.RequestFields
import SrWebSocket.Server.HeaderErase
import SrWebSocket.Server.ConnSteps
import SrWebSocket.Server.Dispatch
import SrWebSocket.Server.HandlerMgr
import SrWebSocket.Server.MissingResult
import SrWebSocket.Server.AfterUpgrade
import SrWebSocket.Server.Release
import SrWebSocket.Server.Serving
import SrWebSocket.Server.Answers
import SrWebSocket.Server.Handshake
import SrWebSocket.Server.Arrivals
import SrWebSocket.Server.Conversation
import SrWebSocket.Server.EchoService
import SrWebSocket.Server.PageResponse
import SrWebSocket.Server.ClientList
import SrWebSocket.Server.Registry
import SrWebSocket.Server.Broadcast
import SrWebSocket.Server.KeepAlive
import SrWebSocket.Client.Worker
import SrWebSocket.Client.Closing
import SrWebSocket.Client.Threads
import SrWebSocket.Client.Quiescence
import SrWebSocket.Client.Progress
import SrWebSocket.Client.Link
import SrWebSocket.Client.PeerView
import SrWebSocket.System.Process
import SrWebSocket.System.Components
import SrWebSocket.System.Lifetime
import SrWebSocket.System.Leaks
import SrWebSocket.System.Service
import SrWebSocket.System.Deletion
import SrWebSocket.System.EndlessWorker
