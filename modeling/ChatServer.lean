import ChatServer.Lib.TransitionSystem
import ChatServer.Lib.Fairness
import ChatServer.Lib.LineFraming
import ChatServer.Lib.Unwinding
import ChatServer.Lib.ThreadCount
import ChatServer.Lib.LockOrder
import ChatServer.Bytes
import ChatServer.Message
import ChatServer.Rio
import ChatServer.Connection
import ChatServer.ConnectionContract
import ChatServer.WireStream
import ChatServer.WireFormat
import ChatServer.CutStream
import ChatServer.ReceiverClient
import ChatServer.SenderClient
import ChatServer.CommandLanguage
import ChatServer.CommandLoop
import ChatServer.ClientPrograms
import ChatServer.MessageQueue
import ChatServer.Server.State
import ChatServer.Server.Code
import ChatServer.Server.Step
import ChatServer.Server.History
import ChatServer.Server.Membership
import ChatServer.Server.Broadcasts
import ChatServer.Server.Delivery
import ChatServer.Server.RoomNames
import ChatServer.Server.Attribution
import ChatServer.Server.Locks
import ChatServer.Server.Mutexes
import ChatServer.Server.Semaphores
import ChatServer.Server.SenderSession
import ChatServer.Server.Lockstep
import ChatServer.Server.ReceiverSession
import ChatServer.Server.SendFailure
import ChatServer.Server.Orphans
import ChatServer.Server.Rejections
import ChatServer.Server.Joins
import ChatServer.Server.Restriction
import ChatServer.Server.Isolation
import ChatServer.Server.LegalFrames
import ChatServer.Server.Live
import ChatServer.Server.Login
import ChatServer.Server.Handshake
import ChatServer.Server.SessionSpec
import ChatServer.Server.Provenance
import ChatServer.Server.Farewell
import ChatServer.Server.Liveness
import ChatServer.Server.EventualDelivery
import ChatServer.Server.Admission
import ChatServer.EndToEnd
import ChatServer.System.Pipe
import ChatServer.System.Network
import ChatServer.System.ClientHistory
import ChatServer.System.Messages
import ChatServer.System.Dialogue
import ChatServer.System.Output
import ChatServer.System.Liveness
import ChatServer.System.Replies
import ChatServer.System.Prompt
import ChatServer.System.Heard
