import Mcpkit.Apps.Csp
import Mcpkit.Client.RoundTrips
import Mcpkit.Core.OauthMetadata
import Mcpkit.Core.OauthRequests
import Mcpkit.Json.CloneHeap
import Mcpkit.Json.Denotation
import Mcpkit.Json.ObjectMemory
import Mcpkit.Json.SchemaInvariance
import Mcpkit.Protocol.MrtrState
import Mcpkit.Protocol.ResponseEnvelope
import Mcpkit.Protocol.Skills
import Mcpkit.Protocol.UriLists
import Mcpkit.Protocol.UriPrefix
import Mcpkit.Runtime.ReactorRuns
import Mcpkit.Runtime.ThreadPool
import Mcpkit.Runtime.Timer
import Mcpkit.Server.Accounting
import Mcpkit.Server.Negotiation
import Mcpkit.Server.Queue
import Mcpkit.Server.Subscription
import Mcpkit.Server.TaskAnswers
import Mcpkit.Server.ToolRegistry
import Mcpkit.Transport.Authentication
import Mcpkit.Transport.Connections
import Mcpkit.Transport.LineLoops
import Mcpkit.Transport.Pipeline
import Mcpkit.Transport.Reaper
import Mcpkit.Transport.ResponseLength
import Mcpkit.Transport.SessionCalls
import Mcpkit.Transport.SessionCreation
import Mcpkit.Transport.SessionEntries
import Mcpkit.Transport.SocketRecv
import Mcpkit.Transport.SseResume
import Mcpkit.Transport.SseWrap
import Mcpkit.Transport.StdioTimeouts
import Mcpkit.Transport.Tls
import Mcpkit.Transport.WsTransport
