import VrpcAgent.Serial
import VrpcAgent.Separation
import VrpcAgent.Recreation
import VrpcAgent.Answers
import VrpcAgent.Liveness
import VrpcAgent.PacketIds
import VrpcAgent.Connection
import VrpcAgent.Pending
import VrpcAgent.ErrorTexts
import VrpcAgent.Status
import VrpcAgent.Routing
import VrpcAgent.Registration
import VrpcAgent.Resolution
import VrpcAgent.Arguments
import VrpcAgent.ClientId
import VrpcAgent.BrokerUrl
import VrpcAgent.Callees
import VrpcAgent.Markers
import VrpcAgent.Tokens
import VrpcAgent.GenericCall
import VrpcAgent.BulkReads
import VrpcAgent.ReadBack
import VrpcAgent.JsonLexer
import VrpcAgent.JsonParser
import VrpcAgent.JsonGrammar
import VrpcAgent.JsonStrings
import VrpcAgent.JsonRoundTrip
import VrpcAgent.Payloads
import VrpcAgent.PacketIdManager
import VrpcAgent.PacketsTaken
import VrpcAgent.JsonCharacters
import VrpcAgent.JsonText
import VrpcAgent.Confinement
import VrpcAgent.TemporaryFiles
import VrpcAgent.Endpoint
import VrpcAgent.Link
import VrpcAgent.LinkOrder
