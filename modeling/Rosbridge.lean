import Rosbridge.Library.Machine
import Rosbridge.Library.Recent
import Rosbridge.Library.SortedAssoc
import Rosbridge.Library.Fifo
import Rosbridge.Library.FloatingPoint
import Rosbridge.Library.Mutex
import Rosbridge.Library.Utf8
import Rosbridge.Library.JsonText
import Rosbridge.Json
import Rosbridge.Op
import Rosbridge.RandomString
import Rosbridge.Timer
import Rosbridge.Queues
import Rosbridge.Locking
import Rosbridge.History
import Rosbridge.Serializer
import Rosbridge.Unserializer
import Rosbridge.Picojson.Number
import Rosbridge.Picojson.Parse
import Rosbridge.Picojson.Serialize
import Rosbridge.Picojson.NumberText
import Rosbridge.Picojson.Scan
import Rosbridge.Picojson.Grammar
import Rosbridge.Picojson.ReadBack
import Rosbridge.Websocketpp.Utf8Validator
import Rosbridge.Picojson.Unicode
import Rosbridge.Picojson.Intake
import Rosbridge.Picojson.Document
import Rosbridge.Picojson.Standard
import Rosbridge.RoundTrip
import Rosbridge.Wire
import Rosbridge.Access
import Rosbridge.Reading
import Rosbridge.Talk.System
import Rosbridge.Talk.Lane
import Rosbridge.Talk.Handover
import Rosbridge.Talk.Session
import Rosbridge.Talk.Anytime
import Rosbridge.Talk.RoundRobin
import Rosbridge.Talk.Slips
import Rosbridge.Talk.Passing
import Rosbridge.Talk.Pass
import Rosbridge.Utf8Wire
import Rosbridge.Endpoint
import Rosbridge.Talk.Withdrawal
import Rosbridge.Talk.LastWord
import Rosbridge.Listen.Dispatch
import Rosbridge.Listen.Routing
import Rosbridge.Listen.Consumer
import Rosbridge.Listen.Net
import Rosbridge.Listen.Delivery
import Rosbridge.Listen.TypeSafety
import Rosbridge.Listen.Payload
import Rosbridge.Listen.ById
import Rosbridge.Listen.Removal
import Rosbridge.Listen.Call
import Rosbridge.Listen.Answers
import Rosbridge.Listen.Server
import Rosbridge.Listen.Exchange
import Rosbridge.Publication
import Rosbridge.AnyServer
import Rosbridge.Lifetime
import Rosbridge.Registration
import Rosbridge.Destruction
import Rosbridge.Joining
import Rosbridge.Connection.Watchdog
import Rosbridge.Connection.Runner
import Rosbridge.Shutdown
import Rosbridge.Flush
import Rosbridge.Ending
