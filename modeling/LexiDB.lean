import LexiDB.Ambiguity
import LexiDB.Answered
import LexiDB.AuthGate
import LexiDB.Await
import LexiDB.ConfigDirectives
import LexiDB.ConfigNumbers
import LexiDB.Delivery
import LexiDB.Dictionary
import LexiDB.Encoding
import LexiDB.EvResize
import LexiDB.Framing
import LexiDB.Keys
import LexiDB.Login
import LexiDB.Members
import LexiDB.Networking
import LexiDB.OneReply
import LexiDB.ParserTermination
import LexiDB.Prefixes
import LexiDB.Presence
import LexiDB.Progress
import LexiDB.QueueCalls
import LexiDB.ReadFile
import LexiDB.ReadRounds
import LexiDB.Registry
import LexiDB.Remote
import LexiDB.RoundTrip
import LexiDB.Selection
import LexiDB.Session
import LexiDB.SetFailures
import LexiDB.Shelves
import LexiDB.Sizes
import LexiDB.Startup
import LexiDB.TableCalls
import LexiDB.TypedLines
import LexiDB.TypedNumbers
import LexiDB.TypedStrings
import LexiDB.VecCalls
import LexiDB.VstrCalls
import LexiDB.VstrFailures
