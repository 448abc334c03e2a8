import EventServer.Stream.Refinement
import EventServer.Archive.WireOrder
import EventServer.Archive.RoundTrip
import EventServer.Archive.Reading
import EventServer.Archive.Bounds
import EventServer.Net.Connection
import EventServer.Net.HttpClient
import EventServer.WebSocket.Incomplete
import EventServer.WebSocket.Complete
import EventServer.WebSocket.RoundTrip
import EventServer.Threads.Wakeup
import EventServer.Threads.ExactlyOnce
import EventServer.Threads.WorkProc
import EventServer.Threads.Limit
import EventServer.Threads.Servers
import EventServer.Dispatch.Events
import EventServer.Dispatch.References
import EventServer.Notify.Queue
import EventServer.Notify.Snapshot
import EventServer.Pool.Ownership
import EventServer.Pool.Recycling
import EventServer.Lua.Assign
import EventServer.Lua.Strings
import EventServer.Lua.Content
import EventServer.Lua.Numbers
import EventServer.Lua.Pointers
import EventServer.Lua.Locals
import EventServer.Lua.Marks
import EventServer.Config.FinalLine
import EventServer.Config.Reload
import EventServer.Stream.SizeTests
import EventServer.Stream.Assign
import EventServer.Threads.UserResult
import EventServer.Lua.LittleEndian
import EventServer.Lua.Int64
import EventServer.Config.NumberText
import EventServer.Lua.CharZero
import EventServer.Json.Keys
import EventServer.Mime.QuotedLines
import EventServer.Json.RoundTrip
import EventServer.Snapshot.Reachable
import EventServer.Json.EncodeBuffer
import EventServer.Json.DecodeBuffer
import EventServer.Json.Portable
