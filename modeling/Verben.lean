import Verben.Lib.Archive
import Verben.Lib.CInt
import Verben.Lib.ByteMem
import Verben.Lib.Buckets
import Verben.Lib.Decimal
import Verben.Lib.Extents
import Verben.Lib.Files
import Verben.Lib.Framing
import Verben.Lib.Links
import Verben.Lib.Orbit
import Verben.Lib.Region
import Verben.Lib.Search
import Verben.Lib.Scopes
import Verben.Lib.Stages
import Verben.Lib.Trace
import Verben.Lib.Transition
import Verben.Lib.Alarms
import Verben.Shmq.Model
import Verben.Shmq.Layout
import Verben.Shmq.Push
import Verben.Shmq.Pop
import Verben.Shmq.Fifo
import Verben.Shmq.View
import Verben.Shmq.Bounds
import Verben.Shmq.Midway
import Verben.Shmq.Empty
import Verben.Shmq.Oversize
import Verben.Shmq.Locked
import Verben.Shmq.Exclusive
import Verben.Shmq.Users
import Verben.Sds.Model
import Verben.Sds.Content
import Verben.Sds.Valid
import Verben.Sds.Run
import Verben.Sds.Repr
import Verben.Sds.Args
import Verben.Sds.Split
import Verben.Sds.Number
import Verben.Ae.Model
import Verben.Ae.Time
import Verben.Ae.Timeout
import Verben.Ae.Backend
import Verben.Ae.Watch
import Verben.Ae.Process
import Verben.Ae.Alarm
import Verben.Ae.Pass
import Verben.Ae.Kernel
import Verben.Ae.Follow
import Verben.Dlist.Model
import Verben.Dlist.Entries
import Verben.Dlist.Calls
import Verben.Dlist.Copy
import Verben.Conn.Model
import Verben.Conn.Live
import Verben.Conn.Step
import Verben.Conn.Events
import Verben.Conn.History
import Verben.Conn.Tables
import Verben.Conn.Batch
import Verben.Conn.Cron
import Verben.Conn.Linked
import Verben.Conn.Sweep
import Verben.Conn.Receive
import Verben.Conn.Inside
import Verben.Conn.Dispatch
import Verben.Conn.Send
import Verben.Conn.CloseRequest
import Verben.Conn.Kernel
import Verben.Conn.Watched
import Verben.Conn.Pid
import Verben.Conn.Turn
import Verben.Daemon.Exclusive
import Verben.Master.Model
import Verben.Master.Step
import Verben.Master.Forward
import Verben.Master.Table
import Verben.Master.Reap
import Verben.Worker.Life
import Verben.Worker.Model
import Verben.Worker.Payload
import Verben.Notifier.Model
import Verben.Server.Model
import Verben.Server.Step
import Verben.Server.Wakeup
import Verben.Server.Log
import Verben.Server.Order
import Verben.Server.Routing
import Verben.Server.Run
import Verben.Server.Answer
import Verben.Server.Echo
import Verben.Log.Model
import Verben.Log.Write
import Verben.Log.Rotate
import Verben.Log.Turn
import Verben.Log.Call
import Verben.Log.Kept
import Verben.Log.Levels
import Verben.Log.Cut
import Verben.Log.Size
import Verben.Hash.Model
import Verben.Hash.Map
import Verben.Hash.Alloc
import Verben.Lib.Cursor
import Verben.Hash.Iter
import Verben.Hash.Prev
import Verben.Lib.Runs
import Verben.Conf.Explode
import Verben.Conf.Fields
import Verben.Conf.Model
import Verben.Conf.Lines
import Verben.Conf.Store
import Verben.Conf.Accept
import Verben.Conf.Evaluate
import Verben.Conf.Plain
import Verben.Conf.Expand
import Verben.Conf.Round
import Verben.Conf.Calls
import Verben.Conf.Twins
import Verben.Conf.Aligned
import Verben.Conf.Insert
import Verben.Conf.Tree
import Verben.Conf.Held
import Verben.Conf.Reading
import Verben.Conf.Free
import Verben.Conf.Fail
import Verben.Lib.Nesting
import Verben.Conf.Fuel
import Verben.Conf.Cycle
import Verben.Vector.Model
import Verben.Vector.Stored
import Verben.Vector.Count
import Verben.Vector.Iter
import Verben.Http.Model
import Verben.Http.Frame
import Verben.Http.Response
import Verben.Lib.Paths
import Verben.Http.Path
import Verben.Bench.Model
import Verben.Bench.Clients
import Verben.Bench.Step
import Verben.Bench.Fate
import Verben.Bench.Account
import Verben.Bench.Finish
