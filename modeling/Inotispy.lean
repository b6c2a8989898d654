import Inotispy.Disk.Agreement
import Inotispy.Disk.Coverage
import Inotispy.Events.Delivery
import Inotispy.Events.Pausing
import Inotispy.Events.Queue
import Inotispy.Library.Path
import Inotispy.Locks.Balance
import Inotispy.Requests.Addressing
import Inotispy.Requests.Handlers
import Inotispy.Requests.Listing
import Inotispy.Requests.Lockstep
import Inotispy.Requests.Release
import Inotispy.Roots.Overlap
import Inotispy.Roots.Ownership
import Inotispy.Roots.Retrying
import Inotispy.Tables.Consistency
import Inotispy.Tables.Leaks
import Inotispy.Threads.Peace
import Inotispy.Threads.Rogue
import Inotispy.Threads.Unwatch
import Inotispy.Library.Stream
import Inotispy.Library.Token
import Inotispy.Events.Naming
import Inotispy.Tables.Removal
import Inotispy.Tables.Sweep
import Inotispy.Library.Layout
import Inotispy.Model.Buffer
import Inotispy.Events.Batching
import Inotispy.Requests.Refusal
import Inotispy.Model.Dump
import Inotispy.Roots.Dump
import Inotispy.Model.JsonText
import Inotispy.Requests.Texts
import Inotispy.Requests.Filtering
import Inotispy.Requests.Strings
import Inotispy.Model.Client
import Inotispy.Requests.Client
import Inotispy.Library.Code
import Inotispy.Model.Signals
import Inotispy.Locks.Stepwise
import Inotispy.Locks.Signals
import Inotispy.Requests.Acceptance
import Inotispy.Requests.Trimming
import Inotispy.Config.Reloading
import Inotispy.Requests.Options
import Inotispy.Events.Nameless
import Inotispy.Locks.Keeping
import Inotispy.Events.Temporaries
import Inotispy.Disk.Tree
import Inotispy.Disk.Tables
import Inotispy.Disk.Lasting
import Inotispy.Disk.Following
import Inotispy.Disk.Changing
import Inotispy.Library.Turns
import Inotispy.Disk.Rest
import Inotispy.Model.Setup
import Inotispy.Roots.Rewatching
import Inotispy.Roots.Survival
import Inotispy.Roots.Restarts
import Inotispy.Requests.Printing
import Inotispy.Requests.Reading
import Inotispy.Requests.Dialogue
import Inotispy.Requests.Isolation
import Inotispy.Requests.Reported
import Inotispy.Model.PidFile
import Inotispy.Startup.Exclusion
import Inotispy.Requests.Conversation
