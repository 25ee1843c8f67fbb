import Dueca.Master.Reservation
import Dueca.Protocol.Removal
import Dueca.Entry.Work
import Dueca.Entry.Visible
import Dueca.Entry.Selection
import Dueca.Entry.Packer
import Dueca.Entry.Replay
import Dueca.Clients.Complete
import Dueca.Net.Planned
import Dueca.Net.Commands
import Dueca.Net.Admission
import Dueca.Net.Payloads
import Dueca.Activity.Guard
import Dueca.Trigger.And
import Dueca.Fill.Events
import Dueca.Fill.Survival
import Dueca.Fill.Transport
import Dueca.Inter.Spans
import Dueca.Inter.Welcome
import Dueca.Dco.Transfer
import Dueca.Dco.IntFormats
import Dueca.Dco.Truncated
import Dueca.Dco.MsgFits
import Dueca.Ddff.PyWrite
import Dueca.Ddff.Scan
import Dueca.Dusime.Agreement
import Dueca.Dusime.Rounds
import Dueca.Connect.Runs
import Dueca.Coding.Xml
import Dueca.Coding.MsgpackSafe
import Dueca.Coding.Messages
import Dueca.Node.Progress
import Dueca.Reflect.Delivery
import Dueca.IpRing.Exchange
import Dueca.Store.Inverse
import Dueca.Trigger.Phase
import Dueca.Trigger.Switch
import Dueca.Activity.Queue
import Dueca.Activity.OnPeriod
import Dueca.Inter.PeerTiming
import Dueca.Status.Fresh
import Dueca.Objects.Directory
import Dueca.Policy.Edits
import Dueca.Policy.Join
import Dueca.Policy.TextEdits
import Dueca.Projects.Sync
