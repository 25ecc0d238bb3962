import Ircd.Text
import Ircd.Numbers
import Ircd.Lib.LineSplitter
import Ircd.Linebuf.Buffer
import Ircd.Linebuf.Lines
import Ircd.Linebuf.Delivery
import Ircd.Lib.Glob
import Ircd.Hostmask.Netmask
import Ircd.Hostmask.AddressTable
import Ircd.Hostmask.Lookup
import Ircd.Channel.State
import Ircd.Channel.Membership
import Ircd.Channel.Burst
import Ircd.Channel.Sjoin
import Ircd.Channel.SjoinSteps
import Ircd.Channel.Relay
import Ircd.Lib.OldestWins
import Ircd.Channel.Timestamps
import Ircd.Channel.IgnoredSjoin
import Ircd.Wire
import Ircd.Channel.Vchan
import Ircd.Channel.Topic
import Ircd.Channel.BurstLines
import Ircd.Channel.BurstRoundTrip
import Ircd.Channel.Mask
import Ircd.Channel.Mode
import Ircd.Channel.ModeSteps
import Ircd.Channel.Integrity
import Ircd.Lib.Chain
import Ircd.Nick.State
import Ircd.Nick.Introduce
import Ircd.Nick.Change
import Ircd.Nick.Intact
import Ircd.Nick.Lookup
import Ircd.Nick.Arrive
import Ircd.Nick.Collide
import Ircd.Nick.RoundTrip
import Ircd.NetworkBurst
import Ircd.Channel.Join
import Ircd.Channel.Moves
import Ircd.Lib.Forest
import Ircd.Split.Quits
import Ircd.Conf.ConnectionCount
import Ircd.Conf.Pacing
import Ircd.Lib.Walk
import Ircd.Send.Echo
import Ircd.Gline.Majority
import Ircd.Gline.Quorum
import Ircd.Ban.Expiry
import Ircd.Ban.File
import Ircd.Ban.Placing
import Ircd.Ban.Reading
import Ircd.Ban.RoundTrip
import Ircd.Hostmask.Ownership
import Ircd.Lib.Frames
import Ircd.Linebuf.RawLines
import Ircd.Linebuf.SendQueue
import Ircd.Linebuf.Shape
import Ircd.Linebuf.SharedLines
import Ircd.Packet.Client
import Ircd.Packet.Flood
import Ircd.Servlink.Control
import Ircd.Servlink.ControlReader
import Ircd.Servlink.Handoff
import Ircd.Servlink.Relay
import Ircd.Servlink.ReplyReader
import Ircd.Channel.Invites
import Ircd.Event.Punctual
import Ircd.Lib.DoublyLinked
import Ircd.Resv.Reserved
import Ircd.Whowas.History
import Ircd.Ban.Unkline
import Ircd.Iauth.Framing
import Ircd.Nick.Ids
import Ircd.Channel.Teardown
import Ircd.LazyLink.Hub
import Ircd.LazyLink.Introduce
import Ircd.CryptLink.Authentication
import Ircd.Lib.Decimal
import Ircd.Routing.ClientTable
import Ircd.Routing.Hunt
import Ircd.Sprintf
import Ircd.Auth.Once
import Ircd.Lib.Blocks
import Ircd.Lib.Fresh
import Ircd.Message.Receivers
import Ircd.Oper.Challenge
import Ircd.Who.Marks
import Ircd.Lib.Machine
import Ircd.Channel.Bans
import Ircd.Channel.Collapse
import Ircd.Channel.MaskBuf
import Ircd.Invite.Delivery
import Ircd.Match.Answer
import Ircd.Match.Apart
import Ircd.Nick.Counts
import Ircd.Nick.Ghosts
import Ircd.Routing.Squit
import Ircd.Wire.Grammar
import Ircd.Channel.MaskTable
import Ircd.Hostmask.Written
import Ircd.Ban.Cluster
import Ircd.Ban.Named
import Ircd.Channel.BanUndo
import Ircd.Channel.Lifetime
import Ircd.Channel.MaskBurst
import Ircd.Channel.MaskLists
import Ircd.Channel.ModeAccess
import Ircd.Channel.Names
import Ircd.Channel.CapCombos
import Ircd.Channel.FinalMode
import Ircd.Channel.Key
import Ircd.Channel.OldServer
import Ircd.Channel.OldServerLines
import Ircd.Channel.OldServerModes
import Ircd.Conf.Classes
import Ircd.Hostmask.Format
import Ircd.Lib.Segments
import Ircd.Linebuf.Accounting
import Ircd.Message.Accept
import Ircd.Nick.UserModes
import Ircd.Tools.BlockHeap
import Ircd.Wire.CommandTable
import Ircd.Tools.Sequences
import Ircd.Tools.CleanString
import Ircd.Send.Traffic
