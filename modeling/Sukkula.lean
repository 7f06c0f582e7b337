import Sukkula.Config.Guarantees
import Sukkula.Consent.Delivery
import Sukkula.Inbox.Recovery
import Sukkula.LocalSend.Listening
import Sukkula.LocalSend.Pin
import Sukkula.Hub.Answered
import Sukkula.Hub.Stop
import Sukkula.Hub.Order
import Sukkula.Hub.Saved
import Sukkula.Croc.Complete
import Sukkula.Croc.Duplicates
import Sukkula.Croc.Send
import Sukkula.Croc.Exchange
import Sukkula.Wormhole.Guarded
import Sukkula.Store.Sweep
import Sukkula.Offer.Validate
import Sukkula.Name.Numbered
import Sukkula.Name.Cut
import Sukkula.Text.Lines
import Sukkula.Reach.Guarantees
import Sukkula.LocalSend.Notices
import Sukkula.Config.Servers
import Sukkula.Croc.Delivered
import Sukkula.Transfer.Saved
import Sukkula.Croc.Spelling
import Sukkula.Croc.Transcript
import Sukkula.Croc.Xxh64Reference
import Sukkula.Croc.Requests
import Sukkula.Croc.Wire
import Sukkula.QuickShare.Discovery
import Sukkula.Croc.Siec
import Sukkula.Croc.Names
import Sukkula.Scan.Typed
import Sukkula.LocalSend.Claims
import Sukkula.LocalSend.Leads
import Sukkula.QuickShare.Settled
import Sukkula.LocalSend.Deliver
import Sukkula.Transfer.Lifecycle
import Sukkula.Wormhole.Records
import Sukkula.Wormhole.Guards
import Sukkula.Hub.Encode
import Sukkula.Shell.Delivery
import Sukkula.Wormhole.Strict
import Sukkula.Bluetooth.Push
import Sukkula.Croc.Conn
import Sukkula.Transfer.Offers
import Sukkula.QuickShare.Payload
import Sukkula.QuickShare.Outbound
import Sukkula.QuickShare.Writes
import Sukkula.QuickShare.Send
import Sukkula.QuickShare.Sent
import Sukkula.QuickShare.Announced
import Sukkula.QuickShare.Inbound
import Sukkula.Library.Tasks
import Sukkula.Hub.Slots
import Sukkula.QuickShare.Accept
import Sukkula.QuickShare.Framing
import Sukkula.Bluetooth.Send
