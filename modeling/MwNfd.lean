import MwNfd.Name
import MwNfd.NameOrder
import MwNfd.Pit
import MwNfd.Strategy.InstanceName
import MwNfd.Strategy.Registry
import MwNfd.Strategy.Registration
import MwNfd.Strategy.Actions
import MwNfd.Strategy.LookupFib
import MwNfd.Transport.Internal
import MwNfd.Transport.Tlv
import MwNfd.Transport.Stream
import MwNfd.Transport.InternalPacket
import MwNfd.Transport.StreamReceive
import MwNfd.Transport.StreamWrite
import MwNfd.Transport.StreamOrder
import MwNfd.Transport.StreamDeliver
import MwNfd.Mgmt.ForwarderStatus
