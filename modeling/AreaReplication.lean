import AreaReplication.Bits.Field
import AreaReplication.Command.Inspection
import AreaReplication.Command.Simulation
import AreaReplication.Json.Parser
import AreaReplication.Log
import AreaReplication.Session
import AreaReplication.Main
import AreaReplication.Proofs.Names
import AreaReplication.Proofs.Outbox
import AreaReplication.Proofs.Path
import AreaReplication.Proofs.Replica
import AreaReplication.Proofs.Table
import AreaReplication.Proofs.Core
import AreaReplication.Proofs.Play
import AreaReplication.Proofs.Ledger
import AreaReplication.Proofs.IdReuse
import AreaReplication.Proofs.EchoSafety
import AreaReplication.Proofs.Exchange
import AreaReplication.Proofs.ReferenceClient
import AreaReplication.Proofs.SimulatedClient
import AreaReplication.Proofs.Bits
import AreaReplication.Proofs.Layout
import AreaReplication.Proofs.Removal
import AreaReplication.Proofs.RoundTrip
import AreaReplication.Proofs.Size
import AreaReplication.Proofs.OutboxRun
import AreaReplication.Proofs.Delivery
import AreaReplication.Proofs.MessageSize
import AreaReplication.Proofs.Acks
import AreaReplication.Proofs.Matching
import AreaReplication.Proofs.ReplicaRun
import AreaReplication.Proofs.AckOrder
import AreaReplication.Proofs.Ingestion
import AreaReplication.Proofs.Timely
import AreaReplication.Proofs.Lifecycle
import AreaReplication.Proofs.Canonical
import AreaReplication.Proofs.Headers
import AreaReplication.Proofs.Objects
import AreaReplication.Proofs.Visibility
import AreaReplication.Proofs.ZoneNumbers
import AreaReplication.Proofs.Concerted
import AreaReplication.Proofs.BlockOrder
import AreaReplication.Proofs.Reception
import AreaReplication.Proofs.Oversize
import AreaReplication.Proofs.Settled
import AreaReplication.Proofs.FailedSends
import AreaReplication.Proofs.ReplicaInvariant
import AreaReplication.Proofs.Retention
import AreaReplication.Proofs.Allocation
import AreaReplication.Proofs.WindowNumbers
import AreaReplication.Proofs.Ping
import AreaReplication.Proofs.Estimates
import AreaReplication.Proofs.Limits
import AreaReplication.Proofs.Delimiting
import AreaReplication.Proofs.Fields
import AreaReplication.Proofs.Varint
import AreaReplication.Proofs.History
