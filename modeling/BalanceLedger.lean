import BalanceLedger.Json.Parser
import BalanceLedger.Json.Printer
import BalanceLedger.Operation.Adjustment
import BalanceLedger.Operation.Posting
import BalanceLedger.Operation.Query
import BalanceLedger.Operation.Reservation
import BalanceLedger.Operation.Voiding
import BalanceLedger.Outbox.Maintenance
import BalanceLedger.Outbox.Processor
import BalanceLedger.Proofs.Announcement
import BalanceLedger.Proofs.Arithmetic
import BalanceLedger.Proofs.Batches
import BalanceLedger.Proofs.Cancellation
import BalanceLedger.Proofs.Configuration
import BalanceLedger.Proofs.Connection
import BalanceLedger.Proofs.Conservation
import BalanceLedger.Proofs.Contention
import BalanceLedger.Proofs.Coverage
import BalanceLedger.Proofs.Dating
import BalanceLedger.Proofs.Deliveries
import BalanceLedger.Proofs.Draining
import BalanceLedger.Proofs.Fanout
import BalanceLedger.Proofs.Fencing
import BalanceLedger.Proofs.Fidelity
import BalanceLedger.Proofs.Idempotency
import BalanceLedger.Proofs.Identity
import BalanceLedger.Proofs.Leases
import BalanceLedger.Proofs.Linearizability
import BalanceLedger.Proofs.Messages
import BalanceLedger.Proofs.OldestFirst
import BalanceLedger.Proofs.Ordering
import BalanceLedger.Proofs.Paging
import BalanceLedger.Proofs.Payload
import BalanceLedger.Proofs.Preemption
import BalanceLedger.Proofs.Retention
import BalanceLedger.Proofs.RoundTrip
import BalanceLedger.Proofs.Rows
import BalanceLedger.Proofs.Separation
import BalanceLedger.Proofs.Signalling
import BalanceLedger.Proofs.Statement
import BalanceLedger.Proofs.Tokens
import BalanceLedger.Proofs.Truthfulness
import BalanceLedger.Proofs.Verdicts
import BalanceLedger.Proofs.Wakeups
import BalanceLedger.Settings
import BalanceLedger.Sql.Schema
import BalanceLedger.Sql.Store
import BalanceLedger.StopSignal
import BalanceLedger.Store.Memory
import BalanceLedger.WireFormat
