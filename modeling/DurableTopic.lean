import DurableTopic.Cursor.Schedule
import DurableTopic.Main
import DurableTopic.Repository.Schema
import DurableTopic.Repository.Server.Desk
import DurableTopic.Proofs.Ledger
import DurableTopic.Proofs.Memory
import DurableTopic.Proofs.Embedded
import DurableTopic.Proofs.Repository
import DurableTopic.Proofs.Cursors
import DurableTopic.Proofs.System
import DurableTopic.Proofs.Protocol
import DurableTopic.Proofs.Soundness
import DurableTopic.Proofs.Batching
import DurableTopic.Proofs.Play
import DurableTopic.Proofs.Coverage
import DurableTopic.Proofs.Acceptance
import DurableTopic.Proofs.Creation
import DurableTopic.Proofs.Acknowledgement
import DurableTopic.Proofs.Mishaps
import DurableTopic.Proofs.Backends
import DurableTopic.Proofs.Isolation
import DurableTopic.Proofs.Overlap
import DurableTopic.Proofs.Incarnations
import DurableTopic.Proofs.Freshness
import DurableTopic.Proofs.Autocommit
import DurableTopic.Proofs.Transactions
import DurableTopic.Proofs.Sequences
import DurableTopic.Proofs.Wire
import DurableTopic.Proofs.Publishing
import DurableTopic.Proofs.Service
import DurableTopic.Proofs.Undelivered
import DurableTopic.Proofs.Fidelity
import DurableTopic.Proofs.Waiting
import DurableTopic.Proofs.Reopening
import DurableTopic.Proofs.Restart
import DurableTopic.Proofs.Registry
import DurableTopic.Proofs.Passes
import DurableTopic.Proofs.Meanwhile
import DurableTopic.Proofs.Listening
import DurableTopic.Proofs.Contention
import DurableTopic.Proofs.Lines
import DurableTopic.Proofs.Damage
import DurableTopic.Proofs.Connections
import DurableTopic.Proofs.Metering
import DurableTopic.Proofs.Limits
import DurableTopic.Proofs.Literals
import DurableTopic.Proofs.Numerals
import DurableTopic.Proofs.Timeouts
import DurableTopic.Proofs.Settings
import DurableTopic.Proofs.Coherence
import DurableTopic.Proofs.Retries
import DurableTopic.Proofs.Turns
