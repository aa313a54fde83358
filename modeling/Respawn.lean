import Respawn.ByteStr
import Respawn.FileTree
import Respawn.StateLogic
import Respawn.Kernel
import Respawn.Basic
import Respawn.Records
import Respawn.Store
import Respawn.Snapshot
import Respawn.Drift
import Respawn.Revert
import Respawn.Surgical
import Respawn.Audit
import Respawn.Apply
import Respawn.Confinement
import Respawn.Capture
import Respawn.RoundTrip
import Respawn.Gate
import Respawn.Keychain
import Respawn.Purge
import Respawn.AuditRun
import Respawn.Sync
import Respawn.Contents
import Respawn.Walk
import Respawn.Withdrawal
import Respawn.Admission
import Respawn.Fetch
import Respawn.Completeness
import Respawn.Commands
import Respawn.Fleet
import Respawn.Crash
import Respawn.Interleaving
import Respawn.Anchors
import Respawn.Guarded
import Respawn.Loading
import Respawn.Delivery
import Respawn.Keygen
import Respawn.Obstacles
import Respawn.Orders
import Respawn.Runs
import Respawn.Erasure
import Respawn.Versions
import Respawn.Json
import Respawn.Payloads
import Respawn.Secure
import Respawn.Undo
import Respawn.Landing
import Respawn.Agreement
import Respawn.Sweep
import Respawn.Boundary
import Respawn.Quiescence
import Respawn.Answers
import Respawn.Framing
import Respawn.Readback
import Respawn.Spelling
import Respawn.Checkpoint
import Respawn.TornLog
import Respawn.Location
import Respawn.Schedule
import Respawn.Lineage
import Respawn.Calendar
import Respawn.Timestamps
import Respawn.Admin
import Respawn.Xml
import Respawn.LaunchAgent
import Respawn.Conversation
import Respawn.Rounds
import Respawn.Identity
import Respawn.Leftovers
import Respawn.Invariants
import Respawn.Permanence
import Respawn.Certificates
import Respawn.Duplex
import Respawn.Listener
import Respawn.Sockets
import Respawn.Server
import Respawn.Durability
import Respawn.Trespass

