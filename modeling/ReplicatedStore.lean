import ReplicatedStore.Lib.Run
import ReplicatedStore.Lib.Termination
import ReplicatedStore.Lib.Monitor
import ReplicatedStore.Lib.Map
import ReplicatedStore.Lib.Linearizability
import ReplicatedStore.Lib.Simulation
import ReplicatedStore.Lib.Decimal
import ReplicatedStore.Server
import ReplicatedStore.WakeUp
import ReplicatedStore.Frontend
import ReplicatedStore.Runs
import ReplicatedStore.Steps
import ReplicatedStore.Routing
import ReplicatedStore.Loops
import ReplicatedStore.LockBit
import ReplicatedStore.Barrier
import ReplicatedStore.PartialPut
import ReplicatedStore.Durability
import ReplicatedStore.Agreement
import ReplicatedStore.Joining
import ReplicatedStore.Rejoin
import ReplicatedStore.Linearization
import ReplicatedStore.LateWrites
import ReplicatedStore.Transfer
import ReplicatedStore.Stored
import ReplicatedStore.AddServer
import ReplicatedStore.Admission
import ReplicatedStore.Heartbeat
import ReplicatedStore.RunCluster
import ReplicatedStore.Ranges
import ReplicatedStore.Workers
import ReplicatedStore.Loading
import ReplicatedStore.Alarm
import ReplicatedStore.Replies
import ReplicatedStore.ReadBack
import ReplicatedStore.Printing
import ReplicatedStore.Throughput
import ReplicatedStore.ServerList
import ReplicatedStore.Answers
import ReplicatedStore.Sections
import ReplicatedStore.Rest
import ReplicatedStore.Membership
import ReplicatedStore.Processes
import ReplicatedStore.Testbed
import ReplicatedStore.Crashes
import ReplicatedStore.FixedMembership
