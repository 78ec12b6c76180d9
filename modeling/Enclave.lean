import Enclave.Data.SortedSet
import Enclave.Data.SortedMap
import Enclave.Data.Sorting
import Enclave.Data.Search
import Enclave.Overflow
import Enclave.Source.Location
import Enclave.Problem
import Enclave.Level.Lattice
import Enclave.Program.Declared
import Enclave.Level.Label
import Enclave.Dependence.Kinds
import Enclave.Dependence.Graph
import Enclave.Dependence.Build
import Enclave.Dependence.Paths
import Enclave.Propagation.Origin
import Enclave.Propagation.Witness
import Enclave.Propagation.Budget
import Enclave.Propagation.Spread
import Enclave.Propagation.Components
import Enclave.Text.Uppercase
import Enclave.Partition.Outcome
import Enclave.Partition.Assignment
import Enclave.Partition.Remedy
import Enclave.Partition.Explanation
import Enclave.Partition.Analysis
import Enclave.Json.Basic
import Enclave.Json.Text
import Enclave.Json.Printer
import Enclave.Json.Reader
import Enclave.Json.Range
import Enclave.Json.Record
import Enclave.Format.Source
import Enclave.Format.Program
import Enclave.Format.Outcome
import Enclave.Text.Hex
import Enclave.Files.Path
import Enclave.Files.Suffix
import Enclave.Report.Trace
import Enclave.Report.Digest
import Enclave.Report.Diagnostics
import Enclave.Channel.Endpoint
import Enclave.Channel.Frame
import Enclave.Channel.Exchange
import Enclave.Files.Walk
import Enclave.Files.Tree
import Enclave.Files.Inputs
import Enclave.Files.Discovery
import Enclave.Toml.Basic
import Enclave.Toml.Text
import Enclave.Toml.Reader
import Enclave.Files.Access
import Enclave.Command.Settings
import Enclave.Command.Arguments
import Enclave.Command.Help
import Enclave.Command.Run
import Enclave.Main
import Enclave.Proofs.Collections
import Enclave.Proofs.Order
import Enclave.Proofs.OrderMatrix
import Enclave.Proofs.DeclaredOrder
import Enclave.Proofs.Bounds
import Enclave.Proofs.Components
import Enclave.Proofs.Receiving
import Enclave.Proofs.Arrival
import Enclave.Proofs.Reaching
import Enclave.Proofs.Distance
import Enclave.Proofs.Delivering
import Enclave.Proofs.Running
import Enclave.Proofs.Solving
import Enclave.Proofs.Building
import Enclave.Proofs.Preparing
import Enclave.Proofs.Consistency
import Enclave.Proofs.Soundness
import Enclave.Proofs.Exactness
import Enclave.Proofs.Reporting
import Enclave.Proofs.Termination
import Enclave.Proofs.Witnesses
import Enclave.Proofs.Evidence
import Enclave.Proofs.Metering
import Enclave.Proofs.Stages
import Enclave.Proofs.Merging
import Enclave.Proofs.Decomposition
import Enclave.Proofs.Scheduling
import Enclave.Proofs.Twins
import Enclave.Proofs.Agreement
import Enclave.Proofs.Relisting
import Enclave.Proofs.Taints
import Enclave.Proofs.Extending
import Enclave.Proofs.Editing
import Enclave.Proofs.Representation
import Enclave.Proofs.Store
import Enclave.Proofs.Arena
import Enclave.Proofs.Depiction
import Enclave.Proofs.Sites
import Enclave.Proofs.Spelling
import Enclave.Proofs.RoundTrip
import Enclave.Proofs.Accesses
import Enclave.Proofs.Admissible
import Enclave.Proofs.ShortestPaths
import Enclave.Proofs.Tracing
import Enclave.Proofs.Settling
import Enclave.Proofs.Provenance
import Enclave.Proofs.Nearest
import Enclave.Proofs.Sources
import Enclave.Proofs.Clashes
import Enclave.Proofs.Queueing
import Enclave.Proofs.LeastPaths
import Enclave.Proofs.Sweeping
import Enclave.Proofs.Marking
import Enclave.Proofs.Acceptance
import Enclave.Proofs.Connectivity
import Enclave.Proofs.Gathering
import Enclave.Proofs.Listing
import Enclave.Proofs.Loading
import Enclave.Proofs.Explaining
import Enclave.Proofs.Placing
import Enclave.Proofs.Framing
import Enclave.Proofs.Addressing
import Enclave.Proofs.Paths
import Enclave.Proofs.FileNames
import Enclave.Proofs.Discovering
import Enclave.Proofs.Publishing
import Enclave.Proofs.Deduplication
import Enclave.Proofs.Accounting
