import Patricia.Hex.Parse
import Patricia.Keccak.Sponge
import Patricia.Rlp.Decode
import Patricia.Path.Compact
import Patricia.Node.Basic
import Patricia.Node.Render
import Patricia.Check
import Patricia.Store.Session
import Patricia.Json.Parse
import Patricia.Main
import Patricia.Proofs.Node.Decode
import Patricia.Proofs.Check.HashChain
import Patricia.Proofs.Check.FirstFault
import Patricia.Proofs.Store.Growth
import Patricia.Proofs.Store.Learning
import Patricia.Proofs.Store.Backing
import Patricia.Proofs.Store.History
import Patricia.Proofs.Store.Frame
import Patricia.Proofs.Node.Places
import Patricia.Proofs.Store.Forest
import Patricia.Proofs.Store.Sharing
import Patricia.Proofs.Check.Built
import Patricia.Proofs.Check.Knowledge
import Patricia.Proofs.Store.Accumulation
import Patricia.Proofs.Path.Compact
import Patricia.Proofs.Rlp.Canonical
import Patricia.Proofs.Node.Form
import Patricia.Proofs.Check.Binding
import Patricia.Proofs.Check.Faults
import Patricia.Proofs.Store.FirstSlot
import Patricia.Proofs.Cli.Overwriting
import Patricia.Proofs.Cli.Report
import Patricia.Proofs.Check.Route
import Patricia.Proofs.Check.Steps
import Patricia.Proofs.Check.Mode
import Patricia.Proofs.Path.Bare
import Patricia.Proofs.Node.Encodings
import Patricia.Proofs.Node.Rejection
import Patricia.Proofs.Path.Packing
import Patricia.Proofs.Path.Padding
import Patricia.Proofs.Hex.Spelling
import Patricia.Proofs.Cli.Loading
import Patricia.Proofs.Cli.Verbosity
import Patricia.Proofs.Node.Rendering
import Patricia.Proofs.Store.EmptyTrie
