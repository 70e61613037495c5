import AdventureLogic.CommandLine.Session
import AdventureLogic.Main
import AdventureLogic.BlockGraph.Editor
import AdventureLogic.Program.Calls
import AdventureLogic.Proofs.Dominance.Tree
import AdventureLogic.Proofs.RoundTrip
import AdventureLogic.Proofs.Program.Closed
import AdventureLogic.Proofs.Program.Fixpoint
import AdventureLogic.Proofs.Program.Nesting
import AdventureLogic.Proofs.BlockGraph.Outline
import AdventureLogic.Proofs.BlockGraph.ControlFlow
import AdventureLogic.Proofs.BlockGraph.Resolved
import AdventureLogic.Proofs.Layout.Addresses
import AdventureLogic.Proofs.Layout.Progress
import AdventureLogic.Proofs.Layout.Placed
import AdventureLogic.Proofs.Program.Containment
import AdventureLogic.Proofs.Program.NormalForm
import AdventureLogic.Proofs.Program.Idempotence
import AdventureLogic.Proofs.Bytecode.Writable
import AdventureLogic.Proofs.BlockGraph.Extent
import AdventureLogic.Proofs.Failure
import AdventureLogic.Proofs.Bytecode.Accepted
import AdventureLogic.Proofs.Bytecode.Canonical
import AdventureLogic.Proofs.Program.Unbroken
import AdventureLogic.Proofs.Layout.Once
import AdventureLogic.Proofs.Dominance.PostDominance
import AdventureLogic.Proofs.Program.Labels
import AdventureLogic.Proofs.Layout.Labels
import AdventureLogic.Proofs.Program.Detours
import AdventureLogic.Proofs.Bytecode.JumpWords
import AdventureLogic.Proofs.Bytecode.Truncation
import AdventureLogic.Proofs.Bytecode.Negations
import AdventureLogic.Proofs.Dominance.StrayEdges
import AdventureLogic.Proofs.BlockGraph.Editing
import AdventureLogic.Proofs.Program.FailedCalls
import AdventureLogic.Proofs.Program.CollectedLabels
import AdventureLogic.Proofs.Dominance.RecursiveSearch
import AdventureLogic.Proofs.Dominance.SemidominatorPaths
import AdventureLogic.Proofs.Dominance.Compression
import AdventureLogic.Proofs.AddressHistory
import AdventureLogic.Proofs.Layout.WorkStack
import AdventureLogic.Proofs.LongRoundTrip
