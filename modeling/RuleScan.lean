import RuleScan.Main
import RuleScan.Expr.Printer
import RuleScan.Proofs.Evaluation.Balance
import RuleScan.Proofs.Evaluation.Caching
import RuleScan.Proofs.Evaluation.Folding
import RuleScan.Proofs.Scan.Forest
import RuleScan.Proofs.Files.Segments
import RuleScan.Proofs.Files.Tree
import RuleScan.Proofs.Files.Walk
import RuleScan.Proofs.Files.Change
import RuleScan.Proofs.Files.Output
import RuleScan.Proofs.Files.Fresh
import RuleScan.Proofs.Evaluation.Attempts
import RuleScan.Proofs.Evaluation.Deposit
import RuleScan.Proofs.Evaluation.Ledger
import RuleScan.Proofs.Scan.Visits
import RuleScan.Proofs.Scan.Telling
import RuleScan.Proofs.Scan.Duplicates
import RuleScan.Proofs.Scan.Keeping
import RuleScan.Proofs.Scan.Preorder
import RuleScan.Proofs.Scan.Children
import RuleScan.Proofs.Scan.Outline
import RuleScan.Proofs.Scan.Tracking
import RuleScan.Proofs.Scan.Extraction
import RuleScan.Proofs.Evaluation.Running
import RuleScan.Proofs.Evaluation.Composition
import RuleScan.Proofs.Evaluation.Isolation
import RuleScan.Proofs.Evaluation.Recording
import RuleScan.Proofs.Evaluation.Forcing
import RuleScan.Proofs.Evaluation.Snapshot
import RuleScan.Proofs.Evaluation.MatchTree
import RuleScan.Proofs.Scan.Aborting
import RuleScan.Proofs.Scan.Termination
import RuleScan.Proofs.Expr.Nodes
import RuleScan.Proofs.Expr.Simplified
import RuleScan.Proofs.Expr.Irreducible
import RuleScan.Proofs.Reading.Yields
import RuleScan.Proofs.Rule.Collection
import RuleScan.Proofs.Rule.Attaching
import RuleScan.Proofs.Rule.Closing
import RuleScan.Proofs.Rule.Linking
import RuleScan.Proofs.Rule.Inheritance
import RuleScan.Proofs.Rule.Kinship
import RuleScan.Proofs.Evaluation.Faults
import RuleScan.Proofs.Reading.Operands
import RuleScan.Proofs.Reading.RoundTrip
import RuleScan.Proofs.Evaluation.Accounting
import RuleScan.Proofs.Evaluation.Blaming
import RuleScan.Proofs.Evaluation.Cycles
import RuleScan.Proofs.Reading.Tiling
import RuleScan.Proofs.Reading.Respelling
import RuleScan.Proofs.Rule.Unsourced
import RuleScan.Proofs.Reading.Splicing
import RuleScan.Proofs.Rule.Joining
import RuleScan.Proofs.Reading.Counting
import RuleScan.Proofs.Reading.Climbing
import RuleScan.Proofs.Evaluation.Constant
import RuleScan.Proofs.Reading.Stopping
import RuleScan.Proofs.Value.Exact
import RuleScan.Proofs.Value.Division
import RuleScan.Proofs.Reading.Negation
import RuleScan.Proofs.Evaluation.Extracting
import RuleScan.Proofs.Files.Standing
import RuleScan.Proofs.Evaluation.Chunks
import RuleScan.Proofs.Evaluation.Positions
import RuleScan.Proofs.Evaluation.Carving
import RuleScan.Proofs.CommandLine.Integers
import RuleScan.Proofs.Files.Naming
import RuleScan.Proofs.Rule.Passes
import RuleScan.Proofs.Scan.Ordering
import RuleScan.Proofs.Expr.Height
import RuleScan.Proofs.Reading.Affording
import RuleScan.Proofs.Evaluation.Avoiding
import RuleScan.Proofs.Evaluation.Unfolding
import RuleScan.Proofs.Evaluation.Levels
import RuleScan.Proofs.Expr.Written
import RuleScan.Proofs.Reading.Budget
import RuleScan.Proofs.Reading.Calling
