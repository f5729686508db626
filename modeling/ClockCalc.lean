import ClockCalc.Files.Disk
import ClockCalc.Main
import ClockCalc.Proofs.Except
import ClockCalc.Proofs.Tree
import ClockCalc.Proofs.Grammar
import ClockCalc.Proofs.Parsing
import ClockCalc.Proofs.Sentences
import ClockCalc.Proofs.Kinds
import ClockCalc.Proofs.Execution
import ClockCalc.Proofs.Literals
import ClockCalc.Proofs.Terms
import ClockCalc.Proofs.Listing
import ClockCalc.Proofs.Decoding
import ClockCalc.Proofs.Surplus
import ClockCalc.Proofs.Inventory
import ClockCalc.Proofs.Traces
import ClockCalc.Proofs.Scanning
import ClockCalc.Proofs.Unreadable
import ClockCalc.Proofs.Placement
import ClockCalc.Proofs.Spacing
import ClockCalc.Proofs.Reductions
import ClockCalc.Proofs.Faults
import ClockCalc.Proofs.Nesting
import ClockCalc.Proofs.Positions
import ClockCalc.Proofs.Amounts
import ClockCalc.Proofs.Scaling
import ClockCalc.Proofs.Numerals
import ClockCalc.Proofs.Spans
import ClockCalc.Proofs.Reentry
import ClockCalc.Proofs.Powers
import ClockCalc.Proofs.Exact
import ClockCalc.Proofs.Ranks
import ClockCalc.Proofs.Finite
import ClockCalc.Proofs.Shown
import ClockCalc.Proofs.Hundredths
import ClockCalc.Proofs.Decimals
import ClockCalc.Proofs.FullText
import ClockCalc.Proofs.Oversized
import ClockCalc.Proofs.Truncation
import ClockCalc.Proofs.Words
import ClockCalc.Proofs.Paths
import ClockCalc.Proofs.Moves
import ClockCalc.Proofs.NewNames
import ClockCalc.Proofs.Passes
import ClockCalc.Proofs.Renumbering
import ClockCalc.Proofs.ByteOrder
import ClockCalc.Proofs.Renumbered
import ClockCalc.Proofs.Repeated
import ClockCalc.Proofs.Obstacles
