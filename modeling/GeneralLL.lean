import GeneralLL.Configuration
import GeneralLL.Forest.Dot
import GeneralLL.Grammar.Document
import GeneralLL.Parser.Report
import GeneralLL.Proofs.Acyclic
import GeneralLL.Proofs.Ambiguity
import GeneralLL.Proofs.BindingOrder
import GeneralLL.Proofs.CallTrees
import GeneralLL.Proofs.Careful
import GeneralLL.Proofs.ClassHistory
import GeneralLL.Proofs.Combinations
import GeneralLL.Proofs.Compilation
import GeneralLL.Proofs.Conditionals
import GeneralLL.Proofs.Consistency
import GeneralLL.Proofs.Continuations
import GeneralLL.Proofs.Counts
import GeneralLL.Proofs.Declarations
import GeneralLL.Proofs.Delivery
import GeneralLL.Proofs.Distance
import GeneralLL.Proofs.Documents
import GeneralLL.Proofs.Evaluation
import GeneralLL.Proofs.Exactness
import GeneralLL.Proofs.Extraction
import GeneralLL.Proofs.Faults
import GeneralLL.Proofs.ForestShape
import GeneralLL.Proofs.Furthest
import GeneralLL.Proofs.InRange
import GeneralLL.Proofs.Interruption
import GeneralLL.Proofs.Language
import GeneralLL.Proofs.Lines
import GeneralLL.Proofs.Lookbehind
import GeneralLL.Proofs.Quoting
import GeneralLL.Proofs.Recording
import GeneralLL.Proofs.Representations
import GeneralLL.Proofs.Rewriting
import GeneralLL.Proofs.Settling
import GeneralLL.Proofs.Sharing
import GeneralLL.Proofs.Termination
import GeneralLL.Proofs.Unfolding
import GeneralLL.Proofs.Yield
import GeneralLL.SlotGraph.Compile
import GeneralLL.Terminal.Run
