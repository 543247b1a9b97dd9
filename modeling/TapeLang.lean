import TapeLang.Asserted
import TapeLang.Bracket
import TapeLang.Dump
import TapeLang.Main
import TapeLang.Trace
import TapeLang.Traversal
import TapeLang.World
import TapeLang.Proofs.Contract
import TapeLang.Proofs.Semantics
import TapeLang.Proofs.Grammar
import TapeLang.Proofs.Reading
import TapeLang.Proofs.NodeTable
import TapeLang.Proofs.Derivation
import TapeLang.Proofs.Interpretation
import TapeLang.Proofs.Lockstep
import TapeLang.Proofs.Placement
import TapeLang.Proofs.DirectExecution
import TapeLang.Proofs.AssemblyText
import TapeLang.Proofs.Correspondence
import TapeLang.Proofs.Compilation
import TapeLang.Proofs.Sequence
import TapeLang.Proofs.Comments
import TapeLang.Proofs.Safety
import TapeLang.Proofs.Faults
import TapeLang.Proofs.Flattening
import TapeLang.Proofs.Pairing
import TapeLang.Proofs.Visiting
import TapeLang.Proofs.Reporting
import TapeLang.Proofs.Enclosure
import TapeLang.Proofs.Folding
import TapeLang.Proofs.LimitedOutput
import TapeLang.Proofs.Truncation
import TapeLang.Proofs.LineCount
import TapeLang.Proofs.Outline
import TapeLang.Proofs.Unnoticed
import TapeLang.Proofs.UnreadInput
import TapeLang.Proofs.AssertedSource
import TapeLang.Proofs.AssertedTree
import TapeLang.Proofs.StraightLine
import TapeLang.Proofs.Measures
import TapeLang.Proofs.DefaultNames
import TapeLang.Proofs.SourceKept
import TapeLang.Proofs.LevelSpelling
