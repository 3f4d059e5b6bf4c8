import SqlLayout.CommandLine
import SqlLayout.Main
import SqlLayout.Proofs.Aligned
import SqlLayout.Proofs.CaseReading
import SqlLayout.Proofs.Collapse
import SqlLayout.Proofs.CommandForm
import SqlLayout.Proofs.Commands
import SqlLayout.Proofs.Commas
import SqlLayout.Proofs.Conjunctions
import SqlLayout.Proofs.DefinitionList
import SqlLayout.Proofs.Depth
import SqlLayout.Proofs.Failing
import SqlLayout.Proofs.Flattening
import SqlLayout.Proofs.LetterCase
import SqlLayout.Proofs.LineEnds
import SqlLayout.Proofs.Names
import SqlLayout.Proofs.Remarks
import SqlLayout.Proofs.Repeating
import SqlLayout.Proofs.Retyping
import SqlLayout.Proofs.Sequence
import SqlLayout.Proofs.Spacing
import SqlLayout.Proofs.Strokes
import SqlLayout.Proofs.Threshold
import SqlLayout.Proofs.Unquoted
