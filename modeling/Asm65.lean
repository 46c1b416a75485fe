import Asm65.Main
import Asm65.Program.Edit
import Asm65.Proofs.Assembly
import Asm65.Proofs.Failures
import Asm65.Proofs.Lengths
import Asm65.Proofs.Lexemes
import Asm65.Proofs.Readers
import Asm65.Proofs.Lines
import Asm65.Proofs.SyntaxErrors
import Asm65.Proofs.Grammar
import Asm65.Proofs.Derivations
import Asm65.Proofs.Printing
import Asm65.Proofs.IncludeLines
import Asm65.Proofs.Places
import Asm65.Proofs.TextualInclusion
import Asm65.Proofs.Cycles
import Asm65.Proofs.Commands
import Asm65.Proofs.FileTrees
import Asm65.Proofs.MapFiles
import Asm65.Proofs.Offsets
import Asm65.Proofs.Relocation
import Asm65.Proofs.FreshLabels
import Asm65.Proofs.Selection
import Asm65.Proofs.Joining
import Asm65.Proofs.Literals
import Asm65.Proofs.Tiling
import Asm65.Proofs.BareLines
import Asm65.Proofs.Spacing
import Asm65.Proofs.Recasing
import Asm65.Proofs.SourceMaps
import Asm65.Proofs.Positions
import Asm65.Proofs.PrefixCode
import Asm65.Proofs.SymbolFiles
