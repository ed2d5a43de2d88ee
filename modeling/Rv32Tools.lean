import Rv32Tools.Main
import Rv32Tools.Proofs.Text.Patch
import Rv32Tools.Proofs.Source.Bytes
import Rv32Tools.Proofs.Assembly.Relocation
import Rv32Tools.Proofs.Assembly.Data
import Rv32Tools.Proofs.Assembly.Emitted
import Rv32Tools.Proofs.Assembly.Image
import Rv32Tools.Proofs.Assembly.Framing
import Rv32Tools.Proofs.Ram.DataImage
import Rv32Tools.Proofs.Assembly.Sections
import Rv32Tools.Proofs.Assembly.Addresses
import Rv32Tools.Proofs.Isa.Fields
import Rv32Tools.Proofs.Isa.Machine
import Rv32Tools.Proofs.Isa.Decoding
import Rv32Tools.Proofs.Assembly.DataBounds
import Rv32Tools.Proofs.Assembly.Execution
import Rv32Tools.Proofs.Assembly.Aborts
import Rv32Tools.Proofs.Assembly.OneLine
import Rv32Tools.Proofs.Assembly.PositionIndependence
import Rv32Tools.Proofs.Assembly.Pairing
import Rv32Tools.Proofs.Source.Calls
import Rv32Tools.Proofs.Assembly.Renumbering
import Rv32Tools.Proofs.Source.Numerals
import Rv32Tools.Proofs.Assembly.Reassembly
import Rv32Tools.Proofs.Assembly.CallLines
import Rv32Tools.Proofs.Assembly.LoadForms
import Rv32Tools.Proofs.Files.Tree
import Rv32Tools.Proofs.Tools.FlatBinaries
import Rv32Tools.Proofs.Assembly.Options
import Rv32Tools.Proofs.Assembly.LineNumbers
import Rv32Tools.Proofs.Assembly.BlankLines
import Rv32Tools.Proofs.Tools.Batch
import Rv32Tools.Proofs.Assembly.DataLabels
import Rv32Tools.Proofs.Source.Columns
import Rv32Tools.Proofs.Source.Strings
import Rv32Tools.Proofs.Assembly.DataStrings
import Rv32Tools.Proofs.Assembly.DataValues
import Rv32Tools.Proofs.Assembly.SectionGrammar
import Rv32Tools.Proofs.Assembly.Reach
import Rv32Tools.Proofs.Ram.Banks
import Rv32Tools.Proofs.Source.Layout
import Rv32Tools.Proofs.Source.Operands
import Rv32Tools.Proofs.Source.Spelling
import Rv32Tools.Proofs.Isa.Disassembly
import Rv32Tools.Proofs.Assembly.Resolution
import Rv32Tools.Proofs.Files.Path
import Rv32Tools.Proofs.Tools.OutputPaths
import Rv32Tools.Proofs.Source.SingleBlanks
import Rv32Tools.Proofs.Source.Cuts
