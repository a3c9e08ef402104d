import Texelwise.Proofs.Session.Aliasing
import Texelwise.Proofs.Expansion.Image
import Texelwise.Proofs.Program.Block
import Texelwise.Proofs.Program.Coordinates
import Texelwise.Proofs.Session.Steps
import Texelwise.Proofs.Session.Uploads
import Texelwise.Proofs.Session.Extents
import Texelwise.Proofs.Expansion.Reading
import Texelwise.Proofs.Expansion.Compose
import Texelwise.Proofs.Expansion.Spacing
import Texelwise.Proofs.Expansion.Probes
import Texelwise.Proofs.Pattern.Sweep
import Texelwise.Proofs.Expansion.Patterns
import Texelwise.Proofs.Expansion.Passes
import Texelwise.Proofs.Expansion.Rounds
import Texelwise.Proofs.Expansion.Merge
import Texelwise.Proofs.Source.Declarations
import Texelwise.Proofs.Source.Header
import Texelwise.Proofs.Source.Program
import Texelwise.Proofs.Source.Interface
import Texelwise.Proofs.Source.Stages
import Texelwise.Proofs.Source.Thread
import Texelwise.Proofs.Source.Compile
import Texelwise.Proofs.Kernel.Totality
import Texelwise.Proofs.Pattern.Ranges
import Texelwise.Proofs.Source.Inspection
import Texelwise.Proofs.Program.Creation
import Texelwise.Proofs.Program.LastValues
import Texelwise.Proofs.Program.Checks
import Texelwise.Proofs.Expansion.Words
import Texelwise.Proofs.Session.Attachments
import Texelwise.Proofs.Source.Closure
import Texelwise.Proofs.Program.Layout
import Texelwise.Proofs.Program.Contents
import Texelwise.Proofs.Source.Uniqueness
import Texelwise.Proofs.Session.Effects
import Texelwise.Proofs.Kernel.Fixpoint
import Texelwise.Proofs.Pattern.Greedy
import Texelwise.Proofs.Pattern.Scanning
import Texelwise.Proofs.Pattern.ZeroLength
import Texelwise.Proofs.Kernel.RangeCheck
import Texelwise.Proofs.Token.Munch
import Texelwise.Proofs.Pattern.Captures
import Texelwise.Proofs.Session.Capacity
import Texelwise.Proofs.Token.Hexadecimal
import Texelwise.Proofs.Pattern.Cuts
import Texelwise.Proofs.Pattern.Brackets
import Texelwise.Proofs.Expansion.Operands
import Texelwise.Proofs.Source.Literals
import Texelwise.Proofs.Buffer.Numbering
import Texelwise.Proofs.Buffer.Bytes
import Texelwise.Proofs.Buffer.InPlace
import Texelwise.Proofs.Buffer.Filling
import Texelwise.Proofs.Buffer.Views
import Texelwise.Proofs.Session.Dimensions
import Texelwise.Proofs.Buffer.Correction
import Texelwise.Proofs.Kernel.GlobalNames
import Texelwise.Proofs.Pattern.Printing
import Texelwise.Proofs.Kernel.Boundaries
