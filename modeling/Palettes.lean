import Palettes.Main
import Palettes.Proofs.Success
import Palettes.Proofs.Recording
import Palettes.Proofs.Fault
import Palettes.Proofs.Replay
import Palettes.Proofs.History
import Palettes.Proofs.Assembly
import Palettes.Proofs.Merging
import Palettes.Proofs.Tidiness
import Palettes.Proofs.Window
import Palettes.Proofs.Linearisation
import Palettes.Proofs.Extension
import Palettes.Proofs.Transcript
import Palettes.Proofs.Locality
import Palettes.Proofs.Nesting
import Palettes.Proofs.MergeLaws
import Palettes.Proofs.RoundTrip
import Palettes.Proofs.ExitCode
import Palettes.Proofs.Grammar
import Palettes.Proofs.Placing
import Palettes.Proofs.Truncation
import Palettes.Proofs.Naming
import Palettes.Proofs.Reserved
import Palettes.Proofs.Validation
import Palettes.Proofs.Ascent
import Palettes.Proofs.Printing
import Palettes.Proofs.Files
