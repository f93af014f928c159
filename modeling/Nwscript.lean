import Nwscript.Main
import Nwscript.Proofs.Code.Calls
import Nwscript.Proofs.Object.Listing
import Nwscript.Token.Listing
import Nwscript.Proofs.Include.Loading
import Nwscript.Proofs.Include.Closure
import Nwscript.Proofs.Include.Expansion
import Nwscript.Proofs.Include.Skipping
import Nwscript.Proofs.Unit.Outcome
import Nwscript.Proofs.Unit.Batch
import Nwscript.Proofs.Unit.Strings
import Nwscript.Proofs.Token.Numerals
import Nwscript.Proofs.Code.Linking
import Nwscript.Proofs.Machine.IntCode
import Nwscript.Proofs.Blind.Directives
import Nwscript.Proofs.Trace.Operands
import Nwscript.Proofs.Print.Program
import Nwscript.Proofs.Control.Returns
import Nwscript.Proofs.Typing.Defaults
import Nwscript.Proofs.Typing.Early
import Nwscript.Proofs.Engine.Types
import Nwscript.Proofs.Code.Tables
import Nwscript.Proofs.Code.Structs
