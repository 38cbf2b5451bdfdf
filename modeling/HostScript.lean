import HostScript.Host.Scripted
import HostScript.Main
import HostScript.Proofs.Boundaries
import HostScript.Proofs.Debugger
import HostScript.Proofs.Faults
import HostScript.Proofs.Literals
import HostScript.Proofs.Steady
import HostScript.Proofs.Unambiguous
import HostScript.Script.Outline
import HostScript.Proofs.ImportRuns
import HostScript.Proofs.Watchers
import HostScript.Proofs.LoadedFiles
import HostScript.Proofs.SymbolNumbers
import HostScript.Proofs.Gapless
import HostScript.Proofs.ControlFlow
import HostScript.Proofs.Unassigned
import HostScript.Proofs.Integers
import HostScript.Proofs.Hierarchy
import HostScript.Proofs.Overflow
import HostScript.Proofs.Shorthand
import HostScript.Proofs.Unfolded
import HostScript.Proofs.Quotes
import HostScript.Proofs.IntegerText
import HostScript.Proofs.Reachability
import HostScript.Proofs.Scopes
import HostScript.Proofs.Splicing
import HostScript.Proofs.Frames
import HostScript.Proofs.Places
import HostScript.Proofs.Precedence
