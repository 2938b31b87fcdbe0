import TerminalCaps.Expansion.Session
import TerminalCaps.Search.Load
import TerminalCaps.Proofs.Entry.IdleBytes
import TerminalCaps.Proofs.Entry.NameMaps
import TerminalCaps.Proofs.Entry.Truncation
import TerminalCaps.Proofs.Expansion.Capacity
import TerminalCaps.Proofs.Expansion.Evaluation
import TerminalCaps.Proofs.Expansion.Failure
import TerminalCaps.Proofs.Expansion.History
import TerminalCaps.Proofs.Expansion.Termination
import TerminalCaps.Proofs.Expansion.Walking
import TerminalCaps.Proofs.Expansion.Zero
import TerminalCaps.Proofs.Search.Containment
import TerminalCaps.Proofs.Template.Printing
import TerminalCaps.Proofs.Search.Directories
import TerminalCaps.Proofs.Search.Leaves
import TerminalCaps.Proofs.Bytes.Integers
import TerminalCaps.Proofs.Expansion.ReadBack
import TerminalCaps.Proofs.Bytes.Atoi
import TerminalCaps.Proofs.Expansion.Parameters
import TerminalCaps.Proofs.Template.Targets
import TerminalCaps.Proofs.Template.Spans
