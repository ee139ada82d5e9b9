import LenientR.Command
import LenientR.Expr.Literal
import LenientR.Main
import LenientR.Proofs.Gaps.Nodes
import LenientR.Proofs.Laying.Arena
import LenientR.Proofs.Laying.Spans
import LenientR.Proofs.Lists.Documents
import LenientR.Proofs.Lists.Isolation
import LenientR.Proofs.Lookup.Comments
import LenientR.Proofs.Lookup.Parents
import LenientR.Proofs.Lookup.Position
import LenientR.Proofs.Placement.Argument
import LenientR.Proofs.Placement.Joined
import LenientR.Proofs.Placement.Newlines
import LenientR.Proofs.Placement.Numbers
import LenientR.Proofs.Printing.RoundTrip
import LenientR.Proofs.Reading.Modes
import LenientR.Proofs.Scanning.Respaced
import LenientR.Proofs.Valid.Precedence
import LenientR.Proofs.Values.Numbers
import LenientR.Proofs.Values.Strings
import LenientR.Proofs.Lines.Table
import LenientR.Proofs.Names.Reading
import LenientR.Proofs.Report.Listing
