import LeoFront.Main
import LeoFront.Proofs.Check.Enclosure
import LeoFront.Proofs.Check.Independence
import LeoFront.Proofs.Check.KnownNames
import LeoFront.Proofs.Check.Members
import LeoFront.Proofs.Check.Places
import LeoFront.Proofs.Check.SharedHandler
import LeoFront.Proofs.Check.WrittenTypes
import LeoFront.Proofs.Command.Failing
import LeoFront.Proofs.Completion.Files
import LeoFront.Proofs.Covering.Files
import LeoFront.Proofs.Lexical.Types
import LeoFront.Proofs.Program.SourceOrder
import LeoFront.Proofs.Resolution.Confinement
import LeoFront.Proofs.Resolution.Distribution
import LeoFront.Proofs.Resolution.ImportCycles
import LeoFront.Proofs.Resolution.KnownCircuits
import LeoFront.Proofs.Resolution.Location
import LeoFront.Proofs.Resolution.Lookup
import LeoFront.Proofs.Resolution.SharedNames
import LeoFront.Proofs.Resolution.Termination
import LeoFront.Proofs.RoundTrip.Files
import LeoFront.Proofs.Spacing.Joining
