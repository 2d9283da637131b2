import FlatArchive.Main
import FlatArchive.Proofs.CommandLine.Listing
import FlatArchive.Proofs.Digest.Exchange
import FlatArchive.Proofs.Layout.Canonical
import FlatArchive.Proofs.Layout.Damage
import FlatArchive.Proofs.Layout.Delivery
import FlatArchive.Proofs.Layout.Locality
import FlatArchive.Proofs.Layout.Tiling
import FlatArchive.Proofs.Layout.Truncation
import FlatArchive.Proofs.Reader.Declared
import FlatArchive.Proofs.Reader.Exactness
import FlatArchive.Proofs.Reader.Extension
import FlatArchive.Proofs.Reader.Histories
import FlatArchive.Proofs.Reader.Programs
import FlatArchive.Proofs.Reader.Spans
import FlatArchive.Proofs.RoundTrip
import FlatArchive.Proofs.Transfer.Confinement
import FlatArchive.Proofs.Transfer.DryRun
import FlatArchive.Proofs.Transfer.Expansion
import FlatArchive.Proofs.Transfer.Overwriting
import FlatArchive.Proofs.Transfer.Refusals
import FlatArchive.Proofs.Transfer.Repetition
import FlatArchive.Proofs.Transfer.RoundTrip
import FlatArchive.Reader.Cursor
import FlatArchive.Reader.Machine
import FlatArchive.Text.Utf8.Lemmas
