import ViewStream.Main
import ViewStream.View.Event
import ViewStream.Proofs.Document.Modes
import ViewStream.Proofs.Session.Ledger
import ViewStream.Proofs.Session.Run
import ViewStream.Proofs.Session.Streaming
import ViewStream.Proofs.Session.Strictness
import ViewStream.Proofs.Session.Journal
import ViewStream.Proofs.Session.Calls
import ViewStream.Proofs.Session.Snapshot
import ViewStream.Proofs.Session.LifeCycle
import ViewStream.Proofs.Check
import ViewStream.Proofs.Pointer
import ViewStream.Proofs.View.Outline
import ViewStream.Proofs.View.Scope
import ViewStream.Proofs.View.Bindings
import ViewStream.Proofs.View.Chain
import ViewStream.Proofs.View.Nesting
import ViewStream.Proofs.View.Pruning
import ViewStream.Proofs.View.Gaps
import ViewStream.Proofs.View.Slots
import ViewStream.Proofs.View.Drawing
import ViewStream.Proofs.Text.Utf8
import ViewStream.Proofs.Json.RoundTrip
import ViewStream.Proofs.Patch.Stream
import ViewStream.Proofs.Session.Seeding
import ViewStream.Proofs.Spec.NormalForm
import ViewStream.Proofs.Spec.RoundTrip
import ViewStream.Proofs.Document.Lookup
import ViewStream.Proofs.Document.Walk
import ViewStream.Proofs.Document.Hindrance
import ViewStream.Proofs.Document.ReadBack
import ViewStream.Proofs.Document.Location
import ViewStream.Proofs.View.Mentions
import ViewStream.Proofs.Document.Frame
import ViewStream.Proofs.Document.Independent
import ViewStream.Proofs.Document.Adding
import ViewStream.Proofs.View.Plain
import ViewStream.Proofs.View.Template
import ViewStream.Proofs.Text.Lossy
import ViewStream.Proofs.Patch.Lines
import ViewStream.Proofs.Patch.Numbering
import ViewStream.Proofs.View.Equality
import ViewStream.Proofs.Session.LastLine
import ViewStream.Proofs.View.Printed
import ViewStream.Proofs.Double.Rounding
import ViewStream.Proofs.Double.Text
import ViewStream.Proofs.Json.Unambiguous
import ViewStream.Proofs.View.Keys
import ViewStream.Proofs.Patch.Decoding
import ViewStream.Proofs.Spec.Occurrences
