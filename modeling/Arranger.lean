import Arranger.Arrangement.Document
import Arranger.Diagnostics
import Arranger.Main
import Arranger.Midi.File
import Arranger.Notation
import Arranger.Program
import Arranger.Theory.Walk
import Arranger.Workspace.Session
import Arranger.Yaml.Value
import Arranger.Yaml.Write
import Arranger.Proofs.Decimal.Written
import Arranger.Proofs.Program.Recovery
import Arranger.Proofs.Arrangement.NormalForm
import Arranger.Proofs.Decimal.Bits
import Arranger.Proofs.Decimal.Spelling
import Arranger.Proofs.Decimal.Reading
import Arranger.Proofs.Decimal.Arithmetic
import Arranger.Proofs.Files.Tree
import Arranger.Proofs.Library.Documents
import Arranger.Proofs.Library.Names
import Arranger.Proofs.Library.Operations
import Arranger.Proofs.Library.Simulation
import Arranger.Proofs.Session.Isolation
import Arranger.Proofs.Session.Tidy
import Arranger.Proofs.Program.Refusal
import Arranger.Proofs.Midi.Recut
import Arranger.Proofs.Midi.Verdict
import Arranger.Proofs.Workspace.Persistence
import Arranger.Proofs.Workspace.LocalEdits
import Arranger.Proofs.Session.AtomicEdits
import Arranger.Proofs.Session.FailedExports
import Arranger.Proofs.Theory.Notes
import Arranger.Proofs.Theory.Voicing
import Arranger.Proofs.Theory.Chords
import Arranger.Proofs.Midi.Balance
import Arranger.Proofs.Midi.Timeline
import Arranger.Proofs.Midi.Pairing
import Arranger.Proofs.Library.Listings
import Arranger.Proofs.Session.Lists
import Arranger.Proofs.Files.Resolution
import Arranger.Proofs.Session.Containment
import Arranger.Proofs.Theory.NoteTokens
import Arranger.Proofs.Text.Trimmed
import Arranger.Proofs.Theory.ChordTokens
import Arranger.Proofs.Notation.Events
import Arranger.Proofs.Session.ChordCalls
import Arranger.Proofs.Decimal.Exact
import Arranger.Proofs.Midi.ForwardTime
import Arranger.Proofs.Diagnostics.Counts
import Arranger.Proofs.Midi.Unresolved
import Arranger.Proofs.Theory.Degrees
import Arranger.Proofs.Theory.Inversions
import Arranger.Proofs.Theory.NumeralTokens
import Arranger.Proofs.Arrangement.Contents
import Arranger.Proofs.Library.Independence
import Arranger.Proofs.Theory.Walks
