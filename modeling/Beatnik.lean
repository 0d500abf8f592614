import Beatnik.Action
import Beatnik.ActionScores
import Beatnik.CommandLine.Parse
import Beatnik.CommandLine.Perform
import Beatnik.Cursor
import Beatnik.Dictionary
import Beatnik.Draft
import Beatnik.Fault
import Beatnik.Files
import Beatnik.LetterScores
import Beatnik.Location
import Beatnik.Machine.Basic
import Beatnik.Machine.Perform
import Beatnik.Machine.Run
import Beatnik.Main
import Beatnik.Program
import Beatnik.Proofs.ActionNames
import Beatnik.Proofs.CommandLine.Grammar
import Beatnik.Proofs.CommandLine.Groups
import Beatnik.Proofs.CommandLine.Listing
import Beatnik.Proofs.CursorWords
import Beatnik.Proofs.Dictionaries
import Beatnik.Proofs.Drafting
import Beatnik.Proofs.Joining
import Beatnik.Proofs.LetterCase
import Beatnik.Proofs.Listings
import Beatnik.Proofs.LookAhead
import Beatnik.Proofs.LowerCase
import Beatnik.Proofs.Machine.Codec
import Beatnik.Proofs.Machine.Composed
import Beatnik.Proofs.Machine.Counter
import Beatnik.Proofs.Machine.Course
import Beatnik.Proofs.Machine.Demand
import Beatnik.Proofs.Machine.DepthLimit
import Beatnik.Proofs.Machine.Effects
import Beatnik.Proofs.Machine.Endings
import Beatnik.Proofs.Machine.Fetch
import Beatnik.Proofs.Machine.Footprints
import Beatnik.Proofs.Machine.Ideal
import Beatnik.Proofs.Machine.Invariants
import Beatnik.Proofs.Machine.Isolation
import Beatnik.Proofs.Machine.LaterWords
import Beatnik.Proofs.Machine.LiveFaults
import Beatnik.Proofs.Machine.Lockstep
import Beatnik.Proofs.Machine.Rebinding
import Beatnik.Proofs.Machine.Refinement
import Beatnik.Proofs.Machine.SameScores
import Beatnik.Proofs.Machine.Sessions
import Beatnik.Proofs.Machine.SinkLimits
import Beatnik.Proofs.Machine.StraightLine
import Beatnik.Proofs.Machine.Termination
import Beatnik.Proofs.Reading
import Beatnik.Proofs.ReadingUtf8
import Beatnik.Proofs.Scanning
import Beatnik.Proofs.Scoring
import Beatnik.Proofs.Spelling.Arithmetic
import Beatnik.Proofs.Spelling.Exact
import Beatnik.Proofs.Spelling.Exchange
import Beatnik.Proofs.Spelling.Length
import Beatnik.Proofs.Spelling.Letters
import Beatnik.Proofs.Spelling.Safety
import Beatnik.Proofs.Spelling.Search
import Beatnik.Proofs.Spelling.Words
import Beatnik.Proofs.StackHistory
import Beatnik.Proofs.TableKeys
import Beatnik.Proofs.Tables.Grammar
import Beatnik.Proofs.Tables.Parts
import Beatnik.Proofs.Tables.RoundTrip
import Beatnik.Proofs.WordRuns
import Beatnik.Proofs.WordScores
import Beatnik.Sink
import Beatnik.Source
import Beatnik.Spelling
import Beatnik.TableFile
import Beatnik.Text.Alphabetic
import Beatnik.Text.Blank
import Beatnik.Text.CharSet
import Beatnik.Text.Hex
import Beatnik.Text.LowerCase
import Beatnik.Text.Numeral
import Beatnik.Text.Padding
import Beatnik.Text.Utf8
import Beatnik.Value
import Beatnik.ValueStack
import Beatnik.Word
