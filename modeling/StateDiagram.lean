import StateDiagram.Decimal.Scaled
import StateDiagram.Decimal.Shortest
import StateDiagram.Grammar.Basic
import StateDiagram.Grammar.Begins
import StateDiagram.Grammar.Check
import StateDiagram.Grammar.Dot
import StateDiagram.Grammar.Draft
import StateDiagram.Grammar.Error
import StateDiagram.Grammar.Flaw
import StateDiagram.Grammar.Merge
import StateDiagram.Grammar.Node
import StateDiagram.Grammar.Persist
import StateDiagram.Grammar.Reader
import StateDiagram.Grammar.Token
import StateDiagram.Grammar.Writer
import StateDiagram.Graph.Reach
import StateDiagram.Json.Basic
import StateDiagram.Json.Decode
import StateDiagram.Json.Reader
import StateDiagram.Json.Writer
import StateDiagram.Parser.Advance
import StateDiagram.Parser.Batch
import StateDiagram.Parser.Choices
import StateDiagram.Parser.Config
import StateDiagram.Parser.Drive
import StateDiagram.Parser.Moves
import StateDiagram.Parser.State
import StateDiagram.Parser.Trace
import StateDiagram.Phrase.Arena
import StateDiagram.Phrase.Bracket
import StateDiagram.Phrase.Chain
import StateDiagram.Phrase.Fault
import StateDiagram.Phrase.Outline
import StateDiagram.Phrase.Reduce
import StateDiagram.Phrase.Tree
import StateDiagram.Proofs.Grammar.Built
import StateDiagram.Proofs.Grammar.Checked
import StateDiagram.Proofs.Grammar.Closure
import StateDiagram.Proofs.Grammar.Distinct
import StateDiagram.Proofs.Grammar.Fixpoint
import StateDiagram.Proofs.Grammar.Format
import StateDiagram.Proofs.Grammar.Interleaved
import StateDiagram.Proofs.Grammar.Listed
import StateDiagram.Proofs.Grammar.Merged
import StateDiagram.Proofs.Grammar.Optimized
import StateDiagram.Proofs.Grammar.Reached
import StateDiagram.Proofs.Grammar.Readable
import StateDiagram.Proofs.Grammar.Recognized
import StateDiagram.Proofs.Grammar.Relisted
import StateDiagram.Proofs.Grammar.Renumbered
import StateDiagram.Proofs.Grammar.Reread
import StateDiagram.Proofs.Grammar.RoundTrip
import StateDiagram.Proofs.Grammar.Spelled
import StateDiagram.Proofs.Grammar.Stored
import StateDiagram.Proofs.Grammar.Tiled
import StateDiagram.Proofs.Grammar.Written
import StateDiagram.Proofs.Graph.Reach
import StateDiagram.Proofs.Json.RoundTrip
import StateDiagram.Proofs.Parser.Calls
import StateDiagram.Proofs.Parser.Carried
import StateDiagram.Proofs.Parser.Certain
import StateDiagram.Proofs.Parser.Charted
import StateDiagram.Proofs.Parser.Complete
import StateDiagram.Proofs.Parser.Completed
import StateDiagram.Proofs.Parser.Correct
import StateDiagram.Proofs.Parser.Derivation
import StateDiagram.Proofs.Parser.Drivers
import StateDiagram.Proofs.Parser.Entered
import StateDiagram.Proofs.Parser.Enumerated
import StateDiagram.Proofs.Parser.Exhausted
import StateDiagram.Proofs.Parser.Fallback
import StateDiagram.Proofs.Parser.Finished
import StateDiagram.Proofs.Parser.Folded
import StateDiagram.Proofs.Parser.Lands
import StateDiagram.Proofs.Parser.Layout
import StateDiagram.Proofs.Parser.Leaves
import StateDiagram.Proofs.Parser.Performed
import StateDiagram.Proofs.Parser.Persistent
import StateDiagram.Proofs.Parser.Place
import StateDiagram.Proofs.Parser.Pruned
import StateDiagram.Proofs.Parser.Reloaded
import StateDiagram.Proofs.Parser.Renumbered
import StateDiagram.Proofs.Parser.Replayed
import StateDiagram.Proofs.Parser.Rounds
import StateDiagram.Proofs.Parser.Scopes
import StateDiagram.Proofs.Parser.Search
import StateDiagram.Proofs.Parser.Skipped
import StateDiagram.Proofs.Parser.Standing
import StateDiagram.Proofs.Parser.Steps
import StateDiagram.Proofs.Parser.Terminates
import StateDiagram.Proofs.Parser.UpToDate
import StateDiagram.Proofs.Parser.Walks
import StateDiagram.Proofs.Parser.Ways
import StateDiagram.Proofs.Parser.Weight
import StateDiagram.Proofs.Phrase.Bracketed
import StateDiagram.Proofs.Phrase.Changes
import StateDiagram.Proofs.Phrase.Copies
import StateDiagram.Proofs.Phrase.Forms
import StateDiagram.Proofs.Phrase.Reductions
import StateDiagram.Proofs.Phrase.Spans
import StateDiagram.Proofs.Related
import StateDiagram.Proofs.Segment.Joined
import StateDiagram.Proofs.Segment.Pieces
import StateDiagram.Proofs.Segment.Spaces
import StateDiagram.Proofs.Segment.Tokens
import StateDiagram.Proofs.Semantics.Raised
import StateDiagram.Proofs.Text.Numeral
import StateDiagram.Proofs.Text.Sorted
import StateDiagram.Proofs.Text.Trimmed
import StateDiagram.Proofs.Value.RoundTrip
import StateDiagram.Segment.Basic
import StateDiagram.Segment.Persist
import StateDiagram.Semantics.Basic
import StateDiagram.Semantics.Callbacks
import StateDiagram.Text.Blank
import StateDiagram.Text.Lowercase
import StateDiagram.Text.Numeral
import StateDiagram.Text.Quoted
import StateDiagram.Text.Sorted
import StateDiagram.Text.Table
import StateDiagram.Value.Basic
import StateDiagram.Value.Persist
