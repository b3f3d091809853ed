import FragmentPipe.Schema.Declaration
import FragmentPipe.Network
import FragmentPipe.Proofs.Script.Context
import FragmentPipe.Proofs.Script.Layout
import FragmentPipe.Proofs.Script.Tables
import FragmentPipe.Proofs.Script.Nesting
import FragmentPipe.Proofs.Script.Compiled
import FragmentPipe.Proofs.Script.Fragments
import FragmentPipe.Proofs.Outcomes
import FragmentPipe.Proofs.Reader.Place
import FragmentPipe.Proofs.Runs
import FragmentPipe.Proofs.Reader.Moves
import FragmentPipe.Proofs.Reader.Cursor
import FragmentPipe.Proofs.Reader.Visible
import FragmentPipe.Proofs.Script.Grammar
import FragmentPipe.Proofs.Reader.Course
import FragmentPipe.Proofs.Reader.Trailers
import FragmentPipe.Proofs.Reader.Traversal
import FragmentPipe.Proofs.Script.Accepted
import FragmentPipe.Proofs.Order
import FragmentPipe.Proofs.Positions
import FragmentPipe.Proofs.Writer.Frame
import FragmentPipe.Proofs.Writer.Opened
import FragmentPipe.Proofs.Writer.Published
import FragmentPipe.Proofs.Stream.Items
import FragmentPipe.Proofs.Stream.Marks
import FragmentPipe.Proofs.Writer.Values
import FragmentPipe.Proofs.Stream.Framed
import FragmentPipe.Proofs.Stream.Carried
import FragmentPipe.Proofs.Stream.Attended
import FragmentPipe.Proofs.Stream.Inspected
import FragmentPipe.Proofs.Stream.Delivery
import FragmentPipe.Proofs.Reader.Repeats
import FragmentPipe.Proofs.Stream.Guides
import FragmentPipe.Proofs.Stream.Covered
import FragmentPipe.Proofs.Stream.Conservation
import FragmentPipe.Proofs.Stream.Copied
import FragmentPipe.Proofs.Stream.Relayed
import FragmentPipe.Proofs.Stream.Tallied
import FragmentPipe.Proofs.Script.Recognised
import FragmentPipe.Proofs.Script.Partition
import FragmentPipe.Proofs.Direct.Operations
import FragmentPipe.Proofs.Direct.Transparent
import FragmentPipe.Proofs.Writer.Room
import FragmentPipe.Proofs.Reader.Batches
import FragmentPipe.Proofs.Stream.Drained
import FragmentPipe.Proofs.Stream.Blocked
import FragmentPipe.Proofs.Interchange.Bisimulation
import FragmentPipe.Proofs.Interchange.Leftovers
import FragmentPipe.Proofs.Interchange.Reset
import FragmentPipe.Proofs.Interchange.Memory
import FragmentPipe.Proofs.Refused.Reads
import FragmentPipe.Proofs.Refused.Writes
import FragmentPipe.Proofs.Refused.Marker
import FragmentPipe.Proofs.Writer.Passed
import FragmentPipe.Proofs.Writer.Fields
import FragmentPipe.Proofs.Reader.Verdict
import FragmentPipe.Proofs.Reader.Releases
import FragmentPipe.Proofs.Reader.OnDemand
import FragmentPipe.Proofs.Reader.Enclosing
import FragmentPipe.Proofs.Stream.Addressed
import FragmentPipe.Proofs.Stream.Spaced
import FragmentPipe.Proofs.Stream.Laid
import FragmentPipe.Proofs.Stream.Reached
import FragmentPipe.Proofs.Stream.Skipped
import FragmentPipe.Proofs.Interchange.Unpublished
import FragmentPipe.Proofs.Writer.Gathered
import FragmentPipe.Proofs.Reader.Windows
import FragmentPipe.Proofs.Writer.Reserved
import FragmentPipe.Proofs.Script.Declared
import FragmentPipe.Proofs.Script.Undivided
import FragmentPipe.Proofs.Stream.Histories
import FragmentPipe.Proofs.Interchange.Halves
import FragmentPipe.Proofs.Interchange.Rescripted
import FragmentPipe.Proofs.Stream.Wrapped
import FragmentPipe.Proofs.Script.Lookups
import FragmentPipe.Proofs.Reader.Sequences
