import Waymark.Fault
import Waymark.Distance
import Waymark.Category
import Waymark.ByteStream
import Waymark.Cursor.Travel
import Waymark.Cursor.Order
import Waymark.Cursor.Text
import Waymark.Cursor.Access
import Waymark.Passage
import Waymark.Walk
import Waymark.Search.Find
import Waymark.Search.EqualRange
import Waymark.Compare.Includes
import Waymark.Rearrange.Partition
import Waymark.Value.Basic
import Waymark.Value.Decimal
import Waymark.Callable.Record
import Waymark.Callable.Tally
import Waymark.Script
import Waymark.Session.Stream
import Waymark.Session.Tallies
import Waymark.Proofs.Search.EqualRange
import Waymark.Proofs.Rearrange.Compact
import Waymark.Proofs.Rearrange.Converge
import Waymark.Proofs.Rearrange.Emptied
import Waymark.Proofs.Confined
import Waymark.Proofs.Compare.Equal
import Waymark.Proofs.Search.Within
import Waymark.Proofs.Stream.Alike
import Waymark.Proofs.Stream.Passes
import Waymark.Proofs.Alongside
import Waymark.Proofs.Upkeep.Classes
import Waymark.Proofs.Upkeep.Kept
import Waymark.Proofs.Session.Conserved
import Waymark.Proofs.Compare.Passed
import Waymark.Proofs.Stream.Lent
import Waymark.Proofs.Stream.Account
import Waymark.Proofs.Cursor.Moves
import Waymark.Proofs.Session.Counted
import Waymark.Proofs.Cursor.Foreign
import Waymark.Proofs.Entries
import Waymark.Proofs.Search.Bounded
import Waymark.Proofs.Search.Turn
import Waymark.Proofs.Compare.Inclusion
import Waymark.Proofs.Views
import Waymark.Proofs.Delivery
import Waymark.Proofs.Passage
