import TreeFile.Contents
import TreeFile.Cursor.Position
import TreeFile.Proofs.Balance.Ends
import TreeFile.Proofs.Balance.FewestPages
import TreeFile.Proofs.Balance.Splitting
import TreeFile.Proofs.Balance.WindowOrder
import TreeFile.Proofs.Cell.Levels
import TreeFile.Proofs.Cell.RoundTrip
import TreeFile.Proofs.Cell.Sizes
import TreeFile.Proofs.Cursor.Deleting
import TreeFile.Proofs.Cursor.Inserting
import TreeFile.Proofs.Cursor.NearestEntry
import TreeFile.Proofs.Database.Atomicity
import TreeFile.Proofs.Database.Reopening
import TreeFile.Proofs.Database.RootPacking
import TreeFile.Proofs.Database.VacuumSteps
import TreeFile.Proofs.Header.FirstPageEnds
import TreeFile.Proofs.Header.History
import TreeFile.Proofs.Header.RoundTrip
import TreeFile.Proofs.Header.VacuumMode
import TreeFile.Proofs.Overflow.RangedReads
import TreeFile.Proofs.Overflow.RoundTrip
import TreeFile.Proofs.Page.Changes
import TreeFile.Proofs.Page.Hostile
import TreeFile.Proofs.Pager.CacheTransparency
import TreeFile.Proofs.Pager.Growth
import TreeFile.Proofs.Pager.Undo
import TreeFile.Proofs.PointerMap.Slots
import TreeFile.Proofs.Tree.CountAndClear
import TreeFile.Proofs.Tree.Removing
import TreeFile.Proofs.Varint.RoundTrip
