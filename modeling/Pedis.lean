import Pedis.Bytes
import Pedis.SortedSet.Basic
import Pedis.SortedSet.Ops
import Pedis.SortedSet.Invariant
import Pedis.SortedSet.Refinement
import Pedis.SortedSet.Run
import Pedis.SortedSet.TieOrder
import Pedis.SortedSet.Rank
import Pedis.SortedSet.ScoreList
import Pedis.SortedSet.Compare
import Pedis.SortedSet.RangeRemoval
import Pedis.Table.Format
import Pedis.Table.Block
import Pedis.Table.BlockLoops
import Pedis.Table.Sstable
import Pedis.Table.Open
import Pedis.Table.Combined
import Pedis.Table.Merge
