import Hatrack.Queue.State
import Hatrack.Queue.Step
import Hatrack.Queue.Chain
import Hatrack.Queue.Len
import Hatrack.Queue.Publish
import Hatrack.Queue.Cleanup
import Hatrack.Queue.Cells
import Hatrack.Queue.Held
import Hatrack.Queue.Order
import Hatrack.Queue.Help
import Hatrack.Queue.Written
import Hatrack.Queue.Bounds
import Hatrack.Queue.Progress
import Hatrack.Queue.Solo
import Hatrack.Queue.Safety
import Hatrack.Queue.Memory
import Hatrack.Queue.Sequential
import Hatrack.Mmm.Epoch
import Hatrack.Mmm.Commit
import Hatrack.Mmm.Progress
import Hatrack.Common.Sort
import Hatrack.Fabric.OffsetHolder
import Hatrack.Debug.Ring
