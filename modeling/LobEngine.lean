import LobEngine.Logging.Logger
import LobEngine.Properties.BoundedFifo
import LobEngine.Properties.CancelReports
import LobEngine.Properties.Cascades
import LobEngine.Properties.Departed
import LobEngine.Properties.DerivedValues
import LobEngine.Properties.ExactFill
import LobEngine.Properties.ExactMessages
import LobEngine.Properties.GeneratedRuns
import LobEngine.Properties.IcebergLife
import LobEngine.Properties.IcebergRest
import LobEngine.Properties.Isolation
import LobEngine.Properties.LatencyPercentiles
import LobEngine.Properties.LevelQueue
import LobEngine.Properties.Liveness
import LobEngine.Properties.LogLines
import LobEngine.Properties.Lookups
import LobEngine.Properties.MarketData
import LobEngine.Properties.Mirror
import LobEngine.Properties.NoTrace
import LobEngine.Properties.Ownership
import LobEngine.Properties.Priority
import LobEngine.Properties.ReferenceResults
import LobEngine.Properties.ReplayTool
import LobEngine.Properties.SnapshotLoad
import LobEngine.Properties.SnapshotRoundTrip
import LobEngine.Properties.StopLifecycle
import LobEngine.Properties.VolumeConsistency
