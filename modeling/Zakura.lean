import Zakura.HeaderChain.OverlayRefinement
import Zakura.HeaderChain.DeltaPlanning
import Zakura.HeaderChain.RecoveryLive
import Zakura.HeaderChain.ForkChoice
import Zakura.NonFinalized.ChainFinalize
import Zakura.NonFinalized.Invalidation
import Zakura.BlockSync.WorkQueueGap
import Zakura.HistoryTree.HistoryTreeRun
import Zakura.Regulation.SessionTable
import Zakura.Mempool.VerifiedSetRun
import Zakura.Checkpoint.VerifierRun
import Zakura.Regulation.ReservationsRun
import Zakura.BlockMemory.PoolRun
import Zakura.BlockMemory.ReadBudget
import Zakura.Finalized.FrontierRun
import Zakura.HeaderChain.RebaseRun
import Zakura.HeaderChain.Projection
import Zakura.HeaderChain.Difficulty
import Zakura.Discovery.SampleWindow
