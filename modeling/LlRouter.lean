import LlRouter.AssocDict
import LlRouter.LabelledRun
import LlRouter.ControlExit
import LlRouter.TaskPool
import LlRouter.WhileLoop
import LlRouter.RivalClaims
import LlRouter.JsonValue
import LlRouter.DeepMerge
import LlRouter.MergeLaws
import LlRouter.DictHeap
import LlRouter.JsonCells
import LlRouter.MergeInPlace
import LlRouter.BackendConfig
import LlRouter.ModelListing
import LlRouter.RequestBody
import LlRouter.SharedOverrides
import LlRouter.AliasResolution
import LlRouter.ProfilesFile
import LlRouter.ProfileOverrides
import LlRouter.PermitMachine
import LlRouter.PermitLedger
import LlRouter.PermitLimits
import LlRouter.PermitWedge
import LlRouter.PermitIsolation
import LlRouter.UpstreamVerdict
import LlRouter.SystemdUnits
import LlRouter.EnsureActive
import LlRouter.HealthWait
import LlRouter.LoadStatus
import LlRouter.TransitionMachine
import LlRouter.TransitionCalls
import LlRouter.TransitionTrack
import LlRouter.TransitionHold
import LlRouter.ExclusiveActivation
import LlRouter.FailedTransition
import LlRouter.TransitionBudget
import LlRouter.SequentialCalls
import LlRouter.SerialTransitions
import LlRouter.LastCall
import LlRouter.SteadyState
import LlRouter.GroupExclusion
import LlRouter.HealthHistory
import LlRouter.RouterMachine
import LlRouter.RequestRouting
import LlRouter.ServiceUptime
import LlRouter.ServiceErrors
import LlRouter.RequestDispatch
import LlRouter.RouterHeap
import LlRouter.CommandScope
import LlRouter.RouterBudget
import LlRouter.RouterDrain
import LlRouter.ContextSearch
import LlRouter.GuardedSearch
