import GrpcQuic.Transition.Runs
import GrpcQuic.Core.Errors
import GrpcQuic.Client.Retry
import GrpcQuic.Client.PoolGuarantees
import GrpcQuic.Client.CallSchedule
import GrpcQuic.Client.SessionReuse
import GrpcQuic.Exchange.Verbatim
import GrpcQuic.Client.ResponseReading
import GrpcQuic.Server.ShutdownDelivery
import GrpcQuic.Server.StreamLimit
import GrpcQuic.Client.GrpcTimeout
import GrpcQuic.Exchange.BodyShape
import GrpcQuic.Exchange.BodyDeadline
import GrpcQuic.Client.PoolDeath
import GrpcQuic.Client.DeadlineStatus
import GrpcQuic.Client.ConcurrencyLimit
import GrpcQuic.Server.Stalling
import GrpcQuic.Client.RetryExhaustion
import GrpcQuic.Server.JoinSets
import GrpcQuic.Exchange.DispatchCounters
import GrpcQuic.Exchange.ByteCounters
import GrpcQuic.Client.BackoffMonotone
import GrpcQuic.Exchange.CallCompletes
import GrpcQuic.Client.ChannelProgress
import GrpcQuic.Server.ResponseFrames
import GrpcQuic.Server.DispatchOrder
import GrpcQuic.Client.AttemptOrigins
import GrpcQuic.Server.AcceptOrder
import GrpcQuic.Client.PoolQueue
