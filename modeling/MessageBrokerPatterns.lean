import MessageBrokerPatterns.AccountWriters
import MessageBrokerPatterns.AccountProjector
import MessageBrokerPatterns.DlqAccounting
import MessageBrokerPatterns.DlqCharging
import MessageBrokerPatterns.DlqDrain
import MessageBrokerPatterns.DlqStranded
import MessageBrokerPatterns.SagaTerminal
import MessageBrokerPatterns.SagaTermination
import MessageBrokerPatterns.PriorityDelivery
import MessageBrokerPatterns.PriorityScan
import MessageBrokerPatterns.CompetingSurvivor
import MessageBrokerPatterns.OutboxOrder
import MessageBrokerPatterns.IdempotencyWindow
import MessageBrokerPatterns.IdempotencyRetention
import MessageBrokerPatterns.IdempotencyClaims
import MessageBrokerPatterns.DlqLetters
import MessageBrokerPatterns.DlqCrew
import MessageBrokerPatterns.PriorityLanes
import MessageBrokerPatterns.ScatterIsolation
import MessageBrokerPatterns.ClaimCustody
import MessageBrokerPatterns.WireRecords
import MessageBrokerPatterns.AccountNaive
import MessageBrokerPatterns.GatherLoop
import MessageBrokerPatterns.FleetStrategies
import MessageBrokerPatterns.SagaFailure
import MessageBrokerPatterns.PriorityBacklog
import MessageBrokerPatterns.CompetingReclaim
import MessageBrokerPatterns.IdempotencyBound
import MessageBrokerPatterns.DlqNaive
import MessageBrokerPatterns.BenchPhase
import MessageBrokerPatterns.BenchRun
import MessageBrokerPatterns.BenchFailure
import MessageBrokerPatterns.BenchResults
import MessageBrokerPatterns.BenchExport
import MessageBrokerPatterns.ChaosStack
import MessageBrokerPatterns.DlqRetries
import MessageBrokerPatterns.SagaCursor
import MessageBrokerPatterns.BenchPercentile
import MessageBrokerPatterns.BrokerGroups
import MessageBrokerPatterns.DlqReplay
import MessageBrokerPatterns.DlqInspection
import MessageBrokerPatterns.DlqDedup
import MessageBrokerPatterns.DlqBenchReport
import MessageBrokerPatterns.CompetingNaive
import MessageBrokerPatterns.Metrics
import MessageBrokerPatterns.OutboxNaive
import MessageBrokerPatterns.OutboxDrain
import MessageBrokerPatterns.ClaimAccounts
import MessageBrokerPatterns.InlineBroker
import MessageBrokerPatterns.ScatterCombining
import MessageBrokerPatterns.ScatterBench
import MessageBrokerPatterns.SagaNaive
import MessageBrokerPatterns.ScatterNaive
