import Mysticeti.ForkSafety
import Mysticeti.Inclusion
import Mysticeti.VoteBinding
import Mysticeti.VoteTally
import Mysticeti.EpochChangeHook
import Mysticeti.EpochAccounting
import Mysticeti.EpochReadiness
import Mysticeti.Restart
import Mysticeti.Acknowledgement
import Mysticeti.ProposalTimes
import Mysticeti.RejectedTransactions
import Mysticeti.EpochTransition
import Mysticeti.TransactionQueue
import Mysticeti.EpochTriggers
import Mysticeti.TransactionSocket
import Mysticeti.FinalizerRun
import Mysticeti.TransactionIntake
import Mysticeti.CommitCatchUp
import Mysticeti.BlockConfluence
import Mysticeti.ScheduleWindows
import Mysticeti.Proposals
import Mysticeti.ThresholdRounds
import Mysticeti.ExecutorBuffer
import Mysticeti.EpochConfirmation
import Mysticeti.CommitTimestamps
import Mysticeti.SupportChains
import Mysticeti.CommitUniqueness
import Mysticeti.LeaderSwaps
import Mysticeti.StakeArithmetic
import Mysticeti.KnownBlocks
import Mysticeti.QuorumRounds
import Mysticeti.ProposalGate
import Mysticeti.ExecutorFrames
import Mysticeti.AuthorScans
import Mysticeti.HttpSubmission
import Mysticeti.BlockServing
import Mysticeti.LeaderTimeout
