import Lichen.Validator.Rounds
import Lichen.Validator.Clock
import Lichen.Validator.CrashSafe
import Lichen.Staking.Fingerprints
import Lichen.Staking.Deactivated
import Lichen.Staking.SlashOutcome
import Lichen.Staking.EpochTurn
import Lichen.Staking.Capacity
import Lichen.Staking.MossSolvency
import Lichen.State.SparseStore
import Lichen.State.RootAgreement
import Lichen.Processor.GovernedLifecycle
import Lichen.Processor.NativeFunds
import Lichen.Processor.EvmNonce
import Lichen.Processor.Pruning
import Lichen.Contracts.LendingAccrual
import Lichen.Contracts.DexEscrow
import Lichen.Staking.StakeHistory
import Lichen.Core.IntegerSqrt
import Lichen.Zk.NoteTree
