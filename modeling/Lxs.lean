import Lxs.Lib.Hoare
import Lxs.Vm.Memory
import Lxs.Vm.Modexp
import Lxs.Vm.Jumps
import Lxs.Core.Genesis
import Lxs.State.Deployment
import Lxs.State.Estimate
import Lxs.State.World
import Lxs.State.Replay
import Lxs.State.RootBinding
import Lxs.Types.TxRoot
import Lxs.Types.ReceiptRoot
import Lxs.Contracts.Peg
import Lxs.Mempool.Selection
import Lxs.Mempool.Journal
import Lxs.P2p.Blame
import Lxs.P2p.TxGossip
import Lxs.P2p.SyncPenalty
import Lxs.P2p.Ancestor
import Lxs.P2p.Flood
import Lxs.Health.Governor
import Lxs.Rpc.Logs
import Lxs.Core.Blockchain
import Lxs.Core.Node
import Lxs.Core.Consistency
import Lxs.Core.Work
import Lxs.Core.Convergence
import Lxs.Core.Indexes
import Lxs.Core.Difficulty
import Lxs.Core.Wiring
import Lxs.Core.Producer
import Lxs.Core.Retarget
import Lxs.Core.ForkSearch
import Lxs.Core.Issuance
import Lxs.Core.BlockReceipts
import Lxs.Contracts.Graduation
import Lxs.Cmd.Pegwatch
import Lxs.Pool.Payouts
import Lxs.Pool.Shares
import Lxs.Pool.Earnings
import Lxs.Contracts.Router
import Lxs.Contracts.Curve
import Lxs.Contracts.GatedPool
