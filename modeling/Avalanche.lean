import Avalanche.Archive.Db
import Avalanche.Chains.Indexed
import Avalanche.Chains.Sequential
import Avalanche.Codec.Canonical
import Avalanche.Engine.BootstrapHandoff
import Avalanche.Engine.EarlyTermination
import Avalanche.Engine.Requests
import Avalanche.Evm.Conflicts
import Avalanche.Evm.Decisions
import Avalanche.Evm.FeeClaims
import Avalanche.Evm.Lookahead
import Avalanche.Evm.Restart
import Avalanche.Indexer.Durability
import Avalanche.Merkle.SyncDb
import Avalanche.Merkle.Syncer
import Avalanche.Networking.Outbound
import Avalanche.Networking.Outcome
import Avalanche.P2p.Asked
import Avalanche.Platform.L1Fee
import Avalanche.Platform.L1Solvency
import Avalanche.Platform.Snapshot
import Avalanche.Proposer.Build
import Avalanche.Sae.Recovery
import Avalanche.Sae.WorstCase
import Avalanche.Snow.TreeStreak
import Avalanche.Snowman.Safety
import Avalanche.Snowman.PreferredBranch
import Avalanche.Snowman.VoteChain
import Avalanche.Utils.Rng
import Avalanche.Warp.Verifier
