import GethComments.Crypto.ZkpZero
import GethComments.Core.GasAccounting
import GethComments.Core.ForkId
import GethComments.Crypto.ZkpTranscripts
import GethComments.Core.BatchErrors
import GethComments.Types.TransactionIdentity
import GethComments.EthApi.HonestTransfer
import GethComments.Types.TransactionJson
import GethComments.Consensus.CliqueHistory
import GethComments.Consensus.CliqueCopies
import GethComments.Core.CanonicalIndex
import GethComments.Core.PoolExecutable
import GethComments.Consensus.Ethash
import GethComments.Rlp.Progress
import GethComments.P2P.Rlpx
import GethComments.Trie.Proof
import GethComments.Trie.Reload
import GethComments.RawDB.FreezerTail
import GethComments.RawDB.Freezer
import GethComments.Core.HeaderChain
import GethComments.Core.SyncCommitments
import GethComments.State.Snapshots
import GethComments.Crypto.ZkpExtraction
import GethComments.Core.Ancestors
import GethComments.Rlp.Splitting
import GethComments.Types.Bloom
