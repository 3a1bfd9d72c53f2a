import CosmosSDK.Store.CacheKV.Runs
import CosmosSDK.BaseApp.RunTxEffects
import CosmosSDK.Auth.Replay
import CosmosSDK.Staking.Registry.Attached
import CosmosSDK.Staking.Registry.Failures
import CosmosSDK.Staking.Unbonding.Payouts
import CosmosSDK.Mempool.Drain
import CosmosSDK.Query.Pagination
import CosmosSDK.Auth.Unordered.Replay
import CosmosSDK.Group.VotingPeriodEnd
import CosmosSDK.Store.Merkle.CommitInfo
import CosmosSDK.STF.GasIterator
import CosmosSDK.Mint.Keeper
import CosmosSDK.Feegrant.Periodic
import CosmosSDK.ProtocolPool.SetToDistribute
import CosmosSDK.STF.Senders
import CosmosSDK.BaseApp.VoteExtensions
import CosmosSDK.Textual.Screens
import CosmosSDK.Auth.Multisig
import CosmosSDK.Tx.Adr027
import CosmosSDK.Staking.Redelegations
import CosmosSDK.Staking.Keeper.Listings
import CosmosSDK.Staking.UnbondAmount
import CosmosSDK.Types.CoinAlgebra
import CosmosSDK.Math.Rounding
import CosmosSDK.Auth.AddSignature
import CosmosSDK.Accounts.Multisig
import CosmosSDK.Staking.Registry.PowerKeys
import CosmosSDK.Store.Prefix
import CosmosSDK.Epochs.Genesis
