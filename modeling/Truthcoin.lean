import Truthcoin.PegSync
import Truthcoin.Settlement
import Truthcoin.Apply
import Truthcoin.ApplySteps
import Truthcoin.Builds
import Truthcoin.BlockRun
import Truthcoin.ConnectTrace
import Truthcoin.MarketSteps
import Truthcoin.SettlementSteps
import Truthcoin.AddressIndex
import Truthcoin.BlockChecks
import Truthcoin.ClaimPaths
import Truthcoin.DecisionStates
import Truthcoin.PeriodClose
import Truthcoin.Stranding
import Truthcoin.ListedMarkets
import Truthcoin.ListedRuns
import Truthcoin.BmmTimestamp
import Truthcoin.ClaimOnce
import Truthcoin.MapOrder
import Truthcoin.Mempool
import Truthcoin.MempoolIndexes
import Truthcoin.MerkleRoot
import Truthcoin.Oracle
import Truthcoin.OracleUpdates
import Truthcoin.PegRebuild
import Truthcoin.ReputationConserved
import Truthcoin.TradeOrder
import Truthcoin.VoteOnce
import Truthcoin.ArchiveDb
import Truthcoin.ArchiveSound
import Truthcoin.BmmOrder
import Truthcoin.SampleArchive
import Truthcoin.BetterTip
import Truthcoin.TipOrder
import Truthcoin.TipCycles
import Truthcoin.TipRanking
import Truthcoin.SideTipsSync
import Truthcoin.SideTipsExact
import Truthcoin.SideTipsStored
import Truthcoin.SideTipsMoves
import Truthcoin.SideTipsRuns
import Truthcoin.SideTipsUndo
import Truthcoin.Trimming
import Truthcoin.PoolBlocks
import Truthcoin.PoolReturn
import Truthcoin.NetTask
import Truthcoin.ArchiveRuns
import Truthcoin.LineageChains
import Truthcoin.Ancestors
import Truthcoin.BatchedIteration
import Truthcoin.AncestorBatches
import Truthcoin.BlockTemplate
import Truthcoin.PeerTip
import Truthcoin.ReorgPath
import Truthcoin.MainArchives
import Truthcoin.Inclusions
import Truthcoin.Authorizations
import Truthcoin.FallibleErrors
import Truthcoin.DisconnectErrors
import Truthcoin.StoredBodies
import Truthcoin.TransactionValue
import Truthcoin.FundsValue
import Truthcoin.SettlementValue
import Truthcoin.Conservation
import Truthcoin.Grid
import Truthcoin.OutcomeSpace
import Truthcoin.RationalRounding
import Truthcoin.FinalPrices
import Truthcoin.ProportionalAllocation
import Truthcoin.SharePayouts
import Truthcoin.ScaledVotes
import Truthcoin.MarketTypes
import Truthcoin.FeeDistribution
import Truthcoin.FilledOutputs
import Truthcoin.Admission
import Truthcoin.SlippageCheck
import Truthcoin.Repricing
import Truthcoin.UndoTables
import Truthcoin.PeriodVotes
import Truthcoin.DecisionHistories
import Truthcoin.EntrySets
import Truthcoin.ClaimRuns
import Truthcoin.CoinbaseTotals
import Truthcoin.TradeChange
import Truthcoin.BundlePayouts
import Truthcoin.Plurality
import Truthcoin.AvailableSlots
import Truthcoin.SlotRuns
import Truthcoin.WeightedLists
import Truthcoin.WeightedMedian
import Truthcoin.Lehmer
import Truthcoin.TxPow
import Truthcoin.BodyPacking
import Truthcoin.Borsh
import Truthcoin.OutPointKeys
import Truthcoin.ChainMetadata
import Truthcoin.Ledgers
import Truthcoin.ShareBooks
import Truthcoin.ShareWrites
import Truthcoin.ShareSettlements
import Truthcoin.ShareUndo
import Truthcoin.ShareRuns
import Truthcoin.TradeOverflow
import Truthcoin.WriteOverflow
import Truthcoin.LogSumExp
import Truthcoin.Lmsr
import Truthcoin.ExactNumbers
import Truthcoin.ElementaryNumbers
import Truthcoin.ExactCosts
import Truthcoin.TradePrices
import Truthcoin.CostPotential
import Truthcoin.WrittenRecords
import Truthcoin.TreasuryOutputs
import Truthcoin.TreasuryFrames
import Truthcoin.SeededMarkets
import Truthcoin.Solvency
import Truthcoin.LmsrPotential
import Truthcoin.ExactPayouts
import Truthcoin.SolventSettlements
import Truthcoin.MarketSolvency
import Truthcoin.CoinEdits
import Truthcoin.CoinStages
import Truthcoin.UndoPaths
import Truthcoin.CoinReverts
import Truthcoin.FundsReverts
import Truthcoin.CoinChains
import Truthcoin.CoinUndo
import Truthcoin.CoinReorgs
