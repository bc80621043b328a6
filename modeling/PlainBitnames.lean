import PlainBitnames.Properties.TwoPaths
import PlainBitnames.Properties.Outpoints
import PlainBitnames.Properties.Conservation
import PlainBitnames.Properties.EventLogs
import PlainBitnames.Properties.FailedReorgs
import PlainBitnames.Properties.Invalidated
import PlainBitnames.Properties.Iteration
import PlainBitnames.Properties.BatchIcann
import PlainBitnames.Properties.FilledOutputs
import PlainBitnames.Properties.IndexEvents
import PlainBitnames.Properties.HeaderSync
import PlainBitnames.Properties.CollectedBundles
import PlainBitnames.Properties.Confirmation
import PlainBitnames.Properties.ExemptInputs
import PlainBitnames.Properties.BestVerification
import PlainBitnames.Properties.InvalidatedSubtrees
import PlainBitnames.Properties.UndoneBodies
import PlainBitnames.Properties.StaleTransactions
import PlainBitnames.Properties.DoubleSpends
import PlainBitnames.Properties.TreeMerging
import PlainBitnames.Properties.BodyRequests
import PlainBitnames.Properties.SeqIdText
import PlainBitnames.Properties.DepositAddresses
import PlainBitnames.Properties.WalletBalance
import PlainBitnames.Properties.WalletMirror
import PlainBitnames.Properties.Redemption
import PlainBitnames.Properties.Paymail
import PlainBitnames.Properties.FollowedMainchain
import PlainBitnames.Properties.ActiveHeights
