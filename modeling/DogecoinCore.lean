import DogecoinCore.HonestSnapshot
import DogecoinCore.SnapshotSwap
import DogecoinCore.ValidationSoundness
import DogecoinCore.CompactBlocks
import DogecoinCore.CoinsTransparency
import DogecoinCore.CoinsConsensus
import DogecoinCore.AuxPow
import DogecoinCore.PruneProofs
import DogecoinCore.StateFile
import DogecoinCore.DbMigrateProofs
import DogecoinCore.SnapshotDump
import DogecoinCore.BackgroundConnect
import DogecoinCore.SnapshotReload
import DogecoinCore.PartialMerkle
import DogecoinCore.CheckQueue
import DogecoinCore.DownloadLimit
import DogecoinCore.SnapshotFetchProofs
import DogecoinCore.AmountOverflow
import DogecoinCore.InterpreterFlags
import DogecoinCore.FlagRuns
import DogecoinCore.MedianTime
import DogecoinCore.ArchivePath
import DogecoinCore.Manifest
import DogecoinCore.Wallet
import DogecoinCore.BlockTxnRequest
import DogecoinCore.MempoolIndex
import DogecoinCore.MempoolPackages
import DogecoinCore.AuxMining
import DogecoinCore.SkipIndex
import DogecoinCore.Orphans
import DogecoinCore.FileRanges
import DogecoinCore.BlockProof
