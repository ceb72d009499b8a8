import ThresholdKms.AgreedSharings
import ThresholdKms.AttestedTlsTrust
import ThresholdKms.BackupMirror
import ThresholdKms.BgvKeygen
import ThresholdKms.BitsHidden
import ThresholdKms.Broadcast
import ThresholdKms.BroadcastAgreement
import ThresholdKms.ContextRegistryRuns
import ThresholdKms.CrsCeremonyRun
import ThresholdKms.CrsExactness
import ThresholdKms.CustodianContexts
import ThresholdKms.CustodianRecoveryOutcome
import ThresholdKms.EpochRegistryRuns
import ThresholdKms.Extraction
import ThresholdKms.InactiveSessionQuota
import ThresholdKms.KeyMigrationRestarts
import ThresholdKms.KeyOpening
import ThresholdKms.KeygenDemand
import ThresholdKms.MaterialAvailability
import ThresholdKms.MaterialPreservation
import ThresholdKms.MetaStoreCounts
import ThresholdKms.MetaStoreReaper
import ThresholdKms.NetworkRounds
import ThresholdKms.PackedMessage
import ThresholdKms.PrssBatches
import ThresholdKms.PrssCheckSoundness
import ThresholdKms.PublicDecryptionRobustness
import ThresholdKms.PuncturedSharing
import ThresholdKms.Reconstruction
import ThresholdKms.ReshareRun
import ThresholdKms.RobustOpen
import ThresholdKms.RoundedDivision
import ThresholdKms.SecretDistributions
import ThresholdKms.SessionFreshness
import ThresholdKms.SessionProvenance
import ThresholdKms.Share
import ThresholdKms.ShareDispute
import ThresholdKms.TripleProgress
import ThresholdKms.VerifySharingAgreement
