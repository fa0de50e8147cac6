import Dfsha.InsertionDictProofs
import Dfsha.NamedTreeProofs
import Dfsha.RaisingActionProofs
import Dfsha.TransitionSystemProofs
import Dfsha.OwnershipProofs
import Dfsha.FirstOccurrencesProofs
import Dfsha.BigEndianProofs
import Dfsha.BlockChunksProofs
import Dfsha.StretchProofs
import Dfsha.LinkedCellsProofs
import Dfsha.HoldAndWaitProofs
import Dfsha.PathProofs
import Dfsha.ControlTreeProofs
import Dfsha.MetadataProofs
import Dfsha.ControlTreeEffectProofs
import Dfsha.ListingProofs
import Dfsha.ReplicatedTreeProofs
import Dfsha.RetryProofs
import Dfsha.BlockStoreProofs
import Dfsha.ContainerProofs
import Dfsha.BlockReadProofs
import Dfsha.RoundTripProofs
import Dfsha.ForgeryProofs
import Dfsha.BlockOwnershipProofs
import Dfsha.AbortUploadProofs
import Dfsha.WriteReservationProofs
import Dfsha.CopyOnWriteProofs
import Dfsha.BlockLayoutProofs
import Dfsha.UploadSessionProofs
import Dfsha.LockTableProofs
import Dfsha.LockLeaseProofs
import Dfsha.PendingUploadProofs
import Dfsha.WriteCapabilityProofs
import Dfsha.ForwardingChainProofs
import Dfsha.ReplicaAgreementProofs
import Dfsha.WholeCopyProofs
import Dfsha.QueueRoomProofs
import Dfsha.HandlerProgressProofs
import Dfsha.ConfinementProofs
import Dfsha.RefusalProofs
import Dfsha.WriteBlockProofs
import Dfsha.ReferencedBlocksProofs
import Dfsha.LegacyLayoutProofs
import Dfsha.OperationKeyProofs
import Dfsha.DelimitedProofs
import Dfsha.BlockTokenProofs
import Dfsha.PasswordChangeProofs
import Dfsha.ReReplicatorProofs
import Dfsha.RepairDelayProofs
import Dfsha.GarbageCollectorProofs
import Dfsha.FileEditsProofs
import Dfsha.BlockFailoverProofs
import Dfsha.RangeReadProofs
import Dfsha.ReplicaPlacementProofs
import Dfsha.WritePoolsProofs
import Dfsha.QuotaScanProofs
import Dfsha.RepairProgressProofs
import Dfsha.ParallelJobsProofs
import Dfsha.FileRegionsProofs
import Dfsha.DownloadProofs
import Dfsha.UploadProofs
import Dfsha.UploadedFileProofs
import Dfsha.FileTransferProofs
import Dfsha.PathNamesProofs
import Dfsha.LockHandlesProofs
import Dfsha.FailedWriteProofs
import Dfsha.NonceSpaceProofs
import Dfsha.PublicAddressesProofs
import Dfsha.RpcErrorsProofs
import Dfsha.RpcCommitsProofs
import Dfsha.SessionTokenProofs
import Dfsha.SessionsProofs
import Dfsha.ShellPathsProofs
import Dfsha.CommandLineProofs
import Dfsha.LinearizationProofs
import Dfsha.ClusterHistoryProofs
import Dfsha.ClientCallProofs
import Dfsha.BlockDirectoryProofs
import Dfsha.DataNodeRpcsProofs
import Dfsha.RpcAnswersProofs
import Dfsha.BlockAccessProofs
import Dfsha.ConfinedAddressesProofs
import Dfsha.ProtectedFileProofs
import Dfsha.ExactEffectProofs
