import TinyRedis.RespSafetyProofs
import TinyRedis.RespNestedProofs
import TinyRedis.DecodeChannelProofs
import TinyRedis.SetIfNotExistProofs
import TinyRedis.ProxyProofs
import TinyRedis.JoinSearchProofs
import TinyRedis.SnapshotProofs
import TinyRedis.ListWindowsProofs
import TinyRedis.StringRangesProofs
import TinyRedis.ListPosProofs
import TinyRedis.ListMoveProofs
import TinyRedis.SortedSetRunsProofs
import TinyRedis.SetObjectsProofs
import TinyRedis.SetPopProofs
import TinyRedis.SetSampleProofs
import TinyRedis.StoreRaceProofs
import TinyRedis.GlobCorrectProofs
import TinyRedis.ReplacedProofs
import TinyRedis.LockReleaseProofs
import TinyRedis.DeadlockProofs
import TinyRedis.EmptyContainersProofs
import TinyRedis.ExpiryRaceProofs
import TinyRedis.MemDbRefinementProofs
import TinyRedis.ReplicasProofs
import TinyRedis.CutConnectionProofs
