import Efs.Library.Allocator
import Efs.World
import Efs.BitmapSemantics
import Efs.BitCount
import Efs.CacheRetention
import Efs.BlockHold
import Efs.BitmapSearch
import Efs.OutOfBlocks
import Efs.FailedLoad
import Efs.FailedWalk
import Efs.ExitCascade
import Efs.CacheRemount
import Efs.DiskFile
import Efs.FileRegistry
import Efs.InodeRuns
import Efs.HashTree
import Efs.RecordedPaths
import Efs.HandleOffset
import Efs.Superblock
import Efs.Mkfs
import Efs.MountImage
import Efs.QueueLinks
import Efs.ReleaseCalls
import Efs.ReleaseWalk
import Efs.ReleasedFile
import Efs.FailedCreation
import Efs.Paths
import Efs.MapSemantics
import Efs.Library.PostOrder
import Efs.CreationRuns
import Efs.FileRuns
import Efs.MapTrees
import Efs.Mount
import Efs.Removal
import Efs.Tampering
import Efs.HashSetAlgebra
