import Tapid.Supervision
import Tapid.JournalLimits
import Tapid.ActivationRollback
import Tapid.PublishSound
import Tapid.WhyPaths
import Tapid.NpmLookup
import Tapid.RelativePath
import Tapid.LookupCodec
import Tapid.LockfileRoundTrip
import Tapid.WildcardSpelling
import Tapid.ResolverGreedy
import Tapid.LayoutTerminates
import Tapid.LayoutStorage
import Tapid.LockKeyCodec
import Tapid.NpmGraphSound
import Tapid.NpmImportRoundTrip
import Tapid.ArchiveOneTree
import Tapid.StoredPaths
import Tapid.DependencyReplay
import Tapid.ReleaseRuns
import Tapid.ReleaseStore
import Tapid.LifecycleJournal
import Tapid.Platform
import Tapid.ManifestRoundTrip
import Tapid.ShimsContained
import Tapid.WorkspaceRoots
import Tapid.MetadataIndexSound
import Tapid.LazyTerminates
import Tapid.WindowsCommandLine
import Tapid.WindowsEnvironment
import Tapid.HookOrder
import Tapid.NpmSelection
import Tapid.ExecutableManifest
import Tapid.TreeDigestExcluded
import Tapid.WorkspaceDiscoverySound
import Tapid.SandboxPolicySound
import Tapid.LockSnapshotSound
import Tapid.StoreLocks
import Tapid.StoreRecovery
