import KdevopsNg.Kernel.BisectInputs
import KdevopsNg.Kernel.BisectAtomic
import KdevopsNg.Kernel.BisectFresh
import KdevopsNg.Py.Number
import KdevopsNg.Common.BuildTree
import KdevopsNg.Common.Resync
import KdevopsNg.Common.Series
import KdevopsNg.Fstests.Collect
import KdevopsNg.Kernel.VerdictTransport
import KdevopsNg.Suites.Journal
import KdevopsNg.Suites.Wait
import KdevopsNg.Suites.WaitCut
import KdevopsNg.Suites.Share
import KdevopsNg.Fstests.Confine
import KdevopsNg.Fstests.Isolate
import KdevopsNg.Fstests.Runnable
import KdevopsNg.Fstests.Rounds
import KdevopsNg.Fstests.Blocks
import KdevopsNg.Common.Picker
import KdevopsNg.Common.RefLookup
import KdevopsNg.Common.Releases
import KdevopsNg.Kernel.Override
import KdevopsNg.Kernel.Rebake
import KdevopsNg.Workbench.Compose
import KdevopsNg.Kernel.Budget
import KdevopsNg.Fstests.Binding
import KdevopsNg.Fstests.Compare
import KdevopsNg.Fstests.Geometry
import KdevopsNg.Kernel.Fragments
import KdevopsNg.Kernel.ToolchainRoots
import KdevopsNg.Fstests.DeviceGate
import KdevopsNg.Fstests.Arming
import KdevopsNg.Suites.Aggregate
import KdevopsNg.Suites.FailuresFirst
import KdevopsNg.Blktests.Start
import KdevopsNg.Qsu.DriveLaws
import KdevopsNg.Qsu.Shares
import KdevopsNg.Kernel.MakeFlags
import KdevopsNg.Usertests.Noise
import KdevopsNg.Suites.Counted
import KdevopsNg.RuntimeTests.WaitFaults
import KdevopsNg.Common.CommandLog
import KdevopsNg.Suites.UnitNames
import KdevopsNg.Workbench.Apart
import KdevopsNg.Workbench.Registry
import KdevopsNg.Qemu.Layers
import KdevopsNg.Fstests.CompareRuns
import KdevopsNg.Common.PublishSubset
import KdevopsNg.Common.StoreIndex
import KdevopsNg.Qsu.Diagnostics
import KdevopsNg.Scripts.ReflowSettles
import KdevopsNg.Common.B4Leaf
import KdevopsNg.Common.SubjectLabel
import KdevopsNg.Common.ExcludeFile
import KdevopsNg.Kernel.DigestFlags
