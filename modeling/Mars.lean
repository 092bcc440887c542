import Mars.Cgroup.Location
import Mars.State.Liveness
import Mars.Container.Privileges
import Mars.Rootfs.Harden
import Mars.Rootfs.Readonly
import Mars.Container.Fifo
import Mars.Container.Start
import Mars.Container.Hooks
import Mars.Core.History
import Mars.Namespace
import Mars.Sync
import Mars.Container.Protocol
import Mars.Container.Steps
import Mars.Container.Ordering
import Mars.Container.ExecProtocol
import Mars.Container.Placement
import Mars.Container.Cleanup
import Mars.Container.FailedCreate
import Mars.Container.Exclusive
import Mars.Container.Ownership
import Mars.Container.Signals
import Mars.Cgroup.Resources
import Mars.Container.Lifecycle
import Mars.Container.StatusMoves
import Mars.Container.Seccomp
import Mars.Container.SeccompArgs
import Mars.Core.FileTree
import Mars.Rootfs.Populate
import Mars.Rootfs.Containment
import Mars.Container.Delete
import Mars.Container.Joining
import Mars.Container.Attempts
import Mars.Container.Progress
import Mars.Container.Commands
import Mars.Container.HookContract
import Mars.Container.HooksOnce
import Mars.Container.Program
import Mars.Container.Wedge
import Mars.State.Store
import Mars.Cgroup.Inverse
import Mars.Cgroup.Interleaving
import Mars.Container.Freezer
import Mars.Container.KillAll
import Mars.Cgroup.Limits
import Mars.Cgroup.SwapTotal
import Mars.Container.Update
import Mars.Core.Escape
import Mars.Core.PathText
import Mars.Rootfs.Overlay
import Mars.Rootfs.OverlayMount
import Mars.Rootfs.OverlayPage
import Mars.Bundle.Validate
import Mars.Cgroup.Delegation
import Mars.Container.CapabilitySequence
import Mars.Container.ExecEnv
import Mars.Container.Foreground
import Mars.Container.Supervise
import Mars.Rootfs.OverlayPrepare
import Mars.Rootfs.Sysctl
import Mars.Container.Reported
import Mars.Container.HookPipes
import Mars.Container.SeccompSkipped
import Mars.Container.Unshared
import Mars.Core.Calendar
import Mars.Core.FixedWidth
import Mars.Core.JsonRead
import Mars.Durations
import Mars.Rootfs.MountOptions
import Mars.Rootfs.SysctlKeys
import Mars.Rootfs.SysctlOrder
import Mars.State.Clock
import Mars.State.Listing
import Mars.Telemetry.Export
import Mars.Telemetry.Foreseen
import Mars.Telemetry.Spans
import Mars.Telemetry.Delivery
import Mars.Core.JsonLines
import Mars.Core.JsonWriter
import Mars.Core.JsonPrefix
import Mars.Core.JsonPretty
import Mars.Core.JsonRecord
import Mars.Core.TextLines
import Mars.Core.MountContents
import Mars.Rootfs.MountIsolation
import Mars.Rootfs.PivotRoot
import Mars.Rootfs.Hardening
import Mars.State.Format
import Mars.State.Saving
import Mars.State.Document
import Mars.Container.UserMappings
import Mars.Cgroup.Stats
import Mars.Container.HostIdentity
import Mars.Container.Descriptors
import Mars.Container.ExecDescriptors
