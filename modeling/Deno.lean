import Deno.Args.PermissionArgs
import Deno.Cache.Emit
import Deno.Cache.Semantics
import Deno.Cache.Vary
import Deno.Coverage.MergeProcesses
import Deno.Cron.Backoff
import Deno.Fetch.EventSource
import Deno.Fetch.FormDataRoundTrip
import Deno.Fetch.HeaderTrim
import Deno.Fetch.HeadersIterate
import Deno.Http.NetworkBufferedStream
import Deno.Http.RecordLifecycle
import Deno.Kv.Resume
import Deno.Lsp.Documents
import Deno.Node.BufferSearch
import Deno.Node.CipherRoundTrip
import Deno.Node.ImportsPattern
import Deno.Node.Ipc
import Deno.Node.PackageTarget
import Deno.Node.QuerystringRoundTrip
import Deno.Node.TargetSubstitution
import Deno.Npm.CacheDir
import Deno.Npm.FolderNames
import Deno.Npm.TarballContainment
import Deno.Permissions.CheckAll
import Deno.Permissions.ChildPermissions
import Deno.Permissions.Revocation
import Deno.Permissions.RunAlias
import Deno.Publish.OrderCycle
import Deno.Publish.WorkspaceDeps
import Deno.Standalone.OpenFile
import Deno.Standalone.Symlinks
import Deno.Task.Script
import Deno.Tools.TestChannel
import Deno.Util.FileWatcher
import Deno.Util.GitIgnore
import Deno.Util.References
import Deno.Util.TaskQueueProgress
import Deno.Web.BlobProgram
import Deno.Web.ByteStreamDelivery
import Deno.Web.ChannelWakers
import Deno.Web.Mime
