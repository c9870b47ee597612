import StaticSite.Main
import StaticSite.Proofs.Build.Exclusion
import StaticSite.Proofs.LiveReload.Freshness
import StaticSite.Proofs.Server.Pages
import StaticSite.Proofs.Sprite.RoundTrip
import StaticSite.Proofs.Build.Containment
import StaticSite.Proofs.Sprite.Idempotence
import StaticSite.Proofs.FileTree.Complete
import StaticSite.Proofs.Build.Coverage
import StaticSite.Proofs.LiveReload.Coalescing
import StaticSite.Proofs.LiveReload.History
import StaticSite.Proofs.LiveReload.Watched
import StaticSite.Proofs.LiveReload.Messages
import StaticSite.Proofs.Svg.Settled
import StaticSite.Proofs.Svg.Extraction
import StaticSite.Proofs.Svg.References
import StaticSite.Proofs.Sprite.Discovery
import StaticSite.Proofs.LiveReload.Failure
import StaticSite.Proofs.Page.Partial
import StaticSite.Proofs.Page.Comment
import StaticSite.Proofs.Page.Alias
import StaticSite.Proofs.LiveReload.Life
import StaticSite.Proofs.Server.Request
import StaticSite.Proofs.Server.Missing
import StaticSite.Proofs.Config.Variables
import StaticSite.Proofs.Config.Layers
import StaticSite.Proofs.Path.Stack
import StaticSite.Proofs.Server.Injection
import StaticSite.Proofs.Build.Exactness
