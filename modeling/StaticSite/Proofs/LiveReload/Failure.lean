import StaticSite.Proofs.LiveReload.Messages

namespace StaticSite.LiveReload
open StaticSite.Sprite StaticSite.FileTree

section blocked

open Compiler

end blocked

end StaticSite.LiveReload
