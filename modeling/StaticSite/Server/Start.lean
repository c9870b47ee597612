import StaticSite.LiveReload.Watch
import StaticSite.Server.Address
import StaticSite.Server.Options

namespace StaticSite.Server
open StaticSite.LiveReload

inductive StartError where
  | watch (cause : WatchError)
  | address
  deriving DecidableEq, Repr

def StartError.message : StartError → String
  | .watch cause => "File watcher error: " ++ cause.message
  | .address => "Invalid address: invalid socket address syntax"

def Options.patterns (o : Options) : List (List Char) :=
  o.watchPatterns.getD Scope.defaultPatterns

def Options.address? (o : Options) : Option SocketAddress :=
  SocketAddress.ofText? (o.host ++ ':' :: (toString o.port.toNat).toList)

def Options.watch (o : Options) (t : FileTree) : FileTree × Except WatchError Unit :=
  if o.liveReload then
    match LiveReload.start t o.sourceDir o.iconsDir o.patterns with
    | (t, .ok _) => (t, .ok ())
    | (t, .error e) => (t, .error e)
  else (t, .ok ())

/-- The sprite is compiled first, and a server starts without one if that fails. The routes are
registered before the address is read; `Site.create?` says whether they can be. -/
def start (t : FileTree) (o : Options) : FileTree × Except StartError SocketAddress :=
  match o.watch (o.compiler.compile t).1 with
  | (t, .error e) => (t, .error (.watch e))
  | (t, .ok _) =>
    match o.address? with
    | some address => (t, .ok address)
    | none => (t, .error .address)

end StaticSite.Server
