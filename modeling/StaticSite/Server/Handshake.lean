import StaticSite.Server.Request

namespace StaticSite.Server
open StaticSite.Text

inductive HandshakeProblem where
  | notGet
  | connectionNotUpgraded
  | noSocketAsked
  | noKey
  | otherVersion
  | notUpgradable
  deriving DecidableEq, Repr

namespace HandshakeProblem

def status : HandshakeProblem → Nat
  | .notGet => 405
  | .notUpgradable => 426
  | _ => 400

def message : HandshakeProblem → String
  | .notGet => "Request method must be `GET`"
  | .connectionNotUpgraded => "Connection header did not include 'upgrade'"
  | .noSocketAsked => "`Upgrade` header did not include 'websocket'"
  | .noKey => "`Sec-WebSocket-Key` header missing"
  | .otherVersion => "`Sec-WebSocket-Version` header did not include '13'"
  | .notUpgradable =>
    "WebSocket request couldn't be upgraded since no upgrade state was present"

end HandshakeProblem

def Request.headerIs (r : Request) (name value : String) : Bool :=
  (r.header? name).any (sameLetters value.toList)

def Request.headerMentions (r : Request) (name value : String) : Bool :=
  (r.header? name).any fun v => (splitAt? value.toList (lowerAscii v)).isSome

/-- What stands in the way of a socket. A request that comes without its connection can in the end
not be upgraded. -/
def Request.handshakeProblem (r : Request) : HandshakeProblem :=
  if r.method ≠ "GET" then .notGet
  else if !r.headerMentions "connection" "upgrade" then .connectionNotUpgraded
  else if !r.headerIs "upgrade" "websocket" then .noSocketAsked
  else if (r.header? "sec-websocket-key").isNone then .noKey
  else if !r.headerIs "sec-websocket-version" "13" then .otherVersion
  else .notUpgradable

end StaticSite.Server
