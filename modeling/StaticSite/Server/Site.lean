import StaticSite.Page.Expansion
import StaticSite.Server.Client
import StaticSite.Server.Handshake
import StaticSite.Server.MediaType
import StaticSite.Server.Options
import StaticSite.Server.Router

namespace StaticSite.Server
open StaticSite.Page

structure Response where
  status : Nat
  headers : List (String × String)
  body : Content
  deriving DecidableEq, Repr

structure Served where
  mediaType : String
  body : Content
  deriving DecidableEq, Repr

inductive ServeError where
  | notFound (path : List Char)
  | page (cause : ReadFailure)
  | unreadable (cause : FileError)
  | handshake (cause : HandshakeProblem)
  deriving DecidableEq, Repr

namespace ServeError

def status : ServeError → Nat
  | .notFound _ => 404
  | .page ⟨_, .notFound⟩ => 404
  | .handshake cause => cause.status
  | _ => 500

def message : ServeError → String
  | .notFound path => "Not found: " ++ String.ofList path
  | .page cause => cause.message
  | .unreadable cause => "I/O error: " ++ cause.message
  | .handshake cause => cause.message

end ServeError

def commonHeaders : List (String × String) :=
  [("x-content-type-options", "nosniff"), ("x-frame-options", "SAMEORIGIN"),
    ("referrer-policy", "no-referrer")]

def Served.response (a : Served) : Response :=
  ⟨200, [("content-type", a.mediaType), ("cache-control", "no-cache")] ++ commonHeaders, a.body⟩

def ServeError.response (e : ServeError) : Response :=
  ⟨e.status, ("content-type", "text/plain; charset=utf-8") :: commonHeaders,
    .text e.message.toList⟩

structure Site where
  sourceDir : Path
  resolver : Resolver
  spritePath : Path
  spriteUrlPath : List Char
  liveReload : Bool
  deriving DecidableEq, Repr

namespace Site

def ofOptions (t : FileTree) (o : Options) : Site :=
  ⟨o.sourceDir, .ofRoot t.here (some o.sourceDir) o.componentsDir, o.spriteOutput, o.spriteUrlPath,
    o.liveReload⟩

def serveFile (t : FileTree) (file : Path) (url : List Char) (mediaType : String) :
    Except ServeError Served :=
  match t.read file with
  | .ok content => .ok ⟨mediaType, content⟩
  | .error .notFound => .error (.notFound url)
  | .error e => .error (.unreadable e)

def pageMedia : String := "text/html; charset=utf-8"

def servePage (s : Site) (t : FileTree) (file : Path) : Except ServeError Served :=
  match expandFile t s.resolver file with
  | .error e => .error (.page e)
  | .ok expansion =>
    .ok ⟨pageMedia, .text (if s.liveReload then
      injectClient expansion.html clientPath s.spriteUrlPath else expansion.html)⟩

def serveSource (s : Site) (t : FileTree) (url : List Char) : Except ServeError Served :=
  match fileOf? t s.sourceDir url with
  | none => .error (.notFound url)
  | some file =>
    if isPage file then s.servePage t file else serveFile t file url (mediaTypeOf file)

def routes (s : Site) : List (List Char) :=
  s.spriteUrlPath :: if s.liveReload then [socketPath, clientPath] else []

/-- The route of the sprite comes last, since it may stand for more than one path. -/
def serve (s : Site) (t : FileTree) (r : Request) (router : Router := .literal) :
    Except ServeError Served :=
  if s.liveReload ∧ router.covers socketPath r.path then .error (.handshake r.handshakeProblem)
  else if s.liveReload ∧ router.covers clientPath r.path then
    .ok ⟨"text/javascript; charset=utf-8", .text clientScript⟩
  else if router.covers s.spriteUrlPath r.path then
    serveFile t s.spritePath s.spriteUrlPath "image/svg+xml"
  else s.serveSource t r.path

def get (s : Site) (t : FileTree) (r : Request) (router : Router := .literal) : Response :=
  match s.serve t r router with
  | .ok a => Served.response a
  | .error e => ServeError.response e

def respond (s : Site) (t : FileTree) (r : Request) (router : Router := .literal) : Response :=
  if r.method = "GET" then s.get t r router
  else if r.method = "HEAD" then { s.get t r router with body := .text [] }
  else ⟨405, ("allow", "GET,HEAD") :: commonHeaders, .text []⟩

/-- The responses of a site. There are none if its routes cannot be registered. -/
def create? (s : Site) (router : Router) : Option (FileTree → Request → Response) :=
  if router.accepts s.routes then some fun t r => s.respond t r router else none

end Site

end StaticSite.Server
