import StaticSite.Text.Search

namespace StaticSite.Server
open StaticSite.Text

def socketPath : List Char := "/ws/live-reload".toList

def clientPath : List Char := "/__weft/live-reload.js".toList

def clientLines : List String :=
  ["(() => \x7b",
    "  const script = document.currentScript;",
    "  const spriteUrl = script ? script.dataset.sprite : null;",
    "  const protocol = location.protocol === \"https:\" ? \"wss:\" : \"ws:\";",
    "",
    "  const refreshSprite = (timestamp) => \x7b",
    "    if (!spriteUrl) \x7b",
    "      return;",
    "    \x7d",
    "    for (const use of document.querySelectorAll(\"use\")) \x7b",
    "      for (const name of [\"href\", \"xlink:href\"]) \x7b",
    "        const value = use.getAttribute(name);",
    "        if (!value) \x7b",
    "          continue;",
    "        \x7d",
    "        const [url, fragment] = value.split(\"#\");",
    "        if (url.split(\"?\")[0] !== spriteUrl) \x7b",
    "          continue;",
    "        \x7d",
    "        const busted = `$\x7bspriteUrl\x7d?v=$\x7btimestamp\x7d`;",
    "        use.setAttribute(name, fragment === undefined ? busted : `$\x7bbusted\x7d#$\x7bfragment\x7d`);",
    "      \x7d",
    "    \x7d",
    "  \x7d;",
    "",
    "  const connect = () => \x7b",
    "    const socket = new WebSocket(`$\x7bprotocol\x7d//$\x7blocation.host\x7d/ws/live-reload`);",
    "    socket.addEventListener(\"message\", (message) => \x7b",
    "      const event = JSON.parse(message.data);",
    "      if (event.type === \"reload\") \x7b",
    "        location.reload();",
    "      \x7d else if (event.type === \"sprite\") \x7b",
    "        refreshSprite(event.timestamp);",
    "      \x7d",
    "    \x7d);",
    "    socket.addEventListener(\"close\", () => setTimeout(connect, 1000));",
    "  \x7d;",
    "",
    "  connect();",
    "\x7d)();"]

def clientScript : List Char :=
  clientLines.flatMap fun line => line.toList ++ ['\n']

def scriptTag (script spriteUrl : List Char) : List Char :=
  "<script src=\"".toList ++ script ++ "\" data-sprite=\"".toList ++ spriteUrl ++
    "\"></script>".toList

def bodyClose : List Char := "</body>".toList

def startsWithBodyClose (html : List Char) : Bool :=
  sameLetters bodyClose (html.take bodyClose.length)

def splitBody : List Char → List Char × List Char
  | [] => ([], [])
  | c :: cs =>
    match splitBody cs with
    | (before, []) => if startsWithBodyClose (c :: cs) then ([], c :: cs) else (c :: before, [])
    | (before, after) => (c :: before, after)

def injectClient (html script spriteUrl : List Char) : List Char :=
  (splitBody html).1 ++ scriptTag script spriteUrl ++ (splitBody html).2

end StaticSite.Server
