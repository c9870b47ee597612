import StaticSite.Path
import StaticSite.Text.Search

/-!
The media type of a file, from its extension. The table is partial: it has the extensions of what a
site is commonly made of, and is silent on the many others that are registered.
-/

namespace StaticSite.Server
open StaticSite.Text

def mediaTypes : List (String × String) :=
  [("avif", "image/avif"), ("bmp", "image/bmp"), ("css", "text/css"), ("csv", "text/csv"),
    ("eot", "application/vnd.ms-fontobject"), ("gif", "image/gif"), ("gz", "application/gzip"),
    ("htm", "text/html"), ("html", "text/html"), ("ico", "image/x-icon"), ("jpeg", "image/jpeg"),
    ("jpg", "image/jpeg"), ("js", "text/javascript"), ("json", "application/json"),
    ("md", "text/markdown"), ("mjs", "application/javascript"), ("mp3", "audio/mpeg"),
    ("mp4", "video/mp4"), ("mpeg", "video/mpeg"), ("ogg", "audio/ogg"), ("otf", "font/otf"),
    ("pdf", "application/pdf"), ("png", "image/png"), ("svg", "image/svg+xml"),
    ("tar", "application/x-tar"), ("tif", "image/tiff"), ("tiff", "image/tiff"),
    ("ttf", "font/ttf"), ("txt", "text/plain"), ("wasm", "application/wasm"),
    ("wav", "audio/wav"), ("webm", "video/webm"), ("webmanifest", "application/manifest+json"),
    ("webp", "image/webp"), ("woff", "font/woff"), ("woff2", "font/woff2"),
    ("xhtml", "application/xhtml+xml"), ("xml", "text/xml"), ("zip", "application/zip")]

def unknownMedia : String := "application/octet-stream"

def mediaTypeOf (file : Path) : String :=
  (file.extension?.bind fun e => mediaTypes.lookup (String.ofList (lowerAscii e))).getD unknownMedia

end StaticSite.Server
