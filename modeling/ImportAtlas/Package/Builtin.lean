/-!
# Platform modules

Modules that a platform provides itself are served to others by one package of stand-ins. Some
have no stand-in in browsers; there they are the empty module.
-/

namespace ImportAtlas.Builtin

/-- The name of the module without content. -/
def emptyModule : String := "@empty"

/-- The platform modules, in order. -/
def names : List String := [
  "assert", "buffer", "child_process", "cluster", "console", "constants", "crypto", "dgram", "dns",
  "domain", "events", "fs", "http", "https", "module", "net", "os", "path", "process", "punycode",
  "querystring", "readline", "repl", "stream", "string_decoder", "sys", "timers", "tls", "tty",
  "url", "util", "vm", "zlib"]

/-- The platform modules without a stand-in in browsers. -/
def absentInBrowsers : List String := [
  "child_process", "cluster", "dgram", "dns", "fs", "module", "net", "readline", "repl", "tls"]

/-- Whether the package of stand-ins serves a name. -/
def isBuiltin (name : String) : Bool := names.contains name || name == emptyModule

/-- The file of the package of stand-ins that serves a name. -/
def shimFile (name : String) (browser : Bool) : String :=
  if name == emptyModule || (browser && absentInBrowsers.contains name) then emptyModule ++ ".js"
  else name ++ ".js"

end ImportAtlas.Builtin
