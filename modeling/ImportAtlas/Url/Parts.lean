import ImportAtlas.Url.Authority

/-!
# Parts of URLs

A URL reads `scheme://authority/path;params?query#fragment`, where every part but the path may be
missing.

## Summary

* `Url.split?` takes a text apart and fails only on an authority that is not acceptable.
* `Url.Parts.text` puts the parts together again; a part that is empty leaves no delimiter.
* `isRelativeScheme`, `isAuthorityScheme` and `isParamScheme` tell which parts a scheme has.
-/

namespace ImportAtlas.Url

/-- The parts of a URL; a part that is missing is empty. -/
structure Parts where
  /-- In lower case, without the colon. -/
  scheme : List Char
  /-- Between `//` and the path. -/
  authority : List Char
  /-- As far as the parameters, the query or the fragment. -/
  path : List Char
  /-- After the semicolon of the last segment. -/
  params : List Char
  /-- After the question mark. -/
  query : List Char
  /-- After the number sign. -/
  fragment : List Char
  deriving DecidableEq, Inhabited

/-- The schemes against which a relative reference can be resolved. -/
def relativeSchemes : List (List Char) :=
  ["", "ftp", "http", "gopher", "nntp", "imap", "wais", "file", "https", "shttp", "mms",
    "prospero", "rtsp", "rtsps", "rtspu", "sftp", "svn", "svn+ssh", "ws", "wss"].map String.toList

/-- The schemes whose URLs have an authority. -/
def authoritySchemes : List (List Char) :=
  ["", "ftp", "http", "gopher", "nntp", "telnet", "imap", "wais", "file", "mms", "https", "shttp",
    "snews", "prospero", "rtsp", "rtsps", "rtspu", "rsync", "svn", "svn+ssh", "sftp", "nfs", "git",
    "git+ssh", "ws", "wss"].map String.toList

/-- The schemes whose last segment may have parameters. -/
def paramSchemes : List (List Char) :=
  ["", "ftp", "hdl", "prospero", "http", "imap", "https", "shttp", "rtsp", "rtsps", "rtspu", "sip",
    "sips", "mms", "sftp", "tel"].map String.toList

/-- Whether relative references are resolved against URLs of a scheme. -/
def isRelativeScheme (scheme : List Char) : Bool := relativeSchemes.contains scheme

/-- Whether URLs of a scheme have an authority. -/
def isAuthorityScheme (scheme : List Char) : Bool := authoritySchemes.contains scheme

/-- Whether the last segment of a URL of a scheme may have parameters. -/
def isParamScheme (scheme : List Char) : Bool := paramSchemes.contains scheme

/-- The characters of schemes. -/
def isSchemeChar (c : Char) : Bool := c.isAlphanum || c == '+' || c == '-' || c == '.'

/-- A text without leading control characters and spaces, and without tabs and line breaks. -/
def cleanUrl (cs : List Char) : List Char :=
  (cs.dropWhile fun c => c.toNat ≤ 0x20).filter fun c => c ≠ '\t' ∧ c ≠ '\r' ∧ c ≠ '\n'

/-- The scheme at the front of a text and what follows its colon; the scheme is `fallback` when
the text has none of its own. -/
def splitScheme (fallback cs : List Char) : List Char × List Char :=
  let scheme := cs.takeWhile (· ≠ ':')
  match cs.dropWhile (· ≠ ':') with
  | ':' :: rest =>
    if (scheme.head?.any Char.isAlpha) && scheme.all isSchemeChar then
      (scheme.map Char.toLower, rest)
    else (fallback, cs)
  | _ => (fallback, cs)

/-- The authority at the front of a text, if `//` announces one, and what follows it. -/
def splitAuthority (cs : List Char) : List Char × List Char :=
  match cs with
  | '/' :: '/' :: rest =>
    (rest.takeWhile fun c => c ≠ '/' ∧ c ≠ '?' ∧ c ≠ '#',
      rest.dropWhile fun c => c ≠ '/' ∧ c ≠ '?' ∧ c ≠ '#')
  | _ => ([], cs)

/-- A text before and after the first occurrence of a delimiter. -/
def splitAt (delimiter : Char) (cs : List Char) : List Char × List Char :=
  (cs.takeWhile (· ≠ delimiter), (cs.dropWhile (· ≠ delimiter)).drop 1)

/-- A path before and after the first semicolon of its last segment. -/
def splitParams (path : List Char) : List Char × List Char :=
  let last := (path.reverse.takeWhile (· ≠ '/')).reverse
  let above := path.take (path.length - last.length)
  let (kept, params) := splitAt ';' last
  (above ++ kept, params)

/-- The parts of a URL, with `scheme` for a URL that has none; `none` if its authority is not
acceptable. -/
def split? (scheme url : List Char) : Option Parts :=
  let (scheme, rest) := splitScheme scheme (cleanUrl url)
  let (authority, rest) := splitAuthority rest
  let (rest, fragment) := splitAt '#' rest
  let (path, query) := splitAt '?' rest
  let (path, params) := if isParamScheme scheme then splitParams path else (path, [])
  if isAcceptable authority then some ⟨scheme, authority, path, params, query, fragment⟩ else none

namespace Parts

/-- Whether `//` is written before the authority and the path. An empty authority is announced
only for a scheme that has one, and only if the path does not begin with two slashes itself. -/
def announcesAuthority (parts : Parts) : Bool :=
  !parts.authority.isEmpty || (!parts.scheme.isEmpty && isAuthorityScheme parts.scheme &&
    !("//".toList.isPrefixOf parts.path))

/-- The parts put together. -/
def text (parts : Parts) : List Char :=
  let path := if parts.params.isEmpty then parts.path else parts.path ++ ';' :: parts.params
  let path :=
    if parts.announcesAuthority then
      let path := if path.isEmpty || path.head? = some '/' then path else '/' :: path
      '/' :: '/' :: parts.authority ++ path
    else path
  let path := if parts.scheme.isEmpty then path else parts.scheme ++ ':' :: path
  let path := if parts.query.isEmpty then path else path ++ '?' :: parts.query
  if parts.fragment.isEmpty then path else path ++ '#' :: parts.fragment

end Parts

end ImportAtlas.Url
