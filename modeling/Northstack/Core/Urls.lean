import Northstack.Core.TextFiles

/-!
# URLs

What `urlparse` and `urljoin` of the source language's library make of a text. A
URL is split without being checked: the port is looked at when it is asked for, and
raises then; brackets and the normal form of the authority are looked at when the URL
is split. What rests on Unicode tables or on the syntax of addresses is in `Tables`.
-/
namespace Urls

open TextFiles

/-- `str.lower`, and whether the library takes an authority: by its normal form, and by
what stands in its brackets. -/
structure Tables where
  lower : Text → Text
  netlocOk : Text → Bool
  bracketedOk : Text → Bool

/-- `ParseResult` -/
structure ParseResult where
  scheme : Text
  netloc : Text
  path : Text
  params : Text := []
  query : Text := []
  fragment : Text := []
  deriving DecidableEq

def char (c : Char) : CodePoint := .scalar c

/-- The text before the first such code point, and what follows it. -/
def partitionAt (c : CodePoint) (s : Text) : Text × Text :=
  (s.takeWhile (· ≠ c), (s.dropWhile (· ≠ c)).drop 1)

/-- The text before the last such code point, and what follows it. -/
def rpartitionAt (c : CodePoint) (s : Text) : Text × Text :=
  if c ∈ s then
    let after := (s.reverse.takeWhile (· ≠ c)).reverse
    (s.take (s.length - after.length - 1), after)
  else ([], s)

/-- The schemes for which the library joins paths, knows authorities and parameters. -/
def usesRelative : List Text :=
  ["", "ftp", "http", "gopher", "nntp", "imap", "wais", "file", "https", "shttp", "mms",
    "prospero", "rtsp", "rtsps", "rtspu", "sftp", "svn", "svn+ssh", "ws", "wss"].map text

def usesNetloc : List Text :=
  ["", "ftp", "http", "gopher", "nntp", "telnet", "imap", "wais", "file", "mms", "https", "shttp",
    "snews", "prospero", "rtsp", "rtsps", "rtspu", "rsync", "svn", "svn+ssh", "sftp", "nfs", "git",
    "git+ssh", "ws", "wss", "itms-services"].map text

def usesParams : List Text :=
  ["", "ftp", "hdl", "prospero", "http", "https", "shttp", "rtsp", "rtsps", "rtspu", "sip", "sips",
    "mms", "sftp", "tel"].map text

/-- A letter, digit, `+`, `-` or `.` of ASCII. -/
def schemeChar : CodePoint → Bool
  | .scalar c => c.isAlphanum || c ∈ ['+', '-', '.']
  | .surrogate _ => false

def asciiLower : Text → Text := List.map fun
  | .scalar c => .scalar c.toLower
  | c => c

/-- The scheme of a URL and the rest, if it has one. -/
def splitScheme (scheme url : Text) : Text × Text :=
  let before := url.takeWhile (· ≠ char ':')
  match before with
  | .scalar c :: _ =>
    if c.isAlpha ∧ char ':' ∈ url ∧ before.all schemeChar then
      (asciiLower before, url.drop (before.length + 1))
    else (scheme, url)
  | _ => (scheme, url)

/-- `urlsplit(url, scheme)`; `none` for the `ValueError`s it raises. -/
def urlsplit (tables : Tables) (url scheme : Text) : Option ParseResult :=
  let url := (url.dropWhile fun c => c.value ≤ 32).filter (· ∉ [char '\t', char '\r', char '\n'])
  let (scheme, url) := splitScheme scheme url
  let authority := text "//" <+: url
  let rest := url.drop 2
  let stops := fun c => c ∉ [char '/', char '?', char '#']
  let (netloc, url) := if authority then (rest.takeWhile stops, rest.dropWhile stops) else ([], url)
  if char '[' ∈ netloc ∧ char ']' ∉ netloc ∨ char ']' ∈ netloc ∧ char '[' ∉ netloc then none
  else if char '[' ∈ netloc ∧ tables.bracketedOk netloc = false then none
  else
    let (url, fragment) := partitionAt (char '#') url
    let (url, query) := partitionAt (char '?') url
    if tables.netlocOk netloc = false then none
    else some { scheme := scheme, netloc := netloc, path := url, query := query,
                fragment := fragment }

/-- `_splitparams(url)` -/
def splitParams (url : Text) : Text × Text :=
  let tail := (rpartitionAt (char '/') url).2
  let (_, params) := partitionAt (char ';') tail
  if char ';' ∈ tail then (url.take (url.length - params.length - 1), params) else (url, [])

/-- `urlparse(url, scheme)` -/
def urlparse (tables : Tables) (url scheme : Text) : Option ParseResult :=
  (urlsplit tables url scheme).map fun r =>
    if r.scheme ∈ usesParams then
      let (path, params) := splitParams r.path
      { r with path := path, params := params }
    else r

/-- `urlunparse` -/
def urlunparse (r : ParseResult) : Text :=
  let url := if r.params = [] then r.path else r.path ++ text ";" ++ r.params
  let url :=
    if r.netloc ≠ [] ∨ r.scheme ≠ [] ∧ r.scheme ∈ usesNetloc ∧ ¬ text "//" <+: url then
      let url := if url ≠ [] ∧ url.head? ≠ some (char '/') then text "/" ++ url else url
      text "//" ++ r.netloc ++ url
    else url
  let url := if r.scheme = [] then url else r.scheme ++ text ":" ++ url
  let url := if r.query = [] then url else url ++ text "?" ++ r.query
  if r.fragment = [] then url else url ++ text "#" ++ r.fragment

/-- The segments of a path with `.` and `..` carried out. -/
def resolveSegments (segments : List Text) : List Text :=
  let resolved := segments.foldl (fun path segment =>
    if segment = text ".." then path.dropLast
    else if segment = text "." then path
    else path ++ [segment]) []
  if segments.getLast? = some (text ".") ∨ segments.getLast? = some (text "..") then
    resolved ++ [[]]
  else resolved

/-- The segments to resolve for `path` relative to `base`. -/
def joinSegments (base path : Text) : List Text :=
  if path.head? = some (char '/') then path.splitOn (char '/')
  else
    let parts := base.splitOn (char '/')
    let parts := if parts.getLast? = some [] then parts else parts.dropLast
    match parts ++ path.splitOn (char '/') with
    | [] => []
    | first :: rest => first :: (rest.dropLast.filter (· ≠ []) ++ rest.getLast?.toList)

/-- `urljoin(base, url)`; `none` where a `urlparse` raises. -/
def urljoin (tables : Tables) (base url : Text) : Option Text :=
  if base = [] then some url
  else if url = [] then some base
  else do
    let b ← urlparse tables base []
    let r ← urlparse tables url b.scheme
    if r.scheme ≠ b.scheme ∨ r.scheme ∉ usesRelative then return url
    if r.scheme ∈ usesNetloc ∧ r.netloc ≠ [] then return urlunparse r
    let netloc := if r.scheme ∈ usesNetloc then b.netloc else r.netloc
    if r.path = [] ∧ r.params = [] then
      let query := if r.query = [] then b.query else r.query
      return urlunparse
        { r with netloc := netloc, path := b.path, params := b.params, query := query }
    let path := [char '/'].intercalate (resolveSegments (joinSegments b.path r.path))
    return urlunparse { r with netloc := netloc, path := if path = [] then text "/" else path }

/-! ## Whether a text is a URL

The default scheme has no say in it. -/

theorem splitScheme_snd (scheme scheme' url : Text) :
    (splitScheme scheme url).2 = (splitScheme scheme' url).2 := by
  unfold splitScheme
  simp only
  split
  · split
    · rfl
    · rfl
  · rfl

theorem urlsplit_none {tables : Tables} {url : Text} (scheme scheme' : Text) :
    urlsplit tables url scheme = none ↔ urlsplit tables url scheme' = none := by
  unfold urlsplit
  simp only [splitScheme_snd scheme scheme']
  split
  · simp
  split
  · simp
  split
  · simp
  · simp

theorem urlparse_none {tables : Tables} {url : Text} (scheme scheme' : Text) :
    urlparse tables url scheme = none ↔ urlparse tables url scheme' = none := by
  unfold urlparse
  rw [Option.map_eq_none_iff, Option.map_eq_none_iff]
  exact urlsplit_none scheme scheme'

theorem urlparse_empty {tables : Tables} {p : ParseResult} (h : urlparse tables [] [] = some p) :
    p.scheme = [] := by
  obtain ⟨r, hr, rfl⟩ := Option.map_eq_some_iff.mp h
  have hsplit : splitScheme [] [] = ([], []) := rfl
  have hopen : ¬ text "//" <+: [] := by decide
  have hscheme : r.scheme = [] := by
    unfold urlsplit at hr
    simp only [List.dropWhile_nil, List.filter_nil, hsplit, hopen, if_false, List.not_mem_nil,
      not_false_eq_true, false_and, or_self] at hr
    split at hr
    · cases hr
    · rw [← Option.some.inj hr]
  split
  · exact hscheme
  · exact hscheme

/-- Joining to a URL raises where the text to join is none. -/
theorem urljoin_none {tables : Tables} {base url : Text} {b : ParseResult} (hbase : base ≠ [])
    (hurl : url ≠ []) (hparsed : urlparse tables base [] = some b) :
    urljoin tables base url = none ↔ urlparse tables url [] = none := by
  rw [urlparse_none [] b.scheme]
  unfold urljoin
  simp only [hbase, hurl, if_false, hparsed, Option.bind_eq_bind, Option.bind_some]
  cases urlparse tables url b.scheme with
  | none => simp
  | some r =>
    simp only [Option.bind_some]
    split
    · simp
    split
    · simp
    split
    · simp
    · simp

/-! ## The parts of an authority -/

/-- The host and port as they stand in the authority. -/
def ParseResult.hostinfo (r : ParseResult) : Text × Text :=
  let info := (rpartitionAt (char '@') r.netloc).2
  if char '[' ∈ info then
    let (host, port) := partitionAt (char ']') (partitionAt (char '[') info).2
    (host, (partitionAt (char ':') port).2)
  else partitionAt (char ':') info

/-- `.hostname`; a zone keeps its case. -/
def ParseResult.hostname (tables : Tables) (r : ParseResult) : Option Text :=
  let host := r.hostinfo.1
  if host = [] then none
  else
    let (name, zone) := partitionAt (char '%') host
    some (if char '%' ∈ host then tables.lower name ++ text "%" ++ zone else tables.lower name)

/-- `.username` -/
def ParseResult.username (r : ParseResult) : Option Text :=
  if char '@' ∈ r.netloc then some (partitionAt (char ':') (rpartitionAt (char '@') r.netloc).1).1
  else none

/-- `.password` -/
def ParseResult.password (r : ParseResult) : Option Text :=
  let info := (rpartitionAt (char '@') r.netloc).1
  if char '@' ∈ r.netloc ∧ char ':' ∈ info then some (partitionAt (char ':') info).2 else none

def digit? : CodePoint → Option Nat
  | .scalar c => if c.isDigit then some (c.toNat - 48) else none
  | .surrogate _ => none

/-- `.port`; the outer `none` for the `ValueError` it raises. -/
def ParseResult.port (r : ParseResult) : Option (Option Nat) :=
  let port := r.hostinfo.2
  if port = [] then some none
  else
    match port.mapM digit? with
    | none => none
    | some digits =>
      let n := digits.foldl (fun n d => 10 * n + d) 0
      if n ≤ 65535 then some (some n) else none

end Urls
