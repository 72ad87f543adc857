import SourceMap.Url

/-!
# Paths

Sources are named by paths or URLs. This module brings such names into forms that can be compared:
`normalize` resolves the dots in a name, `join` resolves a name against a root, and `relative` says
how to reach a name from a root. Nothing here looks at a file system.

The functions ending in `Chars` do the work on rows of characters.
-/

set_option autoImplicit false

namespace SourceMap.Path

/-! ## Components -/

/-- What stands between the slashes. A run of slashes separates once, so that only the first and the
last component can be empty. -/
def components : List Char → List (List Char)
  | [] => [[]]
  | c :: cs =>
    match c == '/', components cs with
    | true, [] :: p :: ps => [] :: p :: ps
    | true, ps => [] :: ps
    | false, p :: ps => (c :: p) :: ps
    | false, [] => [[c]]

/-- Components with a slash between them. -/
def joinComponents (ps : List (List Char)) : List Char :=
  ['/'].intercalate ps

/-- Resolves the dots from the last component to the first. The result says how many steps up are
still to be taken before the components that remain. A step up takes the component before it away,
and at the root it does nothing. -/
def resolve : List (List Char) → Nat × List (List Char)
  | [] => (0, [])
  | p :: ps =>
    let (up, kept) := resolve ps
    if p = ['.'] then (up, kept)
    else if p = ['.', '.'] then (up + 1, kept)
    else if p = [] then (0, p :: kept)
    else match up with
      | 0 => (0, p :: kept)
      | up + 1 => (up, kept)

/-- The components that are left when the dots are resolved, the remaining steps up first. -/
def resolved (ps : List (List Char)) : List (List Char) :=
  let (up, kept) := resolve ps
  List.replicate up ['.', '.'] ++ kept

/-! ## Normal form -/

/-- Whether a name starts at a root: with a slash, or as a URL. -/
def isAbsoluteChars (cs : List Char) : Bool :=
  cs.head? == some '/' || (Url.ofChars? cs).isSome

/-- A path with its dots resolved. An absolute path that comes to nothing is the root, and
a relative one is a dot. -/
def normalizePath (cs : List Char) : List Char :=
  match joinComponents (resolved (components cs)) with
  | [] => if isAbsoluteChars cs then ['/'] else ['.']
  | c :: rest => c :: rest

/-- A name with the dots of its path resolved. A URL without a path stays as it is. -/
def normalizeChars (cs : List Char) : List Char :=
  match Url.ofChars? cs with
  | none => normalizePath cs
  | some url =>
    if url.path.isEmpty then cs
    else Url.toChars { url with path := normalizePath url.path }

/-! ## Joining -/

/-- An empty name stands for the current directory. -/
def orDot (cs : List Char) : List Char :=
  if cs.isEmpty then ['.'] else cs

/-- A text without its trailing slashes. -/
def dropTrailingSlashes (cs : List Char) : List Char :=
  (cs.reverse.dropWhile (· == '/')).reverse

/-- Whether a name holds its data: `data:`, at least one character, a comma, and at least one
character more, all on one line. -/
def isData (cs : List Char) : Bool :=
  match "data:".toList.isPrefixOf? cs with
  | none => false
  | some rest => (rest.drop 1).dropLast.contains ',' && !rest.contains '\n'

/-- A path below a root, or itself where it starts with a slash. -/
def joinPaths (root path : List Char) : List Char :=
  if path.head? = some '/' then path
  else normalizeChars (dropTrailingSlashes root ++ '/' :: path)

/-- Resolves a name against a root. A URL, which may take its scheme from the root, and a name that
holds its data need no root. A root of a bare `//` takes the name for its host. -/
def joinChars (root path : List Char) : List Char :=
  let root := orDot root
  let path := orDot path
  match Url.ofChars? path, Url.ofChars? root with
  | some url, some base =>
    if url.scheme.isEmpty then Url.toChars { url with scheme := base.scheme } else path
  | some _, none => path
  | none, base =>
    if isData path then path
    else match base with
      | none => joinPaths root path
      | some base =>
        if base.host.isEmpty && base.path.isEmpty then Url.toChars { base with host := path }
        else
          let basePath := if base.path.isEmpty then ['/'] else base.path
          Url.toChars { base with path := joinPaths basePath path }

/-! ## The way from a root -/

/-- The texts before the slashes of a text, longest first. -/
def cuts : List Char → List (List Char)
  | [] => []
  | c :: cs => (cuts cs).map (c :: ·) ++ (if c == '/' then [[]] else [])

/-- Whether nothing is left of a root but a scheme: a component that ends in a colon, if there is
one, and slashes. -/
def isSchemeRoot (cs : List Char) : Bool :=
  let name := cs.takeWhile (· != '/')
  let slashes := cs.dropWhile (· != '/')
  slashes.all (· == '/') &&
    (name.isEmpty || (2 ≤ name.length && name.getLast? == some ':' && !slashes.isEmpty))

/-- A root without one trailing slash, and the directories above it up to a scheme root. -/
def ancestors (root : List Char) : List (List Char) :=
  let root := orDot root
  let root := if root.getLast? = some '/' then root.dropLast else root
  root :: (cuts root).takeWhile (!isSchemeRoot ·)

/-- What a path has after a directory and a slash, if it lies in the directory. -/
def below? (dir path : List Char) : Option (List Char) :=
  (dir ++ ['/']).isPrefixOf? path

/-- The way to a path that lies below one of the directories, where `up` steps lead to the first
of them. -/
def wayFrom? (path : List Char) : (up : Nat) → List (List Char) → Option (List Char)
  | _, [] => none
  | up, dir :: dirs =>
    match below? dir path with
    | some rest => some ((List.replicate up ['.', '.', '/']).flatten ++ rest)
    | none => wayFrom? path (up + 1) dirs

/-- How to reach a path from a root. A path that shares no directory with the root stays as
it is. -/
def relativeChars (root path : List Char) : List Char :=
  (wayFrom? path 0 (ancestors root)).getD path

/-! ## Names as strings -/

/-- Whether a name starts at a root. -/
def isAbsolute (s : String) : Bool :=
  isAbsoluteChars s.toList

/-- A name with its dots resolved. -/
def normalize (s : String) : String :=
  String.ofList (normalizeChars s.toList)

/-- A name resolved against a root. -/
def join (root path : String) : String :=
  String.ofList (joinChars root.toList path.toList)

/-- A name as seen from a root. -/
def relative (root path : String) : String :=
  String.ofList (relativeChars root.toList path.toList)

end SourceMap.Path
