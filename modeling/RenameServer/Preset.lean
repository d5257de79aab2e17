import RenameServer.FileTree
import RenameServer.Rename.Reference
import RenameServer.Rename.Variable

/-!
Presets: named lists of renamers. A name is looked up in the user's directories
and then among the presets that come with the program; a name with a slash is
the path of a file. Only files with the right extension can hold a preset. What
a file of the user defines is given from outside: it may be any renamers.
-/
namespace RenameServer.Preset

/-- Files by path. A file may define renamers or fail to do so. -/
abbrev Catalogue := String → FileTree.Entry (Option (List Renamer))

/-- Where to look: the user's home, a directory for configuration if one is
set, and the directory of the presets that come with the program. -/
structure Places where
  home : String
  config : Option String
  bundle : String
  deriving Repr, DecidableEq

def extension : String := ".py"

/-- The home directory without slashes at its end. -/
def homeDirectory (home : String) : String :=
  match (home.toList.reverse.dropWhile (· = '/')).reverse with
  | [] => "/"
  | chars => String.ofList chars

/-- The user's directories, in the order in which they are searched. A home that
starts with a tilde is none. -/
def userDirectories (places : Places) : Except Fault (List String) :=
  let home := homeDirectory places.home
  let config := match places.config with
    | some dir => if dir.isEmpty then [] else [Path.join dir "lsprename"]
    | none => []
  if home.toList.head? = some '~' then .error .noHome
  else .ok (config ++ [Path.join home ".config/lsprename", Path.join home ".lsprename"])

/-- The presets that come with the program. -/
def bundled (name : String) : FileTree.Entry (Option (List Renamer)) :=
  if name = "default" then .file (some [Variable.renamer, Reference.renamer])
  else if name = "variables" then .file (some [Variable.renamer])
  else if name = "__init__" then .file none
  else .absent

/-- The renamers that a file defines, if it is one that can be loaded. -/
def loadFile (path : String) (entry : FileTree.Entry (Option (List Renamer))) :
    Except Fault (Option (List Renamer)) :=
  match entry with
  | .file renamers =>
    if path.endsWith extension then .ok renamers else .error (.presetNotFound path)
  | .absent | .directory | .nameTooLong => .error (.presetNotFound path)

/-- The paths in the user's directories at which a preset may be. -/
def userPaths (places : Places) (name : String) : Except Fault (List String) :=
  (userDirectories places).map fun dirs =>
    dirs.map fun dir => Path.join dir (name ++ extension)

/-- Is a preset given by the path of its file? -/
def isPath (name : String) : Bool := name.toList.contains '/'

/-- All paths that decide what a name stands for. -/
def searched (places : Places) (name : String) : List String :=
  let paths := if isPath name then [name] else ((userPaths places name).toOption).getD []
  paths ++ paths.map Path.collapsed

/-- The first of some paths that leads anywhere. -/
def search (catalogue : Catalogue) : List String → Except Fault (Option String)
  | [] => .ok none
  | path :: rest =>
    match catalogue path with
    | .absent => search catalogue rest
    | .nameTooLong => .error (.nameTooLong path)
    | .directory | .file _ => .ok (some path)

/-- Find a preset and load it. A path is searched for as it stands, but the file
is loaded from where it leads once two dots have taken back the name before. -/
def find (places : Places) (catalogue : Catalogue) (name : String) :
    Except Fault (Option (List Renamer)) := do
  if isPath name then loadFile name (catalogue (Path.collapsed name))
  else
    match ← search catalogue (← userPaths places name) with
    | some path => loadFile path (catalogue (Path.collapsed path))
    | none => loadFile (places.bundle ++ "/" ++ name ++ extension) (bundled name)

/-- The renamers of a preset, in order of priority. -/
def load (places : Places) (catalogue : Catalogue) (name : String) :
    Except Fault (List Renamer) := do
  match ← find places catalogue name with
  | some renamers => return renamers
  | none => throw (.presetUndefined name)

def names (renamers : List Renamer) : String := ", ".intercalate (renamers.map Renamer.name)

/-- What the log says about a loaded preset. -/
def announce (name : String) (renamers : List Renamer) : Event :=
  .debug s!"Preset {name}: {names renamers}"

end RenameServer.Preset
