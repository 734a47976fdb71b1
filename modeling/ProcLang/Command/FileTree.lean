import ProcLang.Command.Path
import ProcLang.Command.Run

/-! A tree of files below one working directory, and what reading and writing at a path does to it.
A path is walked segment by segment, and each step needs a directory to stand in. Above the working
directory nothing is known but that there are directories. -/

namespace ProcLang

inductive FileError where
  | notFound
  | notDirectory
  | isDirectory
  | nameTooLong
  | nulByte
  deriving DecidableEq, Repr

def FileError.message : FileError → String
  | .notFound => "No such file or directory (os error 2)"
  | .notDirectory => "Not a directory (os error 20)"
  | .isDirectory => "Is a directory (os error 21)"
  | .nameTooLong => "File name too long (os error 36)"
  | .nulByte => "file name contained an unexpected NUL byte"

inductive FileNode where
  | file (content : Bytes)
  | directory
  deriving DecidableEq, Repr

/-- The nodes below the working directory, each under the names that lead to it. -/
structure FileTree where
  nodes : Table (List String) FileNode

/-- Where a walk stands: under the working directory or above it. -/
inductive Spot where
  | inside (names : List String)
  | outside
  deriving DecidableEq, Repr

def Spot.parent : Spot → Spot
  | .inside [] => .outside
  | .inside names => .inside names.dropLast
  | .outside => .outside

namespace FileTree

def empty : FileTree := ⟨.empty⟩

/-- The greatest number of bytes in a name. -/
def maxName : Nat := 255

def maxPath : Nat := 4095

/-- What the names lead to; no names lead to the working directory itself. -/
def node? (tree : FileTree) (names : List String) : Option FileNode :=
  if names = [] then some .directory else tree.nodes.get? names

def put (tree : FileTree) (names : List String) (node : FileNode) : FileTree :=
  ⟨tree.nodes.insert names node⟩

/-- The names that lead to the directories above, the working directory left out. -/
def parents (names : List String) : List (List String) :=
  (List.range names.length).tail.map names.take

def addDirectory (tree : FileTree) (path : String) : FileTree :=
  let names := Path.segments path
  (parents names ++ [names]).foldl (fun t names => t.put names .directory) tree

def addFile (tree : FileTree) (path : String) (content : Bytes) : FileTree :=
  let names := Path.segments path
  ((parents names).foldl (fun t names => t.put names .directory) tree).put names (.file content)

def at? (tree : FileTree) : Spot → Option FileNode
  | .inside names => tree.node? names
  | .outside => some .directory

def enter (tree : FileTree) (spot : Spot) (name : String) : Except FileError Spot :=
  match tree.at? spot with
  | none => .error .notFound
  | some (.file _) => .error .notDirectory
  | some .directory =>
    if name = "." then .ok spot
    else if name = ".." then .ok spot.parent
    else if maxName < name.utf8ByteSize then .error .nameTooLong
    else match spot with
      | .outside => .error .notFound
      | .inside names =>
        if (tree.node? (names ++ [name])).isSome then .ok (.inside (names ++ [name]))
        else .error .notFound

/-- Where walks along a path begin, unless no file can have that path. -/
def start (path : String) : Except FileError Spot :=
  if path.toList.contains '\x00' then .error .nulByte
  else if path = "" then .error .notFound
  else if maxPath < path.utf8ByteSize then .error .nameTooLong
  else if Path.isAbsolute path then .ok .outside
  else .ok (.inside [])

def read (tree : FileTree) (path : String) : Except FileError Bytes := do
  let spot ← (Path.segments path).foldlM tree.enter (← start path)
  match tree.at? spot with
  | none => .error .notFound
  | some .directory => .error .isDirectory
  | some (.file content) =>
    if Path.endsInSlash path then .error .notDirectory else .ok content

/-- Give a file new content or make a new file in a directory that exists. -/
def write (tree : FileTree) (path : String) (content : Bytes) : Except FileError FileTree := do
  let spot ← (Path.segments path).dropLast.foldlM tree.enter (← start path)
  match tree.at? spot, (Path.segments path).getLast? with
  | none, _ => .error .notFound
  | some (.file _), _ => .error .notDirectory
  | some .directory, none => .error .isDirectory
  | some .directory, some name =>
    if name = "." ∨ name = ".." ∨ Path.endsInSlash path then .error .isDirectory
    else if maxName < name.utf8ByteSize then .error .nameTooLong
    else match spot with
      | .outside => .error .notFound
      | .inside names =>
        if tree.node? (names ++ [name]) = some .directory then .error .isDirectory
        else .ok (tree.put (names ++ [name]) (.file content))

/-- The files that are new or have another content than before, each under its path. -/
def changes (before after : FileTree) : List (String × Bytes) :=
  after.nodes.entries.filterMap fun (names, node) =>
    match node with
    | .directory => none
    | .file content =>
      if before.node? names = some (.file content) then none
      else some ("/".intercalate names, content)

def files : Files (StateM FileTree) String where
  display := id
  read path := do return ((← get).read path).mapError FileError.message
  write path content := do
    match (← get).write path content with
    | .ok tree => set tree; return .ok ()
    | .error e => return .error e.message

end FileTree

end ProcLang
