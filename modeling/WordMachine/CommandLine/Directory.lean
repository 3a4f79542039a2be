import WordMachine.CommandLine.Arguments

/-! A small system in memory, for the program to run on without an operating system: a working
directory with what lies below it, and what is written around it. Time stands still, and every file
may be read and written. Nothing that is proved of the program is proved for this system alone. -/
namespace WordMachine.CommandLine

/-- A directory: the one behind some names from the working directory on or from the root on, or one
so many levels above the working directory. -/
inductive Place
  | below (names : List String)
  | above (levels : Nat)
  | root (names : List String)
  deriving DecidableEq

structure File where
  name : String
  content : List UInt8
  deriving DecidableEq

/-- The files below the working directory, those in other places, what has been printed and the
complaints, the last one first. A directory exists for as long as a file lies below it. -/
structure Directory where
  files : List File := []
  others : List (Place × File) := []
  printed : String := ""
  complaints : List String := []
  deriving DecidableEq

namespace Place

def parent : Place → Place
  | below [] => above 1
  | below names => below names.dropLast
  | above levels => above (levels + 1)
  | root names => root names.dropLast

def enter (place : Place) (name : String) : Place :=
  match place with
  | below names => below (names ++ [name])
  | above levels => above levels
  | root names => root (names ++ [name])

end Place

namespace Directory

inductive PathError
  | notFound | notDirectory | isDirectory | nameTooLong | noSpace
  deriving DecidableEq

def PathError.message : PathError → String
  | notFound => "No such file or directory (os error 2)"
  | notDirectory => "Not a directory (os error 20)"
  | isDirectory => "Is a directory (os error 21)"
  | noSpace => "No space left on device (os error 28)"
  | nameTooLong => "File name too long (os error 36)"

def maxName : Nat := 255

def maxPath : Nat := 4095

/-- The device that takes all bytes, and the one that takes none. Both read as empty. -/
inductive Device
  | null | full
  deriving DecidableEq

inductive Node
  | file (file : File)
  | device (device : Device)
  | directory (place : Place)
  deriving DecidableEq

def rootNames : List String :=
  ["bin", "boot", "dev", "etc", "home", "lib", "media", "mnt", "opt", "proc", "root", "run", "sbin",
   "srv", "sys", "tmp", "usr", "var"]

/-- The name at the end of a path, where to look for it, and whether a slash follows it. -/
structure Target where
  place : Place
  name : String
  slashed : Bool
  deriving DecidableEq

def fullName (names : List String) (name : String) : String :=
  "/".intercalate (names ++ [name])

def find? (directory : Directory) (place : Place) (name : String) : Option File :=
  match place with
  | .below names => directory.files.find? fun file => file.name == fullName names name
  | place =>
    (directory.others.find? fun other => other.1 == place && other.2.name == name).map (·.2)

def isDirectory (directory : Directory) (place : Place) (name : String) : Bool :=
  match place with
  | .below names =>
    directory.files.any fun file => file.name.startsWith (fullName names name ++ "/")
  | .root [] => rootNames.contains name
  | _ => false

def look (directory : Directory) (place : Place) (name : String) :
    Except PathError (Option Node) :=
  if maxName < name.utf8ByteSize then .error .nameTooLong
  else if directory.isDirectory place name then .ok (some (.directory (place.enter name)))
  else
    .ok <| match place, name with
    | .root ["dev"], "null" => some (.device .null)
    | .root ["dev"], "full" => some (.device .full)
    | _, _ => (directory.find? place name).map .file

def walk (directory : Directory) (place : Place) : List String → Except PathError Place
  | [] => .ok place
  | "" :: parts | "." :: parts => walk directory place parts
  | ".." :: parts => walk directory place.parent parts
  | name :: parts => do
    match ← directory.look place name with
    | some (.directory place) => walk directory place parts
    | some _ => throw .notDirectory
    | none => throw .notFound

/-- Where a path leads. Its last part that is not empty has to be a name. -/
def locate (directory : Directory) (path : String) : Except PathError Target := do
  if path.isEmpty then
    throw .notFound
  if maxPath < path.utf8ByteSize then
    throw .nameTooLong
  let parts := (path.toList.splitOn '/').map String.ofList
  let start : Place := if parts.head? = some "" then .root [] else .below []
  match parts.reverse.dropWhile (·.isEmpty) with
  | [] => throw .isDirectory
  | name :: leading =>
    let place ← directory.walk start leading.reverse
    if name = "." || name = ".." then throw .isDirectory
    else return ⟨place, name, parts.getLast? = some ""⟩

def read (path : String) (directory : Directory) : Except PathError (List UInt8) := do
  let target ← directory.locate path
  match ← directory.look target.place target.name with
  | none => throw .notFound
  | some (.directory _) => throw .isDirectory
  | some (.device _) => if target.slashed then throw .notDirectory else return []
  | some (.file file) => if target.slashed then throw .notDirectory else return file.content

def put (files : List File) (file : File) : List File :=
  if files.any (·.name == file.name) then
    files.map fun other => if other.name == file.name then file else other
  else
    files ++ [file]

def write (path : String) (content : List UInt8) (directory : Directory) :
    Except PathError Directory := do
  let target ← directory.locate path
  if target.slashed then
    throw .isDirectory
  match ← directory.look target.place target.name with
  | some (.directory _) => throw .isDirectory
  | some (.device .full) => if content.isEmpty then return directory else throw .noSpace
  | some (.device .null) => return directory
  | some (.file _) | none =>
    match target.place with
    | .below names =>
      return { directory with
        files := put directory.files ⟨fullName names target.name, content⟩ }
    | place =>
      return { directory with others := (place, ⟨target.name, content⟩) :: directory.others }

instance : Host (StateM Directory) where
  readFile path := do
    return ((← get).read path).mapError PathError.message
  writeFile path content := do
    match (← get).write path content with
    | .ok directory => set directory; return .ok ()
    | .error error => return .error error.message
  print text := modify fun directory => { directory with printed := directory.printed ++ text }
  complain text :=
    modify fun directory => { directory with complaints := text :: directory.complaints }
  now := return 0
  wait _ := return ()

end Directory

end WordMachine.CommandLine
