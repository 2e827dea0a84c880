/-!
The files the command works with. The command reads its module from a path and may write a
module to another; `Files` is what it needs of a file system to do so, so that the same command
runs on real files and on a directory held in memory.

`Directory` is a single directory of plain files held in memory, with no subdirectories. A path
is read from it component by component, as an operating system reads one: `.` and empty
components stay in the directory, a name picks the file of that name, and nothing can be looked
up inside a file. Reading or writing fails with the operating system's reasons: a path through a
missing directory or to a missing file does not exist, a path through a file is not a directory,
and a directory cannot be read or written as a file. A path of 4096 bytes or more, or a name of
more than 255 bytes that has to be looked up, is too long. `..` and `/` lead to directories
outside this one, which are there but whose files are not known: a file named in one cannot be
read, and writing it succeeds without changing this directory. `/dev/null` reads as empty and
takes any write.
-/

namespace WasmImage.Command

/-- What the command does to files in some monad `m`: read the bytes at a path, and write bytes
to a path; each either succeeds or gives the reason it failed. -/
structure Files (m : Type → Type) where
  read : String → m (Except String ByteArray)
  write : String → ByteArray → m (Except String Unit)

/-- A directory of plain files, by name. -/
structure Directory where
  files : List (String × ByteArray) := []

/-- Where a path leads in a directory. -/
inductive Place where
  /-- The directory itself. -/
  | here
  /-- A directory outside this one, whose files are not known. -/
  | outside
  /-- A file named in a directory outside this one. -/
  | outsideFile (name : String)
  /-- The device that reads as empty and takes any write. -/
  | nullDevice
  /-- The file of this name. -/
  | file (name : String)
  /-- No file of this name, which a write would create. -/
  | absent (name : String)
  /-- No file of this name, followed by a slash. -/
  | absentDir (name : String)
  /-- A path through a directory that is not there. -/
  | missing
  /-- A path through a file. -/
  | throughFile
  /-- A path, or a name in it, longer than names and paths may be. -/
  | tooLong
  deriving DecidableEq, Repr

namespace Directory

/-- The file named `name`. -/
def get? (d : Directory) (name : String) : Option ByteArray :=
  (d.files.find? (·.1 == name)).map (·.2)

/-- The directory with file `name` holding `data`, replacing any file of that name. -/
def insert (d : Directory) (name : String) (data : ByteArray) : Directory :=
  ⟨(name, data) :: d.files.filter (·.1 != name)⟩

/-- The files, sorted by name. -/
def listing (d : Directory) : List (String × ByteArray) :=
  d.files.mergeSort fun a b => decide (a.1 ≤ b.1)

/-- Whether a name is longer than a directory entry's name may be. -/
def nameTooLong (c : String) : Bool :=
  c.utf8ByteSize > 255

/-- Follows the components of a path from `place`. -/
def follow (d : Directory) : Place → List String → Place
  | place, [] => place
  | .here, c :: rest =>
    if c == "" || c == "." then follow d .here rest
    else if c == ".." then follow d .outside rest
    else if nameTooLong c then .tooLong
    else if (d.get? c).isSome then follow d (.file c) rest
    else follow d (.absent c) rest
  | .outside, c :: rest =>
    if c == "" || c == "." || c == ".." then follow d .outside rest
    else if nameTooLong c then .tooLong
    else if rest.isEmpty then .outsideFile c
    else if rest.all (· == "") then .absentDir c
    else .missing
  | .file _, _ :: _ => .throughFile
  | .absent c, rest => if rest.all (· == "") then .absentDir c else .missing
  | place, _ :: _ => place

/-- Where `path` leads. An absolute path starts outside the directory. -/
def locate (d : Directory) (path : String) : Place :=
  if path.isEmpty then .missing
  else if path.utf8ByteSize ≥ 4096 then .tooLong
  else if path == "/dev/null" then .nullDevice
  else
    match path.splitOn "/" with
    | "" :: rest => d.follow .outside rest
    | parts => d.follow .here parts

/-- Reads the file at `path`. -/
def read (d : Directory) (path : String) : Except String ByteArray :=
  match d.locate path with
  | .file name => .ok ((d.get? name).getD ByteArray.empty)
  | .nullDevice => .ok ByteArray.empty
  | .here | .outside => .error ("read " ++ path ++ ": is a directory")
  | .throughFile => .error ("open " ++ path ++ ": not a directory")
  | .tooLong => .error ("open " ++ path ++ ": file name too long")
  | _ => .error ("open " ++ path ++ ": no such file or directory")

/-- Writes `data` to the file at `path`, creating it if it is not there. -/
def write (d : Directory) (path : String) (data : ByteArray) : Except String Directory :=
  match d.locate path with
  | .file name | .absent name => .ok (d.insert name data)
  | .outsideFile _ | .nullDevice => .ok d
  | .here | .outside | .absentDir _ => .error ("open " ++ path ++ ": is a directory")
  | .throughFile => .error ("open " ++ path ++ ": not a directory")
  | .tooLong => .error ("open " ++ path ++ ": file name too long")
  | _ => .error ("open " ++ path ++ ": no such file or directory")

/-- The directory as files the command can use, with the directory as state. -/
def access : Files (StateM Directory) where
  read path := do return (← get).read path
  write path data := do
    match (← get).write path data with
    | .ok d => set d; return .ok ()
    | .error e => return .error e

end Directory

end WasmImage.Command
