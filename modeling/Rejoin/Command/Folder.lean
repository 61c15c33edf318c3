import Rejoin.Command.Run

/-!
# Running the command in a folder

A folder of files stands for the place where the command is run, so that a run is a function from
folders to folders.
-/

namespace Rejoin.Command

/-- A folder: the names of its files and their contents. -/
structure Folder where
  /-- The files. -/
  files : List (String × ByteArray) := []
deriving Inhabited

/-- Where a path leads. -/
inductive Place where
  /-- A folder: this one, or one above it. -/
  | folder
  /-- A file of the folder, which need not exist. -/
  | file (name : String)
  /-- The null device, which is empty and swallows what is written to it. -/
  | nowhere
deriving DecidableEq, Repr, Inhabited

/-- The greatest number of bytes in the name of a file. -/
def maxNameLength : Nat := 255

/-- The greatest number of bytes in a path. -/
def maxPathLength : Nat := 4095

/-- What a finished run leaves behind. -/
structure Execution where
  /-- The exit code. -/
  code : Nat
  /-- What was printed on standard output. -/
  stdout : String
  /-- What was printed on standard error, unless it was a drawn diagnostic. -/
  stderr : Option String
deriving DecidableEq, Repr, Inhabited

namespace Folder

/-- Follow the steps of a path, starting in the folder or, if not `inside`, in one above it. Empty
steps and single dots stay where they are. Nothing is known of the folders above but that they
exist. -/
def follow (folder : Folder) (inside : Bool) : List String → Except OpenError Place
  | [] => .ok .folder
  | step :: rest =>
    if step = "" || step = "." then folder.follow inside rest
    else if step = ".." then folder.follow false rest
    else if maxNameLength < step.utf8ByteSize then .error .nameTooLong
    else if !inside then .error .notFound
    else if rest.isEmpty then .ok (.file step)
    else if (folder.files.lookup step).isSome then .error .notDirectory
    else .error .notFound

/-- The place that a path names. -/
def place (folder : Folder) (path : String) : Except OpenError Place :=
  if path.isEmpty then .error .notFound
  else if maxPathLength < path.utf8ByteSize then .error .nameTooLong
  else if path = "/dev/null" then .ok .nowhere
  else folder.follow (path.toList.head? != some '/') (path.splitOn "/")

/-- What is found at a path. -/
def look (folder : Folder) (path : String) : Except OpenError ByteArray := do
  match ← folder.place path with
  | .folder => .error .isDirectory
  | .nowhere => .ok ByteArray.empty
  | .file name =>
    match folder.files.lookup name with
    | some content => .ok content
    | none => .error .notFound

/-- Write a text to a file, which is created if it does not exist. Fails for a path that cannot be
a file of the folder. -/
def write? (folder : Folder) (output : Output) : Option Folder :=
  match folder.place output.path with
  | .error _ | .ok .folder => none
  | .ok .nowhere => some folder
  | .ok (.file name) =>
    let before :=
      if output.append then (folder.files.lookup name).getD ByteArray.empty else ByteArray.empty
    let others := folder.files.filter fun file => file.1 != name
    some { files := (name, before ++ output.text.toUTF8) :: others }

/-- Run the command in a folder. -/
def execute (folder : Folder) (stdin : ByteArray) (args : List String) : Execution × Folder :=
  match run { stdin, look := folder.look } args with
  | .refused .help => (⟨0, helpText, some ""⟩, folder)
  | .refused refusal => (⟨1, "", some refusal.text⟩, folder)
  | .failed _ => (⟨1, "", none⟩, folder)
  | .aborted => (⟨101, "", none⟩, folder)
  | .finished output account failures =>
    let code := if failures = 0 then 0 else 1
    let stderr := if failures = 0 then some account else none
    if output.path = "-" then (⟨code, output.text, stderr⟩, folder)
    else match folder.write? output with
      | some folder => (⟨code, "", stderr⟩, folder)
      | none => (⟨1, "", none⟩, folder)

end Folder

end Rejoin.Command
