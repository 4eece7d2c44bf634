import SaleRules.Bytes

/-!
# A working directory

A directory that holds files and no further directories, under its files' names. A path names a
file by its name behind any number of `.` components. A path may also leave the directory, by `..`
or from the root: of what lies outside only the directories on the way up are known, where the root
is its own parent, and every name counts as missing there. A path that treats a file as a directory,
or a directory as a file, has the fault that the system reports for it.
-/
namespace SaleRules

/-- Why a file cannot be read or written. -/
inductive Fault where
  | notFound
  | notADirectory
  | isADirectory
  | nameTooLong
  | other (reason : String)
  deriving DecidableEq, Repr

def Fault.reason : Fault → String
  | .notFound => "No such file or directory (os error 2)"
  | .notADirectory => "Not a directory (os error 20)"
  | .isADirectory => "Is a directory (os error 21)"
  | .nameTooLong => "File name too long (os error 36)"
  | .other reason => reason

structure Directory where
  files : List (String × Bytes)
  deriving DecidableEq, Repr

namespace Directory

def find? (d : Directory) (name : String) : Option Bytes := d.files.lookup name

/-- Replaces the file of a name, or adds it behind the others. -/
def put (d : Directory) (name : String) (bytes : Bytes) : Directory :=
  if (d.find? name).isSome then
    ⟨d.files.map fun file => if file.1 = name then (name, bytes) else file⟩
  else ⟨d.files ++ [(name, bytes)]⟩

/-! ## Paths -/

/-- The components of a path, between its slashes. -/
def components : List Char → List (List Char)
  | [] => [[]]
  | c :: cs =>
    if c = '/' then [] :: components cs
    else
      match components cs with
      | [] => [[c]]
      | part :: parts => (c :: part) :: parts

/-- A component that stays in the directory it stands in. -/
def stays (part : List Char) : Bool := part == [] || part == ['.']

/-- A component that leads to the parent of the directory it stands in. -/
def ascends (part : List Char) : Bool := part == ['.', '.']

/-- The bytes that a name may have. -/
def nameLimit : Nat := 255

/-- The bytes that a path may have. -/
def pathLimit : Nat := 4095

/-- The fault of a name under which nothing stands. -/
def absence (name : String) : Fault :=
  if nameLimit < name.utf8ByteSize then .nameTooLong else .notFound

/-- What a path names, seen from the directory. -/
inductive Target where
  /-- A directory, this one or one further up. -/
  | directory
  /-- An entry of this directory, present or not; a slash behind its name asks for a directory. -/
  | entry (name : String) (slashed : Bool)
  /-- An entry of a directory further up. -/
  | outside (name : String) (slashed : Bool)
  deriving DecidableEq, Repr

/-- What the components of a path name that starts further up. No component leads back down. -/
def locateAbove : List (List Char) → Except Fault Target
  | [] => .ok .directory
  | part :: parts =>
    let name := String.ofList part
    if stays part || ascends part then locateAbove parts
    else if parts.all (· == []) then .ok (.outside name !parts.isEmpty)
    else .error (absence name)

/-- What the components of a path name that starts in the directory. -/
def locate (d : Directory) : List (List Char) → Except Fault Target
  | [] => .ok .directory
  | part :: parts =>
    let name := String.ofList part
    if stays part then locate d parts
    else if ascends part then locateAbove parts
    else if parts.all (· == []) then .ok (.entry name !parts.isEmpty)
    else if (d.find? name).isSome then .error .notADirectory
    else .error (absence name)

/-- What a path names. A slash in front starts at the root; the length is looked at before that. -/
def resolve (d : Directory) (path : String) : Except Fault Target :=
  if pathLimit < path.utf8ByteSize then .error .nameTooLong
  else
    match path.toList with
    | [] => .error .notFound
    | '/' :: rest => locateAbove (components rest)
    | cs => d.locate (components cs)

def read (d : Directory) (path : String) : Except Fault Bytes :=
  match d.resolve path with
  | .error fault => .error fault
  | .ok .directory => .error .isADirectory
  | .ok (.outside name _) => .error (absence name)
  | .ok (.entry name slashed) =>
    match d.find? name with
    | none => .error (absence name)
    | some bytes => if slashed then .error .notADirectory else .ok bytes

/--
The directory after the bytes have been written to a file, new or not. Nothing is written outside;
a name that a slash asks to be a directory is refused before it is looked up.
-/
def write (d : Directory) (path : String) (bytes : Bytes) : Except Fault Directory :=
  match d.resolve path with
  | .error fault => .error fault
  | .ok .directory => .error .isADirectory
  | .ok (.entry _ true) | .ok (.outside _ true) => .error .isADirectory
  | .ok (.outside name false) => .error (absence name)
  | .ok (.entry name false) =>
    if nameLimit < name.utf8ByteSize then .error .nameTooLong else .ok (d.put name bytes)

end Directory

end SaleRules
