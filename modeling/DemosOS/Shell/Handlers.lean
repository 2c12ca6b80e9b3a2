import DemosOS.Shell.CommandLine
import DemosOS.Shell.Paths

/-!
# The path handlers of the shell

The handlers of `shell.c` that build a path from the working directory and a command line, in
arrays of `MAX_COMMAND_DIMENSION` characters.

A handler that accesses one of its arrays outside has no result.  What it prints is left out,
but for the fact that it reports an error, and so is what happens after the path has been
built and used.  The kernel is seen through what its calls return.
-/

namespace DemosOS.Shell

open Lib Buffer

/-! ## Calls of the kernel -/

/-- What `call_syscall_get_next_entry` returns and leaves in a `FatEntryInfo`. -/
structure Entry where
  failed : Bool
  name : List UInt8
  isDir : Bool

/-- The kernel returns `-1` if the library reports an error and `0` otherwise. -/
def Entry.result (info : Entry) : Int := if info.failed then -1 else 0

/-- What the kernel answers.  An entry comes with its number in the listing. -/
structure Calls where
  openDir : List UInt8 → Int
  createDir : List UInt8 → Int
  openFile : List UInt8 → Int
  nextEntry : Int → Nat → Entry

/-- The path that the kernel reads from an array: everything up to the `NUL`. -/
def readString (b : List UInt8) : Option (List UInt8) := do
  let length ← strlen b
  some (b.take length)

/-- How a handler ends. -/
inductive Outcome
  | /-- It reports an error. -/
    error
  | /-- It has built a path. -/
    built (path : List UInt8)
deriving DecidableEq, Repr

/-! ## The handlers -/

/-- An array of zeros. -/
def cleared : List UInt8 := filled MAX_COMMAND_DIMENSION []

/-- An element at an `int` index. -/
def loadAt (b : List UInt8) (i : Int) : Option UInt8 := if 0 ≤ i then b[i.toNat]? else none

/-- The path of `handle_mkdir`: the working directory, a slash unless the name has one, and
the name. -/
def mkdirPath (workingDirectory dirName : List UInt8) : Option (List UInt8) := do
  let temp ← strcat cleared workingDirectory
  if (← dirName[0]?) ≠ SLASH then
    let temp ← strcat temp [SLASH, 0]
    strcat temp dirName
  else strcat temp dirName

def handleMkdir (calls : Calls) (buffer workingDirectory : List UInt8) : Option Outcome := do
  let (_, dirName) ← strsplit buffer SPACE cleared cleared
  if (← dirName[0]?) = 0 then
    some .error
  else if (← strlen workingDirectory) < MAX_COMMAND_DIMENSION then
    let temp ← mkdirPath workingDirectory dirName
    let path ← readString temp
    some (if calls.createDir path = -1 then .error else .built path)
  else some .error

/-- What `handle_cd` and `handle_show` do to a relative path: a slash goes behind the working
directory if that is longer than `/a` and does not end in one. -/
def addSlash (temp : List UInt8) : Option (List UInt8) := do
  let len ← strlen temp
  if 2 < len then
    if (← loadAt temp (len - 1)) ≠ SLASH then
      let temp ← store temp len SLASH
      store temp (len + 1) 0
    else some temp
  else some temp

/-- The path of `handle_cd` and `handle_show`: an absolute one is taken as it is, a relative
one goes behind the working directory. -/
def joinDestination (workingDirectory destination : List UInt8) : Option (List UInt8) := do
  if (← destination[0]?) = SLASH then
    memcpy cleared destination MAX_COMMAND_DIMENSION
  else
    let temp ← memcpy cleared workingDirectory MAX_COMMAND_DIMENSION
    let temp ← addSlash temp
    strcat temp destination

/-- `handle_cd` first makes its destination end in a slash. -/
def closeDestination (destination : List UInt8) : Option (List UInt8) := do
  let destinationLen ← strlen destination
  if (← loadAt destination (destinationLen - 1)) ≠ SLASH then strcat destination [SLASH, 0, 0]
  else some destination

/-- `handle_cd`, with the working directory afterwards. -/
def handleCd (calls : Calls) (buffer workingDirectory : List UInt8) :
    Option (Outcome × List UInt8) := do
  let (_, destination) ← strsplit buffer SPACE cleared cleared
  let destination ← closeDestination destination
  let temp ← joinDestination workingDirectory destination
  let temp ← normalizePath temp
  let path ← readString temp
  if calls.openDir path = -1 then
    some (.error, workingDirectory)
  else
    let workingDirectory ← memcpy workingDirectory temp MAX_COMMAND_DIMENSION
    some (.built path, workingDirectory)

def handleShow (calls : Calls) (buffer workingDirectory : List UInt8) : Option Outcome := do
  let (_, destination) ← strsplit buffer SPACE cleared cleared
  let temp ← joinDestination workingDirectory destination
  let temp ← normalizePath temp
  let path ← readString temp
  some (if calls.openFile path = -1 then .error else .built path)

/-- The path of a directory's entry in `print_tree`. -/
def childPath (path name : List UInt8) : Option (List UInt8) := do
  let childPath ← strcpy cleared path
  let len ← strlen childPath
  if (← loadAt childPath (len - 1)) ≠ SLASH then
    let childPath ← strcat childPath [SLASH, 0]
    let childPath ← strcat childPath name
    normalizePath childPath
  else
    let childPath ← strcat childPath name
    normalizePath childPath

mutual

/-- `print_tree`, with a bound on the calls and rounds of the loop. -/
def printTree (calls : Calls) : Nat → List UInt8 → Option Unit
  | 0, _ => none
  | fuel + 1, path => do
      let directory ← readString path
      let fd := calls.openDir directory
      if fd = -1 then some () else printEntries calls fd 0 fuel path

/-- The loop of `print_tree`, at the given entry. -/
def printEntries (calls : Calls) (fd : Int) (n : Nat) : Nat → List UInt8 → Option Unit
  | 0, _ => none
  | fuel + 1, path => do
      let info := calls.nextEntry fd n
      if info.result ≠ 1 then
        some ()
      else
        let name ← readString info.name
        if name ≠ [DOT] ∧ name ≠ [DOT, DOT] ∧ info.isDir then
          let child ← childPath path info.name
          printTree calls fuel child
        printEntries calls fd (n + 1) fuel path

end

/-- What `handle_tree` does to a relative path: a slash goes behind the working directory if
that is longer than one character and does not end in one. -/
def addTreeSlash (fullpath : List UInt8) : Option (List UInt8) := do
  let len ← strlen fullpath
  if 1 < len then
    if (← loadAt fullpath (len - 1)) ≠ SLASH then strcat fullpath [SLASH, 0] else some fullpath
  else some fullpath

/-- The path of `handle_tree`. -/
def treePath (workingDirectory target : List UInt8) : Option (List UInt8) := do
  if (← target[0]?) = 0 then
    memcpy cleared workingDirectory MAX_COMMAND_DIMENSION
  else if (← target[0]?) = SLASH then
    memcpy cleared target MAX_COMMAND_DIMENSION
  else
    let fullpath ← memcpy cleared workingDirectory MAX_COMMAND_DIMENSION
    let fullpath ← addTreeSlash fullpath
    strcat fullpath target

def handleTree (calls : Calls) (fuel : Nat) (buffer workingDirectory : List UInt8) :
    Option Outcome := do
  let (_, target) ← strsplit buffer SPACE cleared cleared
  let fullpath ← treePath workingDirectory target
  let fullpath ← normalizePath fullpath
  let path ← readString fullpath
  if calls.openDir path = -1 then
    some .error
  else
    printTree calls fuel fullpath
    some (.built path)

/-- A character at which a word of `handle_write` ends. -/
def EndsWord (c : UInt8) : Prop := c = 0 ∨ c = SPACE

instance : DecidablePred EndsWord := fun c ↦ inferInstanceAs (Decidable (c = 0 ∨ c = SPACE))

/-- The loops of `handle_write`: the pointer moves to the first character of the given kind.
The characters before it are written to an array. -/
def copyUntil (stops : UInt8 → Prop) [DecidablePred stops] (dest : List UInt8) (i : Nat) :
    List UInt8 → Option (List UInt8 × Nat × List UInt8)
  | [] => none
  | c :: p =>
      if ¬ stops c then do
        let dest ← store dest i c
        copyUntil stops dest (i + 1) p
      else some (dest, i, c :: p)

/-- The first loop of `handle_write` writes nothing. -/
def skipUntil (stops : UInt8 → Prop) [DecidablePred stops] : List UInt8 → Option (List UInt8)
  | [] => none
  | c :: p => if ¬ stops c then skipUntil stops p else some (c :: p)

def MAX_FILE_DIMENSION : Nat := 256

/-- What the kernel reads of an array that it is given with a length. -/
def readBytes (b : List UInt8) (length : Nat) : Option (List UInt8) :=
  if length ≤ b.length then some (b.take length) else none

/-- The path of `handle_write`, if it is not too big. -/
def writePath (workingDirectory fileName : List UInt8) : Option (List UInt8) := do
  let filePath ← strcat cleared workingDirectory
  strcat filePath fileName

/-- What follows once `handle_write` has built a path, or has reported that it is too big and
goes on with an empty one: the kernel reads `MAX_FILE_DIMENSION` bytes of the content. -/
def writeFile (calls : Calls) (tooBig : Bool) (filePath fileContent : List UInt8) (i : Nat) :
    Option Outcome := do
  let path ← readString filePath
  let fd := calls.openFile path
  if fd ≠ -1 ∧ 0 < i then
    let _ ← readBytes fileContent MAX_FILE_DIMENSION
    some (if tooBig then .error else .built path)
  else some (if tooBig ∨ fd = -1 then .error else .built path)

def handleWrite (calls : Calls) (buffer workingDirectory : List UInt8) : Option Outcome := do
  let p ← skipUntil EndsWord buffer
  let (fileName, i, p) ← copyUntil EndsWord cleared 0 p.tail
  let fileName ← store fileName i 0
  let (fileContent, i, _) ← copyUntil (· = 0) cleared 0 p.tail
  let fileContent ← store fileContent i 0
  if (← strlen workingDirectory) + (← strlen fileName) < MAX_COMMAND_DIMENSION then
    let filePath ← writePath workingDirectory fileName
    writeFile calls false filePath fileContent i
  else writeFile calls true cleared fileContent i

def handleExec (buffer workingDirectory : List UInt8) : Option Outcome := do
  let (_, path) ← strsplit buffer SPACE cleared cleared
  if (← strlen path) = 0 then
    some .error
  else if MAX_COMMAND_DIMENSION ≤ (← strlen workingDirectory) + (← strlen path) then
    some .error
  else
    let completePath ← strcat cleared workingDirectory
    let completePath ← strcat completePath path
    let completePath ← normalizePath completePath
    let path ← readString completePath
    some (.built path)

/-- The string `/bin/`. -/
def binDirectory : List UInt8 := [SLASH, 0x62, 0x69, 0x6E, SLASH]

/-- The string `.bin`. -/
def binSuffix : List UInt8 := [DOT, 0x62, 0x69, 0x6E]

def handleExecFromBin (buffer : List UInt8) : Option Outcome := do
  let (fileName, argumentsRaw) ← strsplit buffer SPACE cleared cleared
  let directoryLen ← strlen (binDirectory ++ [0])
  let suffixLen ← strlen (binSuffix ++ [0])
  if MAX_COMMAND_DIMENSION ≤ directoryLen + (← strlen fileName) + suffixLen then
    some .error
  else
    let completePath ← strcat cleared (binDirectory ++ [0])
    let completePath ← strcat completePath fileName
    let completePath ← strcat completePath (binSuffix ++ [0])
    let completePath ← normalizePath completePath
    let _ ← splitArguments argumentsRaw
    let path ← readString completePath
    some (.built path)

end DemosOS.Shell
