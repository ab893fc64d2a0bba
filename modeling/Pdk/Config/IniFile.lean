import Mathlib.Data.List.DropRight
import Pdk.Foundation.Bytes
import Pdk.Foundation.Lines
import Pdk.Foundation.OrderedMap

/-!
# `IniFile`

Model of `include/inifile.hpp` and `src/inifile.cpp`. The representation is kept as it is: the names
of the sections beside a vector of `Key`s, and in each `Key` the names of the values beside the
values. A search returns an `int` index, or -1. The vectors hold fewer than 2^31 elements, so that
the casts of their sizes to `int` are the sizes.

A string is a list of bytes. `read_file` sees the file as `fgets` reads it, in chunks of at most
2047 bytes, and each chunk as a C string; `write_file` prints with `%s`, up to a terminator.
-/

namespace Pdk.Config

open Foundation

/-- `std::string`. -/
abbrev Str : Type := List UInt8

/-! ## Characters -/

def lf : UInt8 := 10
def cr : UInt8 := 13
def space : UInt8 := 32
def hash : UInt8 := 35
def equals : UInt8 := 61
def lbracket : UInt8 := 91
def rbracket : UInt8 := 93

/-- `TrimLeft(s, c)`. -/
def trimLeft (c : UInt8) (s : Str) : Str :=
  s.dropWhile (· = c)

/-- `TrimRight(s, c)`. -/
def trimRight (c : UInt8) (s : Str) : Str :=
  s.rdropWhile (· = c)

/-- `Trim(s)`. -/
def trim (s : Str) : Str :=
  trimRight space (trimLeft space s)

/-! ## The object -/

/-- `IniFile::Key`. -/
structure Key where
  values : List Str
  names : List Str
  deriving DecidableEq, Repr

structure IniFile where
  keys : List Key
  names : List Str
  error : String
  deriving DecidableEq, Repr

/-- The loop of `find_key` and `find_value`. -/
def findName (names : List Str) (name : Str) : ℤ :=
  match position names name with
  | some i => i
  | none => -1

namespace IniFile

def new : IniFile :=
  ⟨[], [], ""⟩

/-- `keys_[keynum]`. -/
def keyAt (f : IniFile) (keynum : ℤ) : Key :=
  f.keys.getD keynum.toNat ⟨[], []⟩

/-- Assign to `keys_[keynum]`. -/
def setKeyAt (f : IniFile) (keynum : ℤ) (key : Key) : IniFile :=
  { f with keys := f.keys.set keynum.toNat key }

def findKey (f : IniFile) (keyname : Str) : ℤ :=
  findName f.names keyname

def findValue (f : IniFile) (keynum : ℤ) (valuename : Str) : ℤ :=
  if keynum < 0 then -1 else findName (f.keyAt keynum).names valuename

/-- `is_key(keyname)`. -/
def isKey (f : IniFile) (keyname : Str) : Bool :=
  f.findKey keyname ≠ -1

/-- `num_values(keyname)`. -/
def numValues (f : IniFile) (keyname : Str) : ℤ :=
  let keynum := f.findKey keyname
  if keynum = -1 then -1 else (f.keyAt keynum).names.length

/-- `get_value(keyname, valuename)`. -/
def getValue (f : IniFile) (keyname valuename : Str) : Str × IniFile :=
  let keynum := f.findKey keyname
  let valuenum := f.findValue keynum valuename
  if keynum = -1 then ([], { f with error := "Key not found." })
  else if valuenum = -1 then ([], { f with error := "Value not found." })
  else ((f.keyAt keynum).values.getD valuenum.toNat [], f)

/-- `get_value(keyname, valuenum, valuename_out, value_out)`: the two outputs when it returns true. -/
def getValueAt (f : IniFile) (keyname : Str) (valuenum : ℤ) : Option (Str × Str) :=
  let keynum := f.findKey keyname
  if keynum = -1 then none
  else if valuenum < 0 ∨ valuenum ≥ (f.keyAt keynum).names.length then none
  else
    let valuename := (f.keyAt keynum).names.getD valuenum.toNat []
    some (valuename, (f.getValue keyname valuename).1)

/-- `get_values(keyname, valuemap)`: the assignments to the cleared map when it returns true. -/
def getValues (f : IniFile) (keyname : Str) : Option (List (Str × Str)) :=
  let keynum := f.findKey keyname
  if keynum = -1 then none
  else some ((f.keyAt keynum).names.map fun valuename => (valuename, (f.getValue keyname valuename).1))

/-- `try_get_string(section, key)`. -/
def tryGetString (f : IniFile) (sectionName key : Str) : Option Str :=
  let keynum := f.findKey sectionName
  if keynum < 0 then none
  else
    let valnum := f.findValue keynum key
    if valnum < 0 then none else some ((f.keyAt keynum).values.getD valnum.toNat [])

/-- `reset()`. -/
def reset (f : IniFile) : IniFile :=
  { f with keys := [], names := [] }

/-- The second half of `set_value`, from `find_value` on. -/
def setValueIn (f : IniFile) (keynum : ℤ) (valuename value : Str) (create : Bool) : Bool × IniFile :=
  let valuenum := f.findValue keynum valuename
  if valuenum = -1 then
    if create then
      let key := f.keyAt keynum
      let names := key.names ++ [valuename]
      let values := key.values ++ [[]]
      (true, f.setKeyAt keynum ⟨values.set (names.length - 1) value, names⟩)
    else (false, f)
  else
    let key := f.keyAt keynum
    (true, f.setKeyAt keynum { key with values := key.values.set valuenum.toNat value })

/-- `set_value(keyname, valuename, value, create)`. -/
def setValue (f : IniFile) (keyname valuename value : Str) (create : Bool) : Bool × IniFile :=
  let keynum := f.findKey keyname
  if keynum = -1 then
    if create then
      let f' := { f with names := f.names ++ [keyname], keys := f.keys ++ [Key.mk [] []] }
      f'.setValueIn ((f'.names.length : ℤ) - 1) valuename value create
    else (false, f)
  else f.setValueIn keynum valuename value create

/-- `snprintf` with `%d`. -/
def decimal (value : CInt) : Str :=
  (toString value.val).toList.map Char.toUInt8

/-- `set_value_i(key, valuename, value, create)`. -/
def setValueI (f : IniFile) (keyname valuename : Str) (value : CInt) (create : Bool) : Bool × IniFile :=
  f.setValue keyname valuename (decimal value) create

/-- `delete_value(keyname, valuename)`. -/
def deleteValue (f : IniFile) (keyname valuename : Str) : Bool × IniFile :=
  let keynum := f.findKey keyname
  let valuenum := f.findValue keynum valuename
  if keynum = -1 ∨ valuenum = -1 then (false, f)
  else
    let key := f.keyAt keynum
    (true, f.setKeyAt keynum
      ⟨key.values.eraseIdx valuenum.toNat, key.names.eraseIdx valuenum.toNat⟩)

/-- `delete_key(keyname)`. -/
def deleteKey (f : IniFile) (keyname : Str) : Bool × IniFile :=
  let keynum := f.findKey keyname
  if keynum = -1 then (false, f)
  else
    (true, { f with
      keys := f.keys.eraseIdx keynum.toNat
      names := f.names.eraseIdx keynum.toNat })

end IniFile

/-! ## Reading -/

/-- What `read_file` makes of one chunk. -/
inductive Line where
  | skip
  | heading (keyname : Str)
  | entry (valuename value : Str)
  deriving DecidableEq, Repr

/-- The name and the value of a line that is neither a comment nor a heading. -/
def parseEntry (line : Str) : Line :=
  let valuename := trim (line.takeWhile (· ≠ equals))
  -- behind the first `=`, up to a `#`
  let value := trim (((line.dropWhile (· ≠ equals)).drop 1).takeWhile (· ≠ hash))
  if valuename = [] then .skip else .entry valuename value

/-- `std::string line(buf)`, without the end of the line. -/
def strip (buf : Str) : Str :=
  trimRight cr (trimRight lf (Bytes.cString buf))

/-- What a line without its end is. -/
def parseStripped (line : Str) : Line :=
  if line = [] ∨ line.head? = some hash then .skip
  else if line.head? = some lbracket ∧ line.getLast? = some rbracket then
    .heading (trim ((line.drop 1).take (line.length - 2)))
  else parseEntry line

/-- The body of the loop of `read_file`, up to the assignment. -/
def parseLine (buf : Str) : Line :=
  parseStripped (strip buf)

/-- `sizeof(buf) - 1`, the number of characters that `fgets` takes at most. -/
def fgetsRoom : ℕ := 2047

namespace IniFile

/-- The loop of `read_file` on one chunk: the state is `keyname`, the section under which values
    are set, and the object. -/
def readLine (state : Str × IniFile) (buf : Str) : Str × IniFile :=
  match parseLine buf with
  | .skip => state
  | .heading keyname => (keyname, state.2)
  | .entry valuename value => (state.1, (state.2.setValue state.1 valuename value true).2)

/-- The loop of `read_file` on the text of the file. -/
def readText (f : IniFile) (text : Str) : IniFile :=
  ((chunks lf fgetsRoom text).foldl readLine ([], f)).2

/-- `read_file()`: `none` is a file that cannot be opened. -/
def readFile (f : IniFile) (content : Option Str) : Bool × IniFile :=
  match content with
  | none => (false, { f with error := "Unable to open ini file." })
  | some text => (true, f.readText text)

/-! ## Writing -/

/-- `%-10s`. -/
def pad (s : Str) : Str :=
  s ++ List.replicate (10 - s.length) space

/-- `fprintf(fp, "[%s]\n", name)`. -/
def headingLine (name : Str) : Str :=
  [lbracket] ++ Bytes.cString name ++ [rbracket, lf]

/-- `fprintf(fp, "%-10s = %s\n", name, value)`. -/
def entryLine (name value : Str) : Str :=
  pad (Bytes.cString name) ++ [space, equals, space] ++ Bytes.cString value ++ [lf]

/-- The lines of one section. -/
def keyText (name : Str) (key : Key) : Str :=
  if key.names = [] then []
  else headingLine name ++ (key.names.zip key.values).flatMap (fun e => entryLine e.1 e.2) ++ [lf]

/-- What `write_file()` prints. -/
def text (f : IniFile) : Str :=
  (f.names.zip f.keys).flatMap fun e => keyText e.1 e.2

/-- `write_file()`: the new content of the file, if it can be opened. -/
def writeFile (f : IniFile) (opens : Bool) : Option Str × IniFile :=
  if opens then (some f.text, f) else (none, { f with error := "Unable to open ini file." })

end IniFile

end Pdk.Config
