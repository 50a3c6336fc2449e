import ObjectPack.Bytes.Endian

/-!
# Target platforms

All targets have pointer slots of eight bytes; they differ in byte order only.
-/

namespace ObjectPack

/-- A target platform. -/
inductive Platform where
  | win64
  | mac
  | xboxOne
  | xboxSeriesX
  | ps4
  | ps5
  | nintendoSwitch
  /-- Any 64-bit platform that stores the most significant byte first. -/
  | bigEndian64
  deriving DecidableEq, Repr, Inhabited

namespace Platform

/-- All platforms. -/
def all : List Platform :=
  [.win64, .mac, .xboxOne, .xboxSeriesX, .ps4, .ps5, .nintendoSwitch, .bigEndian64]

/-- The byte order of a platform. -/
def endian : Platform → Endian
  | .bigEndian64 => .big
  | _ => .little

/-- Size of a pointer slot in bytes. -/
def pointerSize (_ : Platform) : Nat := 8

/-- The configuration name of a platform. -/
def name : Platform → String
  | .win64 => "win64"
  | .mac => "mac"
  | .xboxOne => "xboxone"
  | .xboxSeriesX => "xboxseriesx"
  | .ps4 => "ps4"
  | .ps5 => "ps5"
  | .nintendoSwitch => "switch"
  | .bigEndian64 => "be64"

/-- The platform of a name; the case of ASCII letters does not matter. -/
def ofName? (text : String) : Option Platform :=
  all.find? fun p => p.name.toList = text.toList.map Char.toLower

theorem ofName?_name (p : Platform) : ofName? p.name = some p := by cases p <;> decide

end Platform

end ObjectPack
