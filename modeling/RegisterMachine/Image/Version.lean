import RegisterMachine.Binary

namespace RegisterMachine

/-- A version with its flags. -/
structure Version where
  flags : UInt8
  major : UInt8
  minor : UInt8
  patch : UInt8
deriving DecidableEq, Repr

namespace Version

/-- The flags that mark an image as experimental. -/
def experimentalFlags : UInt8 := 0xFF

/-- The version without flags. -/
def release (major minor patch : UInt8) : Version := ⟨0, major, minor, patch⟩

/-- The version of the image format described here. -/
def supported : Version := release 0 1 0

/-- The same version, marked as experimental. -/
def experimental (v : Version) : Version := { v with flags := experimentalFlags }

def isExperimental (v : Version) : Bool := v.flags == experimentalFlags

/-- The four bytes of a version, from the most significant byte of its word. -/
instance : Binary Version where
  encode v := [v.flags, v.major, v.minor, v.patch]
  decode := do
    let flags ← Binary.decode (α := UInt8)
    let major ← Binary.decode (α := UInt8)
    let minor ← Binary.decode (α := UInt8)
    let patch ← Binary.decode (α := UInt8)
    pure ⟨flags, major, minor, patch⟩
  size _ := 4

/-- The version as one number. -/
def toWord (v : Version) : UInt32 :=
  UInt32.ofNat (Bytes.toNat (Binary.encode v))

/-- The version that a number stands for. -/
def ofWord (word : UInt32) : Version where
  flags := UInt8.ofNat (word.toNat / 0x1000000)
  major := UInt8.ofNat (word.toNat / 0x10000)
  minor := UInt8.ofNat (word.toNat / 0x100)
  patch := UInt8.ofNat word.toNat

/-- The text of a version, without its flags. -/
def text (v : Version) : String :=
  ".".intercalate [toString v.major.toNat, toString v.minor.toNat, toString v.patch.toNat]

/-- An image whose major version is too new. -/
structure Incompatible where
  image : Version
  supported : Version
deriving DecidableEq, Repr

/-- The text shown for the error. -/
def Incompatible.message (e : Incompatible) : String :=
  "image version " ++ e.image.text ++ " is incompatible with vm version " ++ e.supported.text

/-- What to warn about before an image of the same or an older major version is used. -/
def warnings (image supported : Version) : List String :=
  (if image.major = supported.major then
      if supported.minor < image.minor then
        ["image minor version " ++ image.text ++ " is newer than supported " ++ supported.text
          ++ "; some features may be unavailable"]
      else if image.minor = supported.minor ∧ supported.patch < image.patch then
        ["image patch version " ++ image.text ++ " is newer than supported " ++ supported.text]
      else []
    else [])
    ++ if image.isExperimental then ["image " ++ image.text ++ " is marked experimental"] else []

/-- Checks the version of an image against the one that a machine supports. -/
def check (image supported : Version) : Except Incompatible (List String) :=
  if supported.major < image.major then .error ⟨image, supported⟩
  else .ok (image.warnings supported)

end Version

end RegisterMachine
