import TypedStyle.Text.Bytes

/-!
# Build records

A build record says what an output was made from. It is kept as bytes: numbers in little-endian
order of a fixed width, a text or a list after its length in eight bytes, an optional part after a
byte that says whether it is there. Reading takes a record off the front of some bytes and pays no
heed to what follows.
-/

namespace TypedStyle

/-- A source file and the digest of its content. -/
structure SourceRecord where
  path : String
  hash : String
deriving DecidableEq

/-- What an output was made from. -/
structure BuildRecord where
  /-- The version of the record's form. -/
  version : UInt32
  files : List SourceRecord
  manifestHash : Option String
  selectBranches : Bool
  toolVersion : String
deriving DecidableEq

namespace BuildRecord

/-! ## Writing -/

/-- A number in `width` bytes, the least significant first. -/
def littleEndian : Nat → Nat → Bytes
  | 0, _ => []
  | width + 1, n => UInt8.ofNat (n % 256) :: littleEndian width (n / 256)

def writeText (text : String) : Bytes :=
  littleEndian 8 (Text.utf8 text).length ++ Text.utf8 text

def writeBool (b : Bool) : Bytes :=
  [if b then 1 else 0]

def writeOption : Option String → Bytes
  | none => [0]
  | some text => 1 :: writeText text

def writeSource (s : SourceRecord) : Bytes :=
  writeText s.path ++ writeText s.hash

def encode (r : BuildRecord) : Bytes :=
  littleEndian 4 r.version.toNat ++ (littleEndian 8 r.files.length ++
    (r.files.flatMap writeSource ++ (writeOption r.manifestHash ++
      (writeBool r.selectBranches ++ writeText r.toolVersion))))

/-! ## Reading -/

def readNumber : Nat → Bytes → Option (Nat × Bytes)
  | 0, bytes => some (0, bytes)
  | _ + 1, [] => none
  | width + 1, b :: bytes => (readNumber width bytes).map fun (n, rest) => (b.toNat + 256 * n, rest)

/-- A text after its length, and what follows. -/
def readText (bytes : Bytes) : Option (String × Bytes) := do
  let (length, bytes) ← readNumber 8 bytes
  if length ≤ bytes.length then
    let text ← Text.ofUtf8? (bytes.take length)
    return (text, bytes.drop length)
  else none

/-- A truth value, and what follows. -/
def readBool : Bytes → Option (Bool × Bytes)
  | 0 :: rest => some (false, rest)
  | 1 :: rest => some (true, rest)
  | _ => none

def readOption : Bytes → Option (Option String × Bytes)
  | 0 :: rest => some (none, rest)
  | 1 :: rest => (readText rest).map fun (text, rest) => (some text, rest)
  | _ => none

def readSource (bytes : Bytes) : Option (SourceRecord × Bytes) := do
  let (path, bytes) ← readText bytes
  let (hash, bytes) ← readText bytes
  return ({ path, hash }, bytes)

/-- The given number of source files, and what follows. -/
def readSources : Nat → Bytes → Option (List SourceRecord × Bytes)
  | 0, bytes => some ([], bytes)
  | n + 1, bytes => do
    let (first, bytes) ← readSource bytes
    let (more, bytes) ← readSources n bytes
    return (first :: more, bytes)

def decode? (bytes : Bytes) : Option BuildRecord := do
  let (version, bytes) ← readNumber 4 bytes
  let (count, bytes) ← readNumber 8 bytes
  let (files, bytes) ← readSources count bytes
  let (manifestHash, bytes) ← readOption bytes
  let (selectBranches, bytes) ← readBool bytes
  let (toolVersion, _) ← readText bytes
  return { version := UInt32.ofNat version, files, manifestHash, selectBranches, toolVersion }

end BuildRecord

end TypedStyle
