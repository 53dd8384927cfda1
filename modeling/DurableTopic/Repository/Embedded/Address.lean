import DurableTopic.Repository.Embedded.Switch
/-! How an embedded database is addressed: by a path, or by a resource identifier, whose options say
how the database is opened. -/

namespace DurableTopic.Repository.Embedded

/-- What may be done with a database. -/
inductive Access where
  | readOnly
  | existing
  | create
  /-- Keep the database in memory, whatever its path is. -/
  | memory
  deriving Repr, DecidableEq, Inhabited

namespace Access

def ofName? : String → Option Access
  | "ro" => some readOnly
  | "rw" => some existing
  | "rwc" => some create
  | "memory" => some memory
  | _ => none

/-- What an access asks for. -/
def demand : Access → Nat
  | memory => 0
  | readOnly => 1
  | existing => 2
  | create => 6

/-- How much may be asked for after an access was granted: no more than it, but anything in memory. -/
def limit : Access → Nat
  | memory => 128
  | a => a.demand

end Access

structure Address where
  path : Bytes
  access : Access := .create
  /-- The system that keeps the files. -/
  system : String := "unix"
  /-- The file whose permissions a new file gets. -/
  model : Option Bytes := none
  /-- Whether nobody ever changes the file. -/
  sealed : Bool := false
  /-- Whether files are not locked. -/
  lockFree : Bool := false
  /-- Whether the index of a write-ahead log may only be read. -/
  indexReadOnly : Bool := false
  deriving Repr, DecidableEq, Inhabited

namespace Address

/-- The system that keeps files in memory. -/
def memorySystem : String := "memdb"

/-- The system whose locks programs share, and with them the index of a write-ahead log. -/
def sharingSystem : String := "unix"

/-- The system that locks a file by a directory beside it. -/
def besideSystem : String := "unix-dotfile"

/-- The systems that may keep files. They differ in their locks only, but for the one in memory. -/
def systems : List String :=
  [sharingSystem, "unix-none", besideSystem, "unix-excl", memorySystem]

def hexDigit? (b : UInt8) : Option Nat := Number.Literal.hexDigit? (Char.ofNat b.toNat)

/-- Replaces every percent sign with two digits behind it by the byte that they stand for. Nothing
counts behind a zero byte. -/
def decode : Bytes → Bytes
  | 0x25 :: a :: b :: rest =>
    match hexDigit? a, hexDigit? b with
    | some x, some y => if x + y = 0 then [] else UInt8.ofNat (16 * x + y) :: decode rest
    | _, _ => 0x25 :: decode (a :: b :: rest)
  | c :: rest => c :: decode rest
  | [] => []
termination_by b => b.length

def text (b : Bytes) : String := (Text.ofUtf8? b).getD ""

/-- The part before a byte, and the part behind it if it is there. -/
def divide (mark : UInt8) (b : Bytes) : Bytes × Option Bytes :=
  (b.takeWhile (· ≠ mark), (b.dropWhile (· ≠ mark)).tail?)

/-- An option: its name, and its value, which may be missing. -/
def option (b : Bytes) : String × Bytes :=
  let (name, value) := divide 0x3d b
  (text (decode name), decode (value.getD []))

/-- The options of an identifier. Those without a name do not count. -/
def options (query : Bytes) : List (String × Bytes) :=
  ((Text.pieces 0x26 query).map option).filter fun o => !o.1.isEmpty

def apply (a : Address) : String × Bytes → Except String Address
  | ("mode", value) =>
    match Access.ofName? (text value) with
    | none => .error ("no such access mode: " ++ text value)
    | some access =>
      if access.demand ≤ a.access.limit then .ok { a with access }
      else .error ("access mode not allowed: " ++ text value)
  | ("cache", value) =>
    if text value ∈ ["shared", "private"] then .ok a
    else .error ("no such cache mode: " ++ text value)
  | ("vfs", value) => .ok { a with system := text value }
  | _ => .ok a

/-- The path behind an authority, which must be empty or the machine itself. -/
def afterAuthority : Bytes → Except String Bytes
  | 0x2f :: 0x2f :: rest =>
    let (authority, _) := divide 0x2f rest
    if authority = [] ∨ authority = Text.utf8 "localhost" then .ok (rest.drop authority.length)
    else .error ("invalid uri authority: " ++ text authority)
  | b => .ok b

/-- Reads an identifier behind its scheme. A fragment does not count. -/
def ofIdentifier (b : Bytes) : Except String Address := do
  let (path, query) := divide 0x3f ((← afterAuthority b).takeWhile (· ≠ 0x23))
  let options := options (query.getD [])
  let isOn (name : String) : Bool :=
    (options.lookup name).any fun value => isYes (value.map fun b => Char.ofNat b.toNat)
  let a ← options.foldlM apply { path := decode path }
  if a.system ∈ systems then
    return { a with
      model := options.lookup "modeof"
      sealed := isOn "immutable"
      lockFree := isOn "nolock"
      indexReadOnly := isOn "readonly_shm" }
  else throw ("no such vfs: " ++ a.system)

def read (address : String) : Except String Address :=
  let b := Text.utf8 (Text.beforeNul address)
  let scheme := Text.utf8 "file:"
  if b.take scheme.length = scheme then ofIdentifier (b.drop scheme.length) else .ok { path := b }

/-- Whether the database is one of its own, which is gone once it is closed. -/
def isPrivate (a : Address) : Bool :=
  a.path.isEmpty || a.path = Text.utf8 ":memory:" || a.access = .memory

def isReadOnly (a : Address) : Bool := a.access = .readOnly || a.sealed

/-- Whether the file is locked by a directory beside it. -/
def locksBeside (a : Address) : Bool := a.system = besideSystem && !a.lockFree

/-- Whether a write-ahead log would have an index in a file, and that file may only be read. -/
def lacksIndex (a : Address) : Bool :=
  a.indexReadOnly && a.system = sharingSystem && !a.lockFree

end Address
end DurableTopic.Repository.Embedded
