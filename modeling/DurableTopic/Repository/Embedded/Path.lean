import DurableTopic.Text
/-! Paths in a file system, as the names along them from the root. One dot stands for the directory
itself, and two dots for the one above it. -/

namespace DurableTopic.Repository.Embedded

abbrev Path := List Bytes

namespace Path

def slash : UInt8 := 0x2f

/-- The name that leads nowhere else. -/
def here : Bytes := [0x2e]

/-- The name that leads one directory up. -/
def up : Bytes := [0x2e, 0x2e]

/-- The names in a written path. Several slashes count as one. -/
def names (b : Bytes) : List Bytes := (Text.pieces slash b).filter fun name => !name.isEmpty

def written (p : Path) : Bytes := p.flatMap fun name => slash :: name

/-- Where a written path starts: at the root, or in the working directory. -/
def start (working : Path) (b : Bytes) : Path := if b.head? = some slash then [] else working

/-- Whether a name stands for an entry of a directory. -/
def isEntry (name : Bytes) : Bool := name ≠ here && name ≠ up

/-- One name further. The root is above itself. -/
def next (p : Path) (name : Bytes) : Path :=
  if name = here then p else if name = up then p.dropLast else p ++ [name]

/-- All paths on the way along some names. -/
def visited (p : Path) : List Bytes → List Path
  | [] => [p]
  | name :: rest => p :: visited (p.next name) rest

end Path
end DurableTopic.Repository.Embedded
