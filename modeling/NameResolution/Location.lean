/-!
# Source locations

A location is a range of byte offsets in one signature file, and the end never comes before the
start.

## Main definitions

* `FileId` — the number of a signature file.
* `Location` — a file and a range in it.
* `Location.ofOffsets?` — a location from two offsets, refused when they are the wrong way round.
-/

namespace NameResolution

/-- The number of a signature file. -/
structure FileId where
  index : UInt32
deriving DecidableEq, Repr

namespace FileId

/-- The written form. -/
def text (file : FileId) : String := s!"sig#{file.index}"

/-- The number, labelled for a log. -/
def debugText (file : FileId) : String := s!"FileId({file.index})"

end FileId

/-- A range of byte offsets in a signature file. -/
structure Location where
  file : FileId
  start : UInt32
  stop : UInt32
  start_le_stop : start ≤ stop
deriving DecidableEq, Repr

namespace Location

/-- The range from `start` to `stop`; none when it would end before it starts. -/
def ofOffsets? (file : FileId) (start stop : UInt32) : Option Location :=
  if h : start ≤ stop then some ⟨file, start, stop, h⟩ else none

/-- The number of bytes in the range. -/
def size (location : Location) : UInt32 := location.stop - location.start

/-- Whether the range holds no byte. -/
def isEmpty (location : Location) : Bool := location.start == location.stop

/-- The written form. -/
def text (location : Location) : String :=
  s!"{location.file.text}:{location.start}..{location.stop}"

/-- The written form in a log. -/
def debugText (location : Location) : String :=
  s!"{location.file.text}@{location.start}..{location.stop}"

end Location

end NameResolution
