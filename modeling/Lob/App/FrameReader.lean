import Lob.App.ItchReplay

/-!
# The frame reader

`ItchFrameReader` reads one frame at a time from a file that may return fewer bytes than it is asked
for, and whose reads may fail. Its vector is used again for every frame. Below it are the producer's
loop without the ring, where the frames are decoded until the end of the file or the first error, and
the calls of the reader alone.
-/

namespace Lob

open Basis

inductive FrameReadStatus where
  | Frame
  | EndOfFile
  | Error
  deriving DecidableEq

/-- A file that is open. Read number `n` returns `schedule n + 1` bytes, or as many as are asked for or
left; or it fails, where `fails n` is its message. -/
structure InputFile where
  content : List Byte
  schedule : ℕ → ℕ
  fails : ℕ → Option String

/-- The file and the out-parameters. -/
structure FrameReader where
  rest : List Byte
  schedule : ℕ → ℕ
  fails : ℕ → Option String
  reads : ℕ
  frame : List Byte
  error : String

abbrev Reader (α : Type) := EStateM Fault FrameReader α

namespace FrameReader

/-- Before the first frame. -/
def start (file : InputFile) : FrameReader := ⟨file.content, file.schedule, file.fails, 0, [], ""⟩

/-- `read_at_most`. No bytes are the end of the file, and none stands for `-1`. -/
def readAtMost (capacity : ℕ) : Reader (Option (List Byte)) := do
  let s ← get
  match s.fails s.reads with
  | some reason =>
    set { s with reads := s.reads + 1, error := reason }
    return none
  | none =>
    let count := min (min capacity (s.schedule s.reads + 1)) s.rest.length
    set { s with rest := s.rest.drop count, reads := s.reads + 1 }
    return some (s.rest.take count)

/-- Bytes written into a buffer, which must have room for them. -/
def overwrite (buffer : List Byte) (offset : ℕ) (bytes : List Byte) : Reader (List Byte) :=
  if buffer.length < offset + bytes.length then throw .badAccess
  else return buffer.take offset ++ bytes ++ buffer.drop (offset + bytes.length)

/-- `resize` of the vector: what is cut off is lost, what is added is zero. -/
def resize (buffer : List Byte) (size : ℕ) : List Byte :=
  buffer.take size ++ List.replicate (size - buffer.length) 0

/-- The two loops of `next_frame`: `size` bytes behind the first `base` of the buffer, of which
`filled` are there. Returns whether the file had them. -/
def fill (base size : ℕ) (truncated : String) : ℕ → List Byte → ℕ → Reader (Bool × List Byte)
  | 0, _, _ => throw .outOfFuel
  | fuel + 1, buffer, filled => do
    if filled < size then
      match ← readAtMost (size - filled) with
      | none => return (false, buffer)
      | some bytes =>
        if bytes.length = 0 then
          modify fun s => { s with error := truncated }
          return (false, buffer)
        let buffer ← overwrite buffer (base + filled) bytes
        fill base size truncated fuel buffer (filled + bytes.length)
    else return (true, buffer)

/-- `next_frame`. -/
def nextFrame : Reader FrameReadStatus := do
  match ← readAtMost 2 with
  | none => return .Error
  | some bytes =>
    if bytes.length = 0 then
      return .EndOfFile
    let lengthPrefix ← overwrite [0, 0] 0 bytes
    let (full, lengthPrefix) ←
      fill 0 2 "truncated ITCH frame-length prefix" 2 lengthPrefix bytes.length
    if !full then
      return .Error
    let high ← observe fun _ => deref lengthPrefix[0]?
    let low ← observe fun _ => deref lengthPrefix[1]?
    let payloadSize := (high.setWidth 64 <<< 8 ||| low.setWidth 64).toNat
    let frame := resize (← get).frame (2 + payloadSize)
    let frame ← overwrite frame 0 [high]
    let frame ← overwrite frame 1 [low]
    let (full, frame) ← fill 2 payloadSize "truncated ITCH frame payload" (payloadSize + 1) frame 0
    modify fun s => { s with frame := frame }
    if !full then
      return .Error
    return .Frame

/-- The events of the producer's loop, and whether it ends in failure. -/
def produce : ℕ → Reader (List ItchEvent × Bool)
  | 0 => throw .outOfFuel
  | fuel + 1 => do
    match ← nextFrame with
    | .EndOfFile => return ([], false)
    | .Error => return ([], true)
    | .Frame =>
      match ← observe fun s => decodeFrame s.frame with
      | .error reason =>
        modify fun s => { s with error := reason }
        return ([], true)
      | .ok event =>
        let (events, failed) ← produce fuel
        return (event :: events, failed)

/-- What `next_frame` returns, call by call, up to the end of the file or an error of its own. -/
def readAll : ℕ → Reader (List FrameRead)
  | 0 => throw .outOfFuel
  | fuel + 1 => do
    match ← nextFrame with
    | .EndOfFile => return []
    | .Error => return [.error (← get).error]
    | .Frame =>
      let frame := (← get).frame
      return .frame frame :: (← readAll fuel)

end FrameReader

end Lob
