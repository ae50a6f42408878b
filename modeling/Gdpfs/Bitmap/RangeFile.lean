import Gdpfs.Bitmap.Ops
import Gdpfs.Store.Bytes

/-!
# The bitmap file of the cache

The functions of `bitmap_file.c`.  They seek, read and write in a file that
holds one bit for each byte of the cache.  The calls of the operating system
succeed here, and transfer less than they were asked for only at the end of
the file.
-/

namespace Gdpfs
namespace Bitmap

open Bits

/-- An open file. -/
structure Fd where
  /-- The bytes of the file. -/
  contents : List UInt8
  /-- The position where the next byte is read or written. -/
  position : ℕ
  deriving DecidableEq, Repr

/-- The functions of `bitmap_file.c` move and write an open file. -/
abbrev FdM := StateM Fd

/-- What the file system does for the values of `whence` past `SEEK_END`: the
position it finds in a file, if it finds one. -/
structure Sys where
  /-- The position for a value of `whence`, an offset and the contents. -/
  seekMore : ℕ → Int → List UInt8 → Option ℕ

/-- The value `SEEK_SET` of `whence`. -/
def seekSet : ℕ := 0

/-- The value `SEEK_CUR` of `whence`. -/
def seekCur : ℕ := 1

/-- The position `lseek` is asked for. -/
def seekTarget (sys : Sys) (fd : Fd) (offset : Int) : ℕ → Option Int
  | 0 => some offset
  | 1 => some (fd.position + offset)
  | 2 => some (fd.contents.length + offset)
  | whence => (sys.seekMore whence offset fd.contents).map Int.ofNat

/-- Go to a position; one before the file is refused. -/
def seekTo (fd : Fd) : Option Int → FdM Int
  | some (.ofNat position) => do
      set { fd with position := position }
      return position
  | _ => return -1

/-- `lseek`; an unknown `whence` is refused. -/
def lseek (sys : Sys) (offset : Int) (whence : ℕ) : FdM Int := do
  let fd ← get
  seekTo fd (seekTarget sys fd offset whence)

/-- `read`, which returns the bytes it has read. -/
def read (count : ℕ) : FdM (List UInt8) := do
  let fd ← get
  let bytes := (fd.contents.drop fd.position).take count
  set { fd with position := fd.position + bytes.length }
  return bytes

/-- The file after bytes were written at its position. -/
def Fd.written (fd : Fd) (buf : List UInt8) : Fd where
  contents :=
    if buf = [] then fd.contents
    else File.overwrite fd.contents fd.position buf
  position := fd.position + buf.length

/-- `write`, which returns the number of bytes it has written. -/
def write (buf : List UInt8) : FdM ℕ := do
  modify (Fd.written · buf)
  return buf.length

/-- `BMP_CHUNKSIZE`. -/
def bmpChunksize : ℕ := 4096

/-- The byte at the position of the file, zero behind its end; the position
stays where it was. -/
def peekByte (sys : Sys) : FdM UInt8 := do
  let chunk ← read 1
  match chunk with
  | [] => return 0x00
  | byte :: _ => do
      let _ ← lseek sys (-1) seekCur
      return byte

/-- The loop of `bitmap_file_set_range` over all but the last chunk: the bytes
that are left, or nothing if a write was short. -/
def writeChunks (chunk : List UInt8) (bytesleft : ℕ) : FdM (Option ℕ) := do
  if bytesleft > bmpChunksize then
    let rv ← write (chunk.take bmpChunksize)
    if rv ≠ bmpChunksize then return none
    else writeChunks chunk (bytesleft - bmpChunksize)
  else
    return some bytesleft
termination_by bytesleft
decreasing_by simp only [bmpChunksize] at *; omega

/-- The end of `bitmap_file_set_range`: all the bytes behind the first one. -/
def setRest (sys : Sys) (bytesleft : ℕ) (rightmask : UInt8) : FdM Bool := do
  let chunk := List.replicate (min bytesleft bmpChunksize) 0xFF
  match ← writeChunks chunk bytesleft with
  | none => return false
  | some bytesleft => do
      let rv ← write (chunk.take (bytesleft - 1))
      if rv ≠ bytesleft - 1 then return false
      else
        let last ← peekByte sys
        let rv ← write [last ||| rightmask]
        return rv = 1

/-- `bitmap_file_set_range`. -/
def bitmapFileSetRange (sys : Sys) (left right : ℕ) : FdM Bool := do
  if right ≤ left then return false
  else
    let right := right - 1
    let leftbyte := left >>> 3
    let rightbyte := right >>> 3
    let leftbits := left &&& 0x7
    let rightbits := right &&& 0x7
    let lrv ← lseek sys leftbyte seekSet
    if lrv = -1 then return false
    else
      let leftmask : UInt8 := 0xFF >>> UInt8.ofNat leftbits
      let rightmask : UInt8 := 0xFF <<< UInt8.ofNat (7 - rightbits)
      let first ← peekByte sys
      if leftbyte = rightbyte then
        let mask := leftmask &&& rightmask
        let rv ← write [first ||| mask]
        return rv = 1
      else
        let rv ← write [first ||| leftmask]
        if rv ≠ 1 then return false
        else setRest sys (rightbyte - leftbyte) rightmask

/-- The loop of `bitmap_file_isset` over all but the last chunk: the bytes that
are left, or nothing if a bit of them is not set. -/
def readChunks (bytesleft : ℕ) : FdM (Option ℕ) := do
  if bytesleft > bmpChunksize then
    let chunk ← read bmpChunksize
    if chunk.length ≠ bmpChunksize then return none
    else if chunk.any (· ≠ 0xFF) then return none
    else readChunks (bytesleft - bmpChunksize)
  else
    return some bytesleft
termination_by bytesleft
decreasing_by simp only [bmpChunksize] at *; omega

/-- The final chunk of `bitmap_file_isset`. -/
def issetLast (bytesleft : ℕ) (rightmask : UInt8) : FdM Bool := do
  let chunk ← read bytesleft
  if chunk.length ≠ bytesleft then return false
  else if (chunk.take (bytesleft - 1)).any (· ≠ 0xFF) then return false
  else return chunk.getD (bytesleft - 1) 0 &&& rightmask = rightmask

/-- The end of `bitmap_file_isset`: all the bytes behind the first one. -/
def issetRest (bytesleft : ℕ) (rightmask : UInt8) : FdM Bool := do
  match ← readChunks bytesleft with
  | none => return false
  | some bytesleft => issetLast bytesleft rightmask

/-- `bitmap_file_isset` from its first byte on. -/
def issetFrom
    (leftbyte rightbyte : ℕ)
    (leftmask rightmask first : UInt8) : FdM Bool :=
  if leftbyte = rightbyte then
    let mask := leftmask &&& rightmask
    return first &&& mask = mask
  else if first &&& leftmask ≠ leftmask then return false
  else issetRest (rightbyte - leftbyte) rightmask

/-- `bitmap_file_isset`. -/
def bitmapFileIsset (sys : Sys) (left right : ℕ) : FdM Bool := do
  if right ≤ left then return false
  else
    let right := right - 1
    let leftbyte := left >>> 3
    let rightbyte := right >>> 3
    let leftbits := left &&& 0x7
    let rightbits := right &&& 0x7
    let lrv ← lseek sys leftbyte seekSet
    if lrv = -1 then return false
    else
      let leftmask : UInt8 := 0xFF >>> UInt8.ofNat leftbits
      let rightmask : UInt8 := 0xFF <<< UInt8.ofNat (7 - rightbits)
      match ← read 1 with
      | [] => return false
      | first :: _ => issetFrom leftbyte rightbyte leftmask rightmask first

/-- One turn of the loop of `bitmap_file_get_range`. -/
def copyBit
    (extendedBitmap bitmap : BitmapT)
    (extendedMemory : Memory)
    (extendedLeft left : ℕ)
    (memory : Memory)
    (byte : ℕ) : Memory :=
  let isSet := (bitmapIsSet (some extendedBitmap)
    (UInt64.ofNat (byte - extendedLeft))).run extendedMemory
  if isSet.1 ≠ 0 then
    ((bitmapSet (some bitmap) (UInt64.ofNat (byte - left))).run memory).2
  else memory

/-- `bitmap_file_get_range`, with what the two calls of `bitmap_create` find.
The offset and the `whence` of its `lseek` stand in each other's place.  It
returns nothing where the source dereferences a null pointer. -/
def bitmapFileGetRange
    (sys : Sys)
    (extended plain : Allocation)
    (left right : ℕ) : FdM (Option (BitmapT × Memory)) := do
  let extendedLeft := left - left % 8
  let extendedRight := right + 8 - right % 8
  let extendedSize := extendedRight - extendedLeft
  let _ ← lseek sys seekSet (extendedLeft / 8)
  let fileBitmap ← read (extendedSize / 8)
  match bitmapCreate extended (UInt64.ofNat extendedSize) with
  | none => return none
  | some (extendedBitmap, zeroed) =>
      let extendedMemory : Memory :=
        { zeroed with
          data := fun byte =>
            if byte < fileBitmap.length then fileBitmap.getD byte 0
            else zeroed.data byte }
      match bitmapCreate plain (UInt64.ofNat (right - left)) with
      | none => return none
      | some (bitmap, memory) =>
          return some (bitmap,
            (List.range' left (right - left)).foldl
              (copyBit extendedBitmap bitmap extendedMemory extendedLeft left)
              memory)

end Bitmap
end Gdpfs
