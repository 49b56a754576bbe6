import Mathlib.Data.Nat.Basic
/-!
# Reading a zip archive

The archive is a buffer of bytes that anybody may have made.  A number that is
read outside the buffer is a failure of its own, as it is a `RangeError` of
the view.
-/

namespace Gostman.Zip

abbrev Bytes := List UInt8

def endSignature : Nat := 0x06054b50
def centralSignature : Nat := 0x02014b50
def localSignature : Nat := 0x04034b50
def endRecordBytes : Nat := 22
def maxCommentBytes : Nat := 65535
def centralHeaderBytes : Nat := 46
def localHeaderBytes : Nat := 30
def methodStored : Nat := 0
def methodDeflate : Nat := 8
def flagEncrypted : Nat := 1

/-- How reading ends without files. `outside` is the view's own error,
`inflating` the error of the decompression stream. -/
inductive Failure where
  | notZip
  | unsupported
  | tooMany (files : Nat)
  | tooLarge (limit : Int)
  | inflating
  | outside
deriving Repr, DecidableEq

/-- The chunks that inflating gives, and whether it gets to its end. -/
structure Inflated where
  chunks : List Bytes
  done : Bool

structure Browser where
  decode : Bytes → List Char
  inflateRaw : Bytes → Inflated

structure Limits where
  files : Nat
  bytes : Nat

structure Entry where
  flags : Nat
  method : Nat
  compressedSize : Nat
  size : Nat
  local' : Nat
  name : List Char
deriving Repr, DecidableEq

structure File where
  name : List Char
  blob : Bytes
deriving Repr, DecidableEq

def isSafeName (name : List Char) : Bool :=
  name != [] && !name.head? == some '/' && !name.contains '\\' && !name.contains ':' &&
    !(name.splitOn '/').any (· == ['.', '.'])

/-! ## The view -/

def byteAt (view : Bytes) (offset : Nat) : Except Failure Nat :=
  match view[offset]? with
  | some byte => .ok byte.toNat
  | none => .error .outside

def getUint16 (view : Bytes) (offset : Nat) : Except Failure Nat := do
  let low ← byteAt view offset
  let high ← byteAt view (offset + 1)
  pure (low + 256 * high)

def getUint32 (view : Bytes) (offset : Nat) : Except Failure Nat := do
  let low ← getUint16 view offset
  let high ← getUint16 view (offset + 2)
  pure (low + 65536 * high)

def subarray (bytes : Bytes) (start stop : Nat) : Bytes :=
  (bytes.take stop).drop start

/-! ## The directory of the archive -/

/-- The search for the end record below `next`, down to `lowest`. -/
def endBelow (view : Bytes) (lowest : Nat) : Nat → Except Failure Nat
  | 0 => .error .notZip
  | offset + 1 =>
      if offset < lowest then .error .notZip
      else do
        let signature ← getUint32 view offset
        if signature = endSignature then pure offset else endBelow view lowest offset

/-- The last offset is `byteLength - endRecordBytes`, which may be negative. -/
def findEnd (view : Bytes) : Except Failure Nat :=
  endBelow view (view.length - endRecordBytes - maxCommentBytes) (view.length + 1 - endRecordBytes)

/-- The next `count` headers of the central directory. -/
def entriesFrom (browser : Browser) (view : Bytes) : Nat → Nat → Except Failure (List Entry)
  | 0, _ => pure []
  | count + 1, offset =>
      if view.length < offset + centralHeaderBytes then .error .notZip
      else do
        let signature ← getUint32 view offset
        if signature ≠ centralSignature then .error .notZip
        else do
          let nameLength ← getUint16 view (offset + 28)
          let extraLength ← getUint16 view (offset + 30)
          let commentLength ← getUint16 view (offset + 32)
          let flags ← getUint16 view (offset + 8)
          let method ← getUint16 view (offset + 10)
          let compressedSize ← getUint32 view (offset + 20)
          let size ← getUint32 view (offset + 24)
          let local' ← getUint32 view (offset + 42)
          let start := offset + centralHeaderBytes
          let name := browser.decode (subarray view start (start + nameLength))
          let rest ← entriesFrom browser view count (start + nameLength + extraLength + commentLength)
          pure ({ flags, method, compressedSize, size, local', name } :: rest)

def listEntries (browser : Browser) (view : Bytes) (limits : Limits) : Except Failure (List Entry) := do
  let end' ← findEnd view
  let count ← getUint16 view (end' + 10)
  if count = 0xffff then .error .unsupported
  else if limits.files < count then .error (.tooMany limits.files)
  else do
    let offset ← getUint32 view (end' + 16)
    entriesFrom browser view count offset

/-! ## One entry -/

/-- The chunks of one stream are added up before the stream is known to end. -/
def takeChunks (limit : Int) (done : Bool) : List Bytes → Nat → Except Failure Bytes
  | [], _ => if done then pure [] else .error .inflating
  | chunk :: rest, total =>
      if limit < (total + chunk.length : Nat) then .error (.tooLarge limit)
      else do
        let more ← takeChunks limit done rest (total + chunk.length)
        pure (chunk ++ more)

def inflate (browser : Browser) (compressed : Bytes) (limit : Int) : Except Failure Bytes :=
  takeChunks limit (browser.inflateRaw compressed).done (browser.inflateRaw compressed).chunks 0

def extract (browser : Browser) (entry : Entry) (view : Bytes) (limit : Int) : Except Failure Bytes :=
  if entry.flags &&& flagEncrypted ≠ 0 then .error .unsupported
  else if limit < entry.size then .error (.tooLarge limit)
  else if view.length < entry.local' + localHeaderBytes then .error .notZip
  else do
    let signature ← getUint32 view entry.local'
    if signature ≠ localSignature then .error .notZip
    else do
      let nameLength ← getUint16 view (entry.local' + 26)
      let extraLength ← getUint16 view (entry.local' + 28)
      let start := entry.local' + localHeaderBytes + nameLength + extraLength
      let compressed := subarray view start (start + entry.compressedSize)
      if entry.method = methodStored then pure compressed
      else if entry.method = methodDeflate then inflate browser compressed limit
      else .error .unsupported

/-! ## The archive -/

def isLeftOut (entry : Entry) : Bool :=
  entry.name.getLast? == some '/' || !isSafeName entry.name

def extractAll (browser : Browser) (view : Bytes) : List Entry → Int → Except Failure (List File)
  | [], _ => pure []
  | entry :: rest, remaining =>
      if isLeftOut entry then extractAll browser view rest remaining
      else do
        let blob ← extract browser entry view remaining
        let files ← extractAll browser view rest (remaining - blob.length)
        pure ({ name := entry.name, blob } :: files)

def readZip (browser : Browser) (view : Bytes) (limits : Limits) : Except Failure (List File) := do
  let entries ← listEntries browser view limits
  extractAll browser view entries limits.bytes

end Gostman.Zip
