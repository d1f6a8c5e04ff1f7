import LongMode.Width
import LongMode.LittleEndian
import LongMode.Misuse
/-!
The register file and registers as views of it. The file has thirty-two word slots and sixteen
vector slots: the general registers are the first sixteen word slots, the eight MMX registers the
next eight, and an XMM register is the low half of its vector slot.
-/

namespace LongMode

structure RegisterFile where
  slots : Vector UInt64 32
  vectors : Vector (Vector UInt8 32) 16
deriving DecidableEq

/-- A register at a width. Without a REX byte, the byte registers 4 to 7 are the second bytes of
the registers 0 to 3. -/
structure Register where
  bank : Bank
  code : Fin 16
  width : Width
  rex : Bool
deriving DecidableEq, Repr

namespace RegisterFile

def empty : RegisterFile := ⟨Vector.replicate 32 0, Vector.replicate 16 (Vector.replicate 32 0)⟩

instance : Inhabited RegisterFile := ⟨empty⟩

def generalSlot (code : Fin 16) : Fin 32 := ⟨code, by omega⟩

/-- The slot of an MMX register; the codes repeat from 8 on. -/
def mmxSlot (code : Fin 16) : Fin 32 := ⟨16 + code % 8, by omega⟩

def readGeneral (f : RegisterFile) (code : Fin 16) (w : Width) : UInt64 :=
  f.slots[generalSlot code] &&& w.mask

/-- The low part is written. A narrow write keeps the bytes above it, but a doubleword write clears
them. -/
def writeGeneral (f : RegisterFile) (code : Fin 16) (w : Width) (v : UInt64) : RegisterFile :=
  let old := f.slots[generalSlot code]
  let new := match w with
    | .byte | .word => (old &&& ~~~w.mask) ||| (v &&& w.mask)
    | .dword => v &&& 0xFFFF_FFFF
    | _ => v
  { f with slots := f.slots.set (generalSlot code) new }

def readHigh (f : RegisterFile) (code : Fin 16) : UInt64 :=
  (f.slots[generalSlot code] >>> 8) &&& 0xFF

def writeHigh (f : RegisterFile) (code : Fin 16) (v : UInt64) : RegisterFile :=
  let old := f.slots[generalSlot code]
  { f with slots := f.slots.set (generalSlot code) ((old &&& ~~~(0xFF00 : UInt64)) ||| ((v &&& 0xFF) <<< 8)) }

def readMmx (f : RegisterFile) (code : Fin 16) : UInt64 := f.slots[mmxSlot code]

def writeMmx (f : RegisterFile) (code : Fin 16) (v : UInt64) : RegisterFile :=
  { f with slots := f.slots.set (mmxSlot code) v }

def readVector (f : RegisterFile) (code : Fin 16) (w : Width) : List UInt8 :=
  f.vectors[code].toList.take w.bytes

def overlayVector (f : RegisterFile) (code : Fin 16) (bytes : List UInt8) : RegisterFile :=
  let old := f.vectors[code]
  { f with vectors := f.vectors.set code (Vector.ofFn fun i => bytes[i.val]?.getD old[i]) }

/-- `overlayVector` for at most as many bytes as there are. -/
def writeVector (f : RegisterFile) (code : Fin 16) (bytes : List UInt8) :
    Except Misuse RegisterFile :=
  if bytes.length ≤ 32 then .ok (f.overlayVector code bytes) else .error (.vectorBytes bytes.length)

def general (f : RegisterFile) (w : Width) : List UInt64 :=
  (List.finRange 16).map fun code => f.readGeneral code w

end RegisterFile

namespace Register

def ofCode (bank : Bank) (code : Nat) (width : Width) (rex : Bool) : Except Misuse Register :=
  if h : code < bank.size then
    .ok ⟨bank, ⟨code, Nat.lt_of_lt_of_le h bank.size_le⟩, width, rex⟩
  else .error (.registerCode bank code)

/-- A general register as an instruction with a REX byte sees it. -/
def general (code : Fin 16) (width : Width) : Register := ⟨.general, code, width, true⟩

def accumulator (w : Width) : Register := general 0 w
def counter (w : Width) : Register := general 1 w
def data (w : Width) : Register := general 2 w
def stackPointer : Register := general 4 .qword
def basePointer (w : Width) : Register := general 5 w
def sourceIndex (w : Width) : Register := general 6 w
def destinationIndex (w : Width) : Register := general 7 w

/-- `AH`, whatever prefixes the instruction has. -/
def highAccumulator : Register := ⟨.general, 4, .byte, false⟩

/-- The register is the second byte of one of the registers 0 to 3. -/
def isHighByte (r : Register) : Bool :=
  r.bank == .general && r.width == .byte && !r.rex && 4 ≤ r.code.val && r.code.val < 8

/-- The register whose second byte a high byte register is. -/
def owner (r : Register) : Fin 16 := ⟨r.code - 4, by omega⟩

/-- The value of the register; a vector register gives its low eight bytes. -/
def fetch (r : Register) (f : RegisterFile) : UInt64 :=
  match r.bank with
  | .general => if r.isHighByte then f.readHigh r.owner else f.readGeneral r.code r.width
  | .mmx => f.readMmx r.code &&& r.width.mask
  | .sse => LittleEndian.toWord ((f.readVector r.code r.width).take 8) &&& r.width.mask

/-- The register set to the low part of `v`; a vector register keeps what is above eight bytes. -/
def set (r : Register) (f : RegisterFile) (v : UInt64) : RegisterFile :=
  match r.bank with
  | .general => if r.isHighByte then f.writeHigh r.owner v else f.writeGeneral r.code r.width v
  | .mmx =>
    f.writeMmx r.code ((f.readMmx r.code &&& ~~~r.width.mask) ||| (v &&& r.width.mask))
  | .sse => f.overlayVector r.code (LittleEndian.ofWord r.width.wordBytes v)

def fetchBytes (r : Register) (f : RegisterFile) : Except Misuse (List UInt8) :=
  match r.bank with
  | .sse => .ok (f.readVector r.code r.width)
  | _ =>
    if r.width.bytes ≤ 8 then .ok (LittleEndian.ofWord r.width.bytes (r.fetch f))
    else .error .outOfRange

end Register

end LongMode
