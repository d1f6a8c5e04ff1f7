import LongMode.Width
/-!
The condition flags, each on, off or undefined. An instruction says what it does to the flags by a
partial set, which holds only the flags it defines and is laid over the live ones.
-/

namespace LongMode

/-- The eight flags; `none` is undefined. -/
@[ext]
structure Flags where
  carry : Option Bool := none
  auxiliary : Option Bool := none
  overflow : Option Bool := none
  zero : Option Bool := none
  sign : Option Bool := none
  parity : Option Bool := none
  direction : Option Bool := none
  interrupt : Option Bool := none
deriving DecidableEq, Repr, Inhabited

/-- A flag is on only when it is defined and set. -/
def isOn (f : Option Bool) : Bool := f == some true

@[simp] theorem isOn_some (b : Bool) : isOn (some b) = b := by cases b <;> rfl

/-- A flag that has just been defined is on as it says, whatever it was before. -/
theorem isOn_or (b : Bool) (old : Option Bool) : isOn ((some b).or old) = b := isOn_some b

/-- The low byte has an even number of ones. -/
def evenParity (v : UInt64) : Bool :=
  let a := v ^^^ (v >>> 4)
  let b := a ^^^ (a >>> 2)
  let c := b ^^^ (b >>> 1)
  c &&& 1 == 0

namespace Flags

def undefined : Flags := {}

def cleared : Flags :=
  { carry := some false, auxiliary := some false, overflow := some false, zero := some false,
    sign := some false, parity := some false, direction := some false, interrupt := some false }

/-- The flags in the order CF AF OF ZF SF PF DF IF. -/
def toList (f : Flags) : List (Option Bool) :=
  [f.carry, f.auxiliary, f.overflow, f.zero, f.sign, f.parity, f.direction, f.interrupt]

def zipWith (g : Option Bool → Option Bool → Option Bool) (a b : Flags) : Flags where
  carry := g a.carry b.carry
  auxiliary := g a.auxiliary b.auxiliary
  overflow := g a.overflow b.overflow
  zero := g a.zero b.zero
  sign := g a.sign b.sign
  parity := g a.parity b.parity
  direction := g a.direction b.direction
  interrupt := g a.interrupt b.interrupt

/-- `partialSet` laid over `live`: a flag that it defines wins. -/
def overlap (live partialSet : Flags) : Flags :=
  zipWith (fun old new => new.or old) live partialSet

/-- The flags that `selection` defines, with their values in `f`. -/
def restrict (f selection : Flags) : Flags :=
  zipWith (fun value keep => if keep.isSome then value else none) f selection

/-- Every flag that `expected` defines has that value in `f`. -/
def agrees (f expected : Flags) : Bool :=
  (f.toList.zip expected.toList).all fun (actual, want) => want.isNone || actual == want

def isUndefined (f : Flags) : Bool := f.toList.all Option.isNone

/-- Zero, sign and parity of a result at a width. -/
def ofResult (result : UInt64) (w : Width) : Flags :=
  let value := result &&& w.mask
  { zero := some (value == 0)
    sign := some (value &&& w.signBit != 0)
    parity := some (evenParity value) }

/-! Positions in the flags register. Bit 1 always reads as one. -/

def bitCarry : UInt64 := 0x001
def bitReserved : UInt64 := 0x002
def bitParity : UInt64 := 0x004
def bitAuxiliary : UInt64 := 0x010
def bitZero : UInt64 := 0x040
def bitSign : UInt64 := 0x080
def bitInterrupt : UInt64 := 0x200
def bitDirection : UInt64 := 0x400
def bitOverflow : UInt64 := 0x800

/-- The flags register image; an undefined flag reads as zero. -/
def toWord (f : Flags) : UInt64 :=
  let bit (flag : Option Bool) (position : UInt64) : UInt64 := if isOn flag then position else 0
  bitReserved ||| bit f.carry bitCarry ||| bit f.parity bitParity ||| bit f.auxiliary bitAuxiliary
    ||| bit f.zero bitZero ||| bit f.sign bitSign ||| bit f.interrupt bitInterrupt
    ||| bit f.direction bitDirection ||| bit f.overflow bitOverflow

/-- The flags held by a flags register image, all of them defined. -/
def ofWord (image : UInt64) : Flags :=
  let bit (position : UInt64) : Option Bool := some (image &&& position != 0)
  { carry := bit bitCarry, auxiliary := bit bitAuxiliary, overflow := bit bitOverflow
    zero := bit bitZero, sign := bit bitSign, parity := bit bitParity
    direction := bit bitDirection, interrupt := bit bitInterrupt }

def names : List String := ["CF", "AF", "OF", "ZF", "SF", "PF", "DF", "IF"]

def digit : Option Bool → Char
  | some true => '1'
  | some false => '0'
  | none => '?'

/-- For instance `CF=1 AF=? OF=0 ZF=0 SF=0 PF=0 DF=0 IF=0`. -/
def text (f : Flags) : String :=
  " ".intercalate ((names.zip f.toList).map fun (name, value) => name ++ "=" ++ (digit value).toString)

@[simp] theorem overlap_undefined (f : Flags) : f.overlap undefined = f := by
  cases f; simp [overlap, zipWith, undefined]

end Flags

end LongMode
