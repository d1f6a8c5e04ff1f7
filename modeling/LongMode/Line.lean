/-!
Lines of a listing, and the marks on them.
-/

namespace LongMode

structure LineInfo where
  bits : UInt8
deriving DecidableEq, Repr, Inhabited

namespace LineInfo

def none : LineInfo := ⟨0⟩
def ipHere : LineInfo := ⟨1⟩
def breakpoint : LineInfo := ⟨2⟩
def invalid : LineInfo := ⟨4⟩

def contains (i j : LineInfo) : Bool := i.bits &&& j.bits == j.bits
def insert (i j : LineInfo) : LineInfo := ⟨i.bits ||| j.bits⟩
def remove (i j : LineInfo) : LineInfo := ⟨i.bits &&& ~~~j.bits⟩
def toggle (i j : LineInfo) : LineInfo := ⟨i.bits ^^^ j.bits⟩

end LineInfo

structure Line where
  address : UInt64
  length : UInt64
  /-- The mnemonic, then one token for each operand. -/
  tokens : List String
  info : LineInfo
deriving DecidableEq, Repr

namespace Line

/-- The first address after the instruction. -/
def stop (l : Line) : UInt64 := l.address + l.length

/-- For instance `MOV QWORD PTR [RSP+0x8], RAX`. -/
def text (l : Line) : String :=
  match l.tokens with
  | [] => ""
  | [mnemonic] => mnemonic
  | mnemonic :: operands => mnemonic ++ " " ++ ", ".intercalate operands

end Line

end LongMode
