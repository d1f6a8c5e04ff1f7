import LongMode.Register.Basic
import LongMode.Text.Numeral
/-!
Register names: what a register is called, and which register a name stands for.
-/

namespace LongMode.Register

def qwordNames : Vector String 16 :=
  #v["RAX", "RCX", "RDX", "RBX", "RSP", "RBP", "RSI", "RDI",
    "R8", "R9", "R10", "R11", "R12", "R13", "R14", "R15"]

def dwordNames : Vector String 16 :=
  #v["EAX", "ECX", "EDX", "EBX", "ESP", "EBP", "ESI", "EDI",
    "R8D", "R9D", "R10D", "R11D", "R12D", "R13D", "R14D", "R15D"]

def wordNames : Vector String 16 :=
  #v["AX", "CX", "DX", "BX", "SP", "BP", "SI", "DI",
    "R8W", "R9W", "R10W", "R11W", "R12W", "R13W", "R14W", "R15W"]

def byteNames : Vector String 16 :=
  #v["AL", "CL", "DL", "BL", "SPL", "BPL", "SIL", "DIL",
    "R8B", "R9B", "R10B", "R11B", "R12B", "R13B", "R14B", "R15B"]

def highNames : Vector String 4 := #v["AH", "CH", "DH", "BH"]

def mnemonic (r : Register) : String :=
  match r.bank with
  | .general =>
    if r.isHighByte then highNames[r.code.val - 4]?.getD ""
    else match r.width with
      | .byte => byteNames.get r.code
      | .word => wordNames.get r.code
      | .dword => dwordNames.get r.code
      | _ => qwordNames.get r.code
  | .mmx => "MM" ++ toString r.code.val
  | .sse => (if r.width = .ymm then "YMM" else "XMM") ++ toString r.code.val

def indexIn? {n : Nat} (names : Vector String n) (name : String) : Option (Fin n) :=
  names.finIdxOf? name

def number? (letters name : List Char) : Option Nat :=
  if letters.isPrefixOf name then Digits.read? 10 256 (name.drop letters.length) else none

/-- The register that a name stands for, in either case and with blanks around it. -/
def ofName? (name : String) : Option Register :=
  let cs := Text.upper (Text.trim name.toList)
  let key := String.ofList cs
  let named {n : Nat} (names : Vector String n) (make : Fin n → Register) : Option Register :=
    (indexIn? names key).map make
  let numbered (letters : List Char) (bank : Bank) (width : Width) : Option Register :=
    (number? letters cs).bind fun n => (ofCode bank n width true).toOption
  named highNames (fun i => ⟨.general, ⟨i + 4, by omega⟩, .byte, false⟩)
    <|> named byteNames (fun i => ⟨.general, i, .byte, 4 ≤ i.val⟩)
    <|> named wordNames (general · .word)
    <|> named dwordNames (general · .dword)
    <|> named qwordNames (general · .qword)
    <|> numbered ['Y', 'M', 'M'] .sse .ymm
    <|> numbered ['X', 'M', 'M'] .sse .xmm
    <|> numbered ['M', 'M'] .mmx .qword

/-- The register overwritten by exactly as many bytes as it is wide. -/
def setBytes (r : Register) (f : RegisterFile) (bytes : List UInt8) : Except Misuse RegisterFile :=
  if bytes.length ≠ r.width.bytes then .error (.registerBytes r.mnemonic bytes.length)
  else match r.bank with
    | .sse => f.writeVector r.code bytes
    | _ =>
      if bytes.length ≤ 8 then .ok (r.set f (LittleEndian.toWord bytes)) else .error .outOfRange

end LongMode.Register
