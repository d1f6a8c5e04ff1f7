import LongMode.Instruction.Basic
/-!
Instructions as tokens: the mnemonic, then one token for each operand.
-/

namespace LongMode

/-- The mnemonic with its repeat prefix, for instance `REP STOSB`. -/
def StringOp.mnemonic (op : StringOp) : String :=
  let lead := match op.repetition with
    | some .whileEqual => if op.kind.compares then "REPZ " else "REP "
    | some .whileUnequal => "REPNZ "
    | some .lock => "LOCK "
    | none => ""
  let suffix := match op.width with
    | .byte => "B"
    | .word => "W"
    | .dword => "D"
    | _ => "Q"
  lead ++ op.kind.mnemonic ++ suffix

namespace Instruction

def tokens : Instruction → List String
  | binary op dst src => [op.mnemonic, dst.text, src.text]
  | test dst src => ["TEST", dst.text, src.text]
  | unary op target => [op.mnemonic, target.text]
  | multiply signed source => [if signed then "IMUL" else "MUL", source.text]
  | divide signed source => [if signed then "IDIV" else "DIV", source.text]
  | multiplyInto dst src factor =>
    "IMUL" :: dst.text :: src.text :: (factor.map Operand.text).toList
  | move dst src => ["MOV", dst.text, src.text]
  | moveExtend signed dst src =>
    let mnemonic :=
      if signed then (if src.width = .dword then "MOVSXD" else "MOVSX") else "MOVZX"
    [mnemonic, dst.text, src.text]
  | loadAddress dst src => ["LEA", dst.text, src.expression]
  | exchange a b => ["XCHG", a.text, b.text]
  | exchangeAdd dst src => ["XADD", dst.text, src.text]
  | moveIf cond dst src => ["CMOV" ++ cond.suffix, dst.text, src.text]
  | setIf cond dst => ["SET" ++ cond.suffix, dst.text]
  | swapBytes target => ["BSWAP", target.mnemonic]
  | widenAccumulator .word => ["CBW"]
  | widenAccumulator .dword => ["CWDE"]
  | widenAccumulator _ => ["CDQE"]
  | spreadSign .word => ["CWD"]
  | spreadSign .dword => ["CDQ"]
  | spreadSign _ => ["CQO"]
  | push source => ["PUSH", source.text]
  | pop target => ["POP", target.text]
  | pushFlags w => [if w = .word then "PUSHF" else "PUSHFQ"]
  | popFlags w => [if w = .word then "POPF" else "POPFQ"]
  | leave _ => ["LEAVE"]
  | jump cond target => [if cond = .always then "JMP" else "J" ++ cond.suffix, target.text]
  | call target => ["CALL", target.text]
  | ret release => "RET" :: (if release = 0 then [] else [Digits.prefixedUpperHex release.toNat])
  | shift op target count => [op.mnemonic, target.text, count.text]
  | bitTest op base offset => [op.mnemonic, base.text, offset.text]
  | bitScan reverse dst src => [if reverse then "BSR" else "BSF", dst.text, src.text]
  | flag op => [op.mnemonic]
  | loadFlags => ["SAHF"]
  | storeFlags => ["LAHF"]
  | string op => [op.mnemonic]
  | nop operand => "NOP" :: (operand.map Operand.text).toList

end Instruction

end LongMode
