import LongMode.Json.Record
import LongMode.Line
/-!
Lines of a listing as JSON.
-/

namespace LongMode

def LineInfo.toJson (i : LineInfo) : Json := .number i.bits.toNat

namespace Line

def toJson (l : Line) : Json :=
  .object
    [("address", .number l.address.toNat), ("length", .number l.length.toNat),
      ("tokens", Json.ofList .text l.tokens), ("info", l.info.toJson)]

structure Draft where
  address : Option UInt64 := none
  length : Option UInt64 := none
  tokens : Option (List String) := none
  info : Option LineInfo := none

def fields : List (Json.Field Draft) :=
  [.of "address" Draft.address (fun s v => { s with address := v }) Json.Reader.word,
    .of "length" Draft.length (fun s v => { s with length := v }) Json.Reader.word,
    .of "tokens" Draft.tokens (fun s v => { s with tokens := v })
      (Json.Reader.list Json.Reader.text),
    .of "info" Draft.info (fun s v => { s with info := v })
      fun d => (Json.Reader.byte d).map LineInfo.mk]

def reader : Json.Reader Line := fun d => do
  let s ← Json.Reader.record .malformed fields {} d
  let address ← Json.Reader.required s.address
  let length ← Json.Reader.required s.length
  let tokens ← Json.Reader.required s.tokens
  let info ← Json.Reader.required s.info
  return { address, length, tokens, info }

def ofText (text : String) : Except Json.Refusal Line := Json.Document.readText reader text.toList

end Line

end LongMode
