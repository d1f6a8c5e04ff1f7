import LongMode.Proofs.CommandLine.Column
import LongMode.Proofs.CommandLine.Run
import LongMode.Proofs.Listing.Invariant
import LongMode.Proofs.Memory.Image
/-!
A command line that prints the listing of a program. The lines tile what is decoded, from the first
byte of the program on, and their byte columns show what they tile, as far as it is in the program. An
instruction that the end of the program cuts short is the last one; the column of its line is left
empty, so that the bytes which the program has of it are shown nowhere.
-/

namespace LongMode

namespace Listing

variable {m : Machine} {code : List UInt8} {line : Line}

theorem entry_ofCode (code : List UInt8) : (Machine.ofCode code).memory.entry = loadAddress :=
  (Memory.Placed.load loadAddress code).entry

theorem codeEnd_ofCode (code : List UInt8) :
    (Machine.ofCode code).memory.codeEnd = loadAddress + UInt64.ofNat code.length :=
  (Memory.entry_write _ loadAddress code).2.1

theorem lenient_ofCode (code : List UInt8) : (Machine.ofCode code).memory.strict = false :=
  (Memory.entry_write _ loadAddress code).2.2

theorem toNat_codeEnd_ofCode (hsize : code.length < 2 ^ 63) :
    (Machine.ofCode code).memory.codeEnd.toNat = loadAddress.toNat + code.length := by
  have hload : loadAddress.toNat = 0x1000 := rfl
  rw [codeEnd_ofCode, Memory.toNat_stop (by omega)]

/-- Behind a program that a host can hold stands a zero, at which every encoding has ended. -/
theorem straight_ofCode (hsize : code.length < 2 ^ 63) : Straight (.ofCode code) := by
  have hload : loadAddress.toNat = 0x1000 := rfl
  have hend := toNat_codeEnd_ofCode hsize
  refine straight_of_stop (UInt64.le_refl _) (by omega) fun byte h => ?_
  have hoffset : ((Machine.ofCode code).memory.codeEnd - loadAddress).toNat = code.length := by
    rw [UInt64.toNat_sub_of_le _ _ (UInt64.le_iff_toNat_le.2 (by omega))]
    omega
  have hzero : (Machine.ofCode code).memory.peek (Machine.ofCode code).memory.codeEnd = 0 := by
    refine (Memory.peek_write _ loadAddress _ code (by omega)).trans ?_
    rw [hoffset, List.getElem?_eq_none le_rfl]
    rfl
  rw [← Memory.peek_of_readByte h, hzero]
  rfl

/-- The lines of a listing from scratch tile what was decoded. -/
theorem tiles_ofMachine (hs : Straight m) :
    Tiles m.memory.entry ((ofMachine m).lines.toList.map Prod.snd) (stopAt m) := by
  have htiled : Tiled (ofMachine m).lines m.memory.entry (stopAt m) :=
    .of_reaches hs (reaches_stopAt hs) fun c line _ _ => ofMachine_getElem? hs
  refine htiled.tiles (fun c line hc => ?_) fun c line hc => ?_
  · exact address_of_decode? ((ofMachine_getElem? hs).1 hc).2
  · obtain ⟨hreaches, hd⟩ := (ofMachine_getElem? hs).1 hc
    exact ⟨hreaches.le hs, lt_stopAt hs hreaches hd⟩

theorem decode?_of_mem_ofMachine (hs : Straight m)
    (hmem : line ∈ (ofMachine m).lines.toList.map Prod.snd) :
    decode? m line.address = some line := by
  obtain ⟨⟨c, other⟩, hentry, rfl⟩ := List.mem_map.1 hmem
  have hd := ((ofMachine_getElem? hs).1 (Std.ExtTreeMap.mem_toList_iff_getElem?_eq_some.1 hentry)).2
  rw [address_of_decode? hd]
  exact hd

theorem codeEnd_le_stopAt (hlenient : m.memory.strict = false) (hs : Straight m) :
    m.memory.codeEnd ≤ stopAt m :=
  codeEnd_le_of_none hlenient ((reaches_stopAt hs).le hs) (decode?_stopAt hs)

end Listing

namespace CommandLine

open Listing Program

variable {code : List UInt8}

def EndsWhole (code : List UInt8) : Prop :=
  stopAt (.ofCode code) = (Machine.ofCode code).memory.codeEnd

/-- The program is cut short in the instruction at this offset, which is the last one. The lines in
front of it show what is in front of it, and no byte of it is shown. -/
structure CutAt (code : List UInt8) (printed : List String) (offset : Nat) : Prop where
  lt : offset < code.length
  passes : ∃ line, decode? (.ofCode code) (loadAddress + UInt64.ofNat offset) = some line ∧
    code.length < offset + line.length.toNat
  columns : ∃ front last, printed = front ++ [last] ∧
    front.flatMap byteColumn = code.take offset ∧ byteColumn last = []

/-- What the byte columns of the printed lines show of a program. -/
structure Columns (code : List UInt8) (printed : List String) : Prop where
  complete_iff : printed.flatMap byteColumn = code ↔ EndsWhole code
  cut : ¬ EndsWhole code → ∃ offset, CutAt code printed offset

theorem map_byteColumn_listingLines (hsize : code.length < 2 ^ 63) :
    (listingLines code (ofMachine (.ofCode code)).lines).map byteColumn =
      ((ofMachine (.ofCode code)).lines.toList.map Prod.snd).map (lineBytes code loadAddress) := by
  unfold listingLines Lines.shown
  dsimp only
  rw [entry_ofCode, List.map_map, List.map_map, List.map_map]
  refine List.map_congr_left fun entry hentry => ?_
  have hd := decode?_of_mem_ofMachine (straight_ofCode hsize) (List.mem_map_of_mem hentry)
  obtain ⟨-, l, -, hl⟩ := located_of_decode? hd
  obtain ⟨word, rest, htext, hword⟩ := (Machine.ofCode code).lineFor_word l
  rw [← hl] at htext
  dsimp only [Function.comp]
  -- the mark of the instruction pointer is not in the text
  split_ifs
  · exact byteColumn_lineText code loadAddress htext hword
  · exact byteColumn_lineText code loadAddress htext hword

theorem flatMap_byteColumn_of_endsWhole (hsize : code.length < 2 ^ 63) (h : EndsWhole code) :
    (listingLines code (ofMachine (.ofCode code)).lines).flatMap byteColumn = code := by
  have hend := toNat_codeEnd_ofCode hsize
  have htiles := tiles_ofMachine (straight_ofCode hsize)
  rw [entry_ofCode, h] at htiles
  have hshown := take_append_lineBytes htiles (UInt64.le_refl loadAddress) hend.le
  rw [Nat.sub_self, List.take_zero, List.nil_append, hend, Nat.add_sub_cancel_left,
    List.take_length] at hshown
  rw [List.flatMap_def, map_byteColumn_listingLines hsize, ← List.flatMap_def]
  exact hshown

/-- A program that is cut short has a last line, which begins in the program and passes its end. -/
theorem exists_last_of_not_endsWhole (hsize : code.length < 2 ^ 63) (h : ¬ EndsWhole code) :
    ∃ front last, (ofMachine (.ofCode code)).lines.toList.map Prod.snd = front ++ [last] ∧
      Tiles loadAddress front last.address ∧ decode? (.ofCode code) last.address = some last ∧
      last.address.toNat < loadAddress.toNat + code.length ∧
      loadAddress.toNat + code.length < last.stop.toNat := by
  have hs := straight_ofCode hsize
  have hend := toNat_codeEnd_ofCode hsize
  have hpast : (Machine.ofCode code).memory.codeEnd < stopAt (.ofCode code) :=
    UInt64.lt_of_le_of_ne (codeEnd_le_stopAt (lenient_ofCode code) hs) (Ne.symm h)
  have hload : loadAddress ≤ (Machine.ofCode code).memory.codeEnd :=
    UInt64.le_iff_toNat_le.2 (by omega)
  have htiles := tiles_ofMachine hs
  rw [entry_ofCode] at htiles
  obtain ⟨front, last, hlines, hfront, hstop⟩ :=
    htiles.exists_concat (UInt64.lt_of_le_of_lt hload hpast)
  have hd : decode? (.ofCode code) last.address = some last := by
    apply decode?_of_mem_ofMachine hs
    rw [hlines]
    exact List.mem_concat_self
  refine ⟨front, last, hlines, hfront, hd, ?_, ?_⟩
  · rw [← hend]
    exact UInt64.lt_iff_toNat_lt.1 (lt_codeEnd_of_inCode (inCode_of_decode? hd))
  · rw [← hend, hstop]
    exact UInt64.lt_iff_toNat_lt.1 hpast

theorem cutAt_of_not_endsWhole (hsize : code.length < 2 ^ 63) (h : ¬ EndsWhole code) :
    ∃ offset, CutAt code (listingLines code (ofMachine (.ofCode code)).lines) offset := by
  obtain ⟨front, last, hlines, hfront, hd, hin, hpast⟩ := exists_last_of_not_endsWhole hsize h
  have hstart := UInt64.le_iff_toNat_le.1 hfront.le
  have hlt : last.address < last.stop := UInt64.lt_iff_toNat_lt.2 (by omega)
  have hstop := toNat_length_of_lt hlt
  have hroom := last.address.toNat_lt
  have hoffset : loadAddress + UInt64.ofNat (last.address.toNat - loadAddress.toNat) =
      last.address := by
    apply UInt64.toNat_inj.1
    rw [Memory.toNat_stop (by omega)]
    omega
  have hcolumns := map_byteColumn_listingLines hsize
  rw [hlines, List.map_append, List.map_eq_append_iff] at hcolumns
  obtain ⟨frontTexts, lastTexts, hprinted, hshown, hlast⟩ := hcolumns
  obtain ⟨lastText, rfl, hcolumn⟩ := List.map_eq_singleton_iff.1 hlast
  refine ⟨last.address.toNat - loadAddress.toNat, by omega, ⟨last, ?_, by omega⟩,
    frontTexts, lastText, hprinted, ?_, ?_⟩
  · rw [hoffset]
    exact hd
  · have hpart := take_append_lineBytes hfront (UInt64.le_refl loadAddress) hin.le
    rw [Nat.sub_self, List.take_zero, List.nil_append] at hpart
    rw [List.flatMap_def, hshown, ← List.flatMap_def]
    exact hpart
  · rw [hcolumn]
    exact lineBytes_of_lt hlt hfront.le hpast

/-- What is shown of a program that is cut short is shorter than the program. -/
theorem CutAt.incomplete {printed : List String} {offset : Nat} (h : CutAt code printed offset) :
    printed.flatMap byteColumn ≠ code := by
  obtain ⟨front, last, hprinted, hfront, hlast⟩ := h.columns
  have hlt := h.lt
  intro hall
  rw [hprinted, List.flatMap_append, hfront, List.flatMap_singleton, hlast, List.append_nil] at hall
  have hlength := congrArg List.length hall
  rw [List.length_take] at hlength
  omega

theorem columns_listingLines (hsize : code.length < 2 ^ 63) :
    Columns code (listingLines code (ofMachine (.ofCode code)).lines) := by
  refine ⟨⟨fun hall => ?_, flatMap_byteColumn_of_endsWhole hsize⟩, cutAt_of_not_endsWhole hsize⟩
  by_contra h
  obtain ⟨offset, hcut⟩ := cutAt_of_not_endsWhole hsize h
  exact hcut.incomplete hall

theorem Program.disassemble_yields {w : World} {files : Files} {lines : List String} {file : String}
    {hex : Bool} (hw : w.Still files lines) (hcode : (loadProgram file hex).answer files = .ok code) :
    (disassemble file hex).Yields w () (·.Still files
      (lines ++ listingLines code (ofMachine (.ofCode code)).lines)) := by
  unfold disassemble
  apply Yields.after ((loadProgram_reads file hex).run hcode hw.files)
  obtain ⟨d, after, hrun, hlines⟩ := Disassembler.ofMachine_run w.host (.ofCode code)
  rw [← hlines]
  apply (hw.engine hrun).bind
  intro w hw
  exact ⟨_, printAll_run _ w, hw.1.printed _⟩

/-- A command line that prints the listing of a program, where everything that it names can be read.
The log goes to no file. -/
structure DisasmLine (defaultFile : String) (args : List String) (files : Files) where
  config : Option String
  logLevel : Option String
  logCpu : Option String
  file : String
  hex : Bool
  asked : Request.ofArguments args = .ok
    { config, logLevel, logCpu, logFile := none, command := .disasm file hex }
  settings : Preferences
  found : (preferences (config.getD defaultFile)).answer files = .ok settings
  general : ∃ l, Level.ofText? (logLevel.getD settings.logLevel) = some l
  own : ∀ text, logCpu = some text → ∃ l, Level.ofText? text = some l
  code : List UInt8
  program : (loadProgram file hex).answer files = .ok code

namespace DisasmLine

variable {defaultFile : String} {args : List String} {files : Files}

def printed (c : DisasmLine defaultFile args files) : List String :=
  listingLines c.code (ofMachine (.ofCode c.code)).lines

theorem outcome_disasm (c : DisasmLine defaultFile args files) :
    (outcome defaultFile args files).exit = 0 ∧
    (outcome defaultFile args files).output =
      String.join (c.printed.flatMap fun line => [line, "\n"]) ∧
    (outcome defaultFile args files).files = files := by
  refine outcome_of_yields c.asked ?_
  have hw : ({ files } : World).Still files [] := ⟨rfl, rfl, rfl⟩
  unfold serve
  refine configured_yields (r := ⟨c.config, c.logLevel, c.logCpu, none, .disasm c.file c.hex⟩)
    hw c.found rfl c.general c.own ?_
  intro w hw
  have hprints := disassemble_yields hw c.program
  rw [List.nil_append] at hprints
  exact hprints

/-- The printed listing shows every byte of the program exactly if the last instruction ends where the
program does. Otherwise the bytes of the last instruction are not shown. -/
theorem columns_complete_iff (c : DisasmLine defaultFile args files)
    (hsize : c.code.length < 2 ^ 63) :
    ((outcome defaultFile args files).exit = 0 ∧
      (outcome defaultFile args files).output =
        String.join (c.printed.flatMap fun line => [line, "\n"]) ∧
      (outcome defaultFile args files).files = files) ∧
    Columns c.code c.printed :=
  ⟨c.outcome_disasm, columns_listingLines hsize⟩

/-- `NOP`, and a `MOV` of a doubleword that has only the first byte of it. -/
def cutFiles : Files := ⟨[(⟨.above 0, ["p.bin"]⟩, .file [0x90, 0xB8, 0x01])]⟩

theorem exists_usual_level :
    ∃ l, Level.ofText? ((none : Option String).getD ({} : Preferences).logLevel) = some l :=
  ⟨.off, by rfl⟩

theorem exists_level_of_none :
    ∀ text, (none : Option String) = some text → ∃ l, Level.ofText? text = some l := by
  intro text h
  cases h

def cutLine : DisasmLine "x64emu.json" ["disasm", "p.bin"] cutFiles where
  config := none
  logLevel := none
  logCpu := none
  file := "p.bin"
  hex := false
  asked := by rfl
  settings := {}
  found := by decide +kernel
  general := exists_usual_level
  own := exists_level_of_none
  code := [0x90, 0xB8, 0x01]
  program := by decide +kernel

/-- The `MOV` is listed, and the two bytes that there are of it are not. -/
theorem cutLine_columns : cutLine.code.length < 2 ^ 63 ∧
    (outcome "x64emu.json" ["disasm", "p.bin"] cutFiles).output =
      "00001000: 90                             NOP\n" ++
      "00001001:                                MOV EAX, 0x1\n" ∧
    cutLine.printed.flatMap byteColumn = [0x90] ∧ ¬ EndsWhole cutLine.code ∧
    cutLine.printed.flatMap byteColumn ≠ cutLine.code := by
  have hsize : cutLine.code.length < 2 ^ 63 := by decide
  obtain ⟨⟨-, houtput, -⟩, hcolumns⟩ := cutLine.columns_complete_iff hsize
  have hprinted : cutLine.printed = ["00001000: 90                             NOP",
      "00001001:                                MOV EAX, 0x1"] := by decide +kernel
  have hcut : ¬ EndsWhole cutLine.code := by
    unfold EndsWhole
    decide +kernel
  refine ⟨hsize, ?_, ?_, hcut, mt hcolumns.complete_iff.1 hcut⟩
  · rw [houtput, hprinted]
    rfl
  · rw [hprinted]
    decide +kernel

end DisasmLine

end CommandLine

end LongMode
