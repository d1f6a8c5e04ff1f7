import LongMode.Proofs.Encoding.Named
import LongMode.Proofs.Execute.Faults
/-!
The words in memory that an instruction can touch: those that it reaches through its operands, the
indexes of a string instruction among them, and those on the stack. An address is worked out where it
is used, so that an instruction that has changed a register can reach another word through the same
operand.
-/

namespace LongMode

structure Element where
  address : UInt64
  width : Width
deriving DecidableEq, Repr

/-- The byte at `x` is one of the word's bytes. -/
def Element.Covers (e : Element) (x : UInt64) : Prop := (x - e.address).toNat < e.width.wordBytes

instance (e : Element) (x : UInt64) : Decidable (e.Covers x) := inferInstanceAs (Decidable (_ < _))

namespace Operand

def elements (o : Operand) (m : Machine) : List Element :=
  match o with
  | memory p => [⟨p.resolve m, p.width⟩]
  | register _ | immediate _ => []

/-- The same in the machine that a first part of the instruction leaves. -/
def elementsAfter (o : Operand) (r : Except Halt Machine) : List Element :=
  match r with
  | .ok n => o.elements n
  | .error _ => []

end Operand

namespace StringOp

def places (op : StringOp) (m : Machine) : List Element :=
  let source : Element := ⟨m.get op.source, op.width⟩
  let destination : Element := ⟨m.get op.destination, op.width⟩
  match op.kind with
  | .move | .compare => [source, destination]
  | .store | .scan => [destination]
  | .load => [source]

/-- What the indexes point to in the next `count` elements of a repetition. -/
def loopPlaces (op : StringOp) (whileEqual : Bool) : Nat → Machine → List Element
  | 0, _ => []
  | count + 1, m => op.places m ++ match op.element m with
    | .error _ => []
    | .ok next =>
      let counted := next.set op.counter (UInt64.ofNat count)
      if op.stops whileEqual counted then [] else op.loopPlaces whileEqual count counted

def elements (op : StringOp) (m : Machine) : List Element :=
  match op.repetition with
  | some .whileEqual => op.loopPlaces true (m.get op.counter).toNat m
  | some .whileUnequal => op.loopPlaces false (m.get op.counter).toNat m
  | some .lock | none => op.places m

end StringOp

namespace Machine

def top (m : Machine) (w : Width) : Element := ⟨m.get .stackPointer, w⟩

def belowTop (m : Machine) (w : Width) : Element := ⟨m.get .stackPointer - UInt64.ofNat w.bytes, w⟩

end Machine

namespace Execute

def bitElements (base offset : Operand) (m : Machine) : List Element :=
  match offset.read m with
  | .ok raw => match (bitPlace base offset raw m).1 with
    | some a => [⟨a, base.width⟩]
    | none => base.elements m
  | .error _ => []

end Execute

namespace Instruction

/-- The words that the instruction can touch through its operands. -/
def elements (i : Instruction) (m : Machine) : List Element :=
  match i with
  | binary _ dst src | test dst src | move dst src | moveExtend _ dst src | moveIf _ dst src
  | bitScan _ dst src | shift _ dst src => dst.elements m ++ src.elements m
  | unary _ target | multiply _ target | divide _ target | setIf _ target | push target
  | jump _ target | call target => target.elements m
  | multiplyInto dst src factor =>
    dst.elements m ++ (src.elements m ++ factor.toList.flatMap (·.elements m))
  | loadAddress dst _ => dst.elements m
  | exchange a b => a.elements m ++ (b.elements m ++
    b.elementsAfter (do let right ← Execute.read b m; Execute.write a right m))
  | exchangeAdd dst src => dst.elements m ++ (src.elements m ++
    dst.elementsAfter (do let a ← Execute.read dst m; Execute.write src a m))
  | pop target => target.elementsAfter (do let s ← orFault (m.pop target.width); return s.2)
  | bitTest _ base offset => offset.elements m ++ Execute.bitElements base offset m
  | string op => op.elements m
  | swapBytes _ | widenAccumulator _ | spreadSign _ | pushFlags _ | popFlags _ | leave _ | ret _
  | flag _ | loadFlags | storeFlags | nop _ => []

/-- The words that the instruction can touch on the stack without naming them. -/
def stackElements (i : Instruction) (m : Machine) : List Element :=
  match i with
  | push source => [m.belowTop source.width]
  | pushFlags w => [m.belowTop w]
  | call _ => [m.belowTop .qword]
  | pop target => [m.top target.width]
  | popFlags w => [m.top w]
  | ret _ => [m.top .qword]
  | leave w => [⟨m.get (.basePointer .qword), w⟩]
  | _ => []

end Instruction

theorem Operand.exists_of_mem_after {o : Operand} {r : Except Halt Machine} {e : Element}
    (h : e ∈ o.elementsAfter r) : ∃ n, e ∈ o.elements n := by
  cases r with
  | ok n => exact ⟨n, h⟩
  | error e => cases h

namespace StringOp

/-- What a repetition comes to is what the indexes point to on the way. -/
theorem exists_of_mem_loop {op : StringOp} {whileEqual : Bool} {count : Nat} {m : Machine}
    {e : Element} (h : e ∈ op.loopPlaces whileEqual count m) : ∃ n, e ∈ op.places n := by
  induction count generalizing m with
  | zero => cases h
  | succ count ih =>
    obtain h | h := List.mem_append.1 h
    · exact ⟨m, h⟩
    · cases hx : op.element m with
      | error f => rw [hx] at h; cases h
      | ok next =>
        rw [hx] at h
        dsimp only at h
        split_ifs at h
        · cases h
        · exact ih h

theorem exists_of_mem_elements {op : StringOp} {m : Machine} {e : Element}
    (h : e ∈ op.elements m) : ∃ n, e ∈ op.places n := by
  unfold elements at h
  split at h
  · exact exists_of_mem_loop h
  · exact exists_of_mem_loop h
  · exact ⟨m, h⟩
  · exact ⟨m, h⟩

end StringOp

namespace Instruction

/-- A word that is touched through an operand is where the operand is in some machine, unless an
index points to it or it holds the tested bit. -/
theorem mem_elements {i : Instruction} {m : Machine} {e : Element} (h : e ∈ i.elements m) :
    (∃ o ∈ i.named, ∃ n, e ∈ o.elements n) ∨ (∃ op n, i = .string op ∧ e ∈ op.places n) ∨
      ∃ op base offset, i = .bitTest op base offset ∧ e ∈ Execute.bitElements base offset m := by
  cases i with
  | binary _ dst src | test dst src | move dst src | moveExtend _ dst src | moveIf _ dst src
  | bitScan _ dst src | shift _ dst src =>
    obtain h | h := List.mem_append.1 h
    · exact .inl ⟨dst, List.mem_cons_self, m, h⟩
    · exact .inl ⟨src, List.mem_cons_of_mem _ List.mem_cons_self, m, h⟩
  | unary _ target | multiply _ target | divide _ target | setIf _ target | push target
  | jump _ target | call target => exact .inl ⟨target, List.mem_cons_self, m, h⟩
  | loadAddress dst src => exact .inl ⟨dst, List.mem_cons_self, m, h⟩
  | pop target =>
    obtain ⟨n, h⟩ := Operand.exists_of_mem_after h
    exact .inl ⟨target, List.mem_cons_self, n, h⟩
  | multiplyInto dst src factor =>
    obtain h | h := List.mem_append.1 h
    · exact .inl ⟨dst, List.mem_cons_self, m, h⟩
    · obtain h | h := List.mem_append.1 h
      · exact .inl ⟨src, List.mem_cons_of_mem _ List.mem_cons_self, m, h⟩
      · obtain ⟨o, ho, h⟩ := List.mem_flatMap.1 h
        exact .inl ⟨o, List.mem_cons_of_mem _ (List.mem_cons_of_mem _ ho), m, h⟩
  | exchange a b =>
    obtain h | h := List.mem_append.1 h
    · exact .inl ⟨a, List.mem_cons_self, m, h⟩
    · obtain h | h := List.mem_append.1 h
      · exact .inl ⟨b, List.mem_cons_of_mem _ List.mem_cons_self, m, h⟩
      · obtain ⟨n, h⟩ := Operand.exists_of_mem_after h
        exact .inl ⟨b, List.mem_cons_of_mem _ List.mem_cons_self, n, h⟩
  | exchangeAdd dst src =>
    obtain h | h := List.mem_append.1 h
    · exact .inl ⟨dst, List.mem_cons_self, m, h⟩
    · obtain h | h := List.mem_append.1 h
      · exact .inl ⟨src, List.mem_cons_of_mem _ List.mem_cons_self, m, h⟩
      · obtain ⟨n, h⟩ := Operand.exists_of_mem_after h
        exact .inl ⟨dst, List.mem_cons_self, n, h⟩
  | bitTest op base offset =>
    obtain h | h := List.mem_append.1 h
    · exact .inl ⟨offset, List.mem_cons_of_mem _ List.mem_cons_self, m, h⟩
    · exact .inr (.inr ⟨op, base, offset, rfl, h⟩)
  | string op =>
    obtain ⟨n, h⟩ := StringOp.exists_of_mem_elements h
    exact .inr (.inl ⟨op, n, rfl, h⟩)
  | _ => cases h

end Instruction

end LongMode
