import LongMode.Proofs.Execute.Elements
import LongMode.Proofs.Memory.BitString
/-!
Words in memory that is not strict, where every byte can be read. A word that has been written
stands there until another one is written over one of its bytes.
-/

namespace LongMode

def Element.Apart (e f : Element) : Prop := ∀ x, e.Covers x → ¬ f.Covers x

/-- Neither word starts inside the other one. -/
theorem Element.apart_iff (e f : Element) :
    e.Apart f ↔ ¬ e.Covers f.address ∧ ¬ f.Covers e.address := by
  have hpos (w : Width) : 0 < w.wordBytes := by cases w <;> decide
  constructor
  · intro h
    refine ⟨fun hx => h _ hx ?_, fun hx => h _ ?_ hx⟩
    · simpa [Covers] using hpos f.width
    · simpa [Covers] using hpos e.width
  · rintro ⟨he, hf⟩ x hxe hxf
    have hwe := Memory.wordBytes_le e.width
    have hwf := Memory.wordBytes_le f.width
    have hx := x.toNat_lt
    have hea := e.address.toNat_lt
    have hfa := f.address.toNat_lt
    simp only [Covers, UInt64.toNat_sub] at he hf hxe hxf
    omega

instance (e f : Element) : Decidable (e.Apart f) := decidable_of_iff _ (e.apart_iff f).symm

def Element.bytes (e : Element) (m : Memory) : List UInt8 := m.dump e.address e.width.wordBytes

def Element.value (e : Element) (m : Memory) : UInt64 := LittleEndian.toWord (e.bytes m)

namespace Memory

variable {m n : Memory} {a x : UInt64} {e : Element} {bytes : List UInt8}

theorem readWord_of_lenient (hm : m.strict = false) (a : UInt64) (w : Width) :
    m.readWord a w = .ok (Element.value ⟨a, w⟩ m) := by
  unfold readWord
  rw [read_of_lenient hm]
  rfl

theorem value_lt (e : Element) (m : Memory) : (e.value m).toNat < e.width.modulus := by
  have hlength : (e.bytes m).length = e.width.wordBytes := length_dump m _ _
  have hle := wordBytes_le e.width
  unfold Width.modulus Width.wordBits
  by_cases h8 : e.width.wordBytes = 8
  · rw [h8]
    exact UInt64.toNat_lt _
  · rw [← hlength]
    exact LittleEndian.toWord_lt _ (by omega)

/-- A word is stored as its bytes. -/
theorem ofWord_value (e : Element) (m : Memory) :
    LittleEndian.ofWord e.width.wordBytes (e.value m) = e.bytes m := by
  have hlength : (e.bytes m).length = e.width.wordBytes := length_dump m _ _
  have h := LittleEndian.ofWord_toWord (e.bytes m) (hlength ▸ wordBytes_le e.width)
  rwa [hlength] at h

def Stores (m : Memory) (a : UInt64) (bytes : List UInt8) : Prop :=
  ∀ j b, bytes[j]? = some b → m.cells[a + UInt64.ofNat j]? = some b

theorem stores_write (m : Memory) (a : UInt64) (h : bytes.length ≤ 2 ^ 64) :
    (m.write a bytes).Stores a bytes := by
  intro j b hb
  have hj := (List.getElem?_eq_some_iff.1 hb).1
  rw [getElem?_cells_write m _ _ h, toNat_offset (by omega), hb]
  rfl

/-- A byte that no byte is written over stays. -/
theorem getElem?_cells_of_not_covers (hlength : bytes.length = e.width.wordBytes)
    (h : ¬ e.Covers x) (m : Memory) : (m.write e.address bytes).cells[x]? = m.cells[x]? := by
  have hw := wordBytes_le e.width
  have hx : bytes.length ≤ (x - e.address).toNat := hlength ▸ not_lt.1 h
  rw [getElem?_cells_write m _ _ (by omega), List.getElem?_eq_none hx]
  rfl

theorem covers_add {j : Nat} (hj : j < e.width.wordBytes) :
    e.Covers (e.address + UInt64.ofNat j) := by
  have hw := wordBytes_le e.width
  unfold Element.Covers
  rw [toNat_offset (by omega)]
  exact hj

theorem Stores.congr (h : m.Stores e.address bytes) (hlength : bytes.length = e.width.wordBytes)
    (hn : ∀ x, e.Covers x → n.cells[x]? = m.cells[x]?) : n.Stores e.address bytes := by
  intro j b hb
  have hj := (List.getElem?_eq_some_iff.1 hb).1
  rw [hn _ (covers_add (hlength ▸ hj)), h j b hb]

theorem bytes_congr (h : ∀ x, e.Covers x → n.cells[x]? = m.cells[x]?) : e.bytes n = e.bytes m := by
  refine List.ext_getElem? fun j => ?_
  unfold Element.bytes
  by_cases hj : j < e.width.wordBytes
  · rw [getElem?_dump n _ hj, getElem?_dump m _ hj]
    unfold peek
    rw [h _ (covers_add hj)]
  · rw [List.getElem?_eq_none (by rw [length_dump]; omega),
      List.getElem?_eq_none (by rw [length_dump]; omega)]

/-- What is stored is read. -/
theorem Stores.dump (h : m.Stores a bytes) : m.dump a bytes.length = bytes := by
  refine List.ext_getElem? fun j => ?_
  by_cases hj : j < bytes.length
  · rw [getElem?_dump m a hj, List.getElem?_eq_getElem hj]
    unfold peek
    rw [h j _ (List.getElem?_eq_getElem hj)]
    rfl
  · rw [List.getElem?_eq_none (by rw [length_dump]; omega), List.getElem?_eq_none (by omega)]

end Memory

end LongMode
