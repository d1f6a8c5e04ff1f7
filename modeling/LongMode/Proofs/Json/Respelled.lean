import LongMode.Json.Record
import LongMode.Proofs.Json.Requoted
/-!
Words spelled as numbers and as texts. A description says where in a document words are read; whoever
reads them there finds the same, however they are spelled.
-/

namespace LongMode.Json

inductive Places where
  | word
  | nowhere
  /-- In every item of an array. -/
  | items (each : Places)
  /-- In every member of an object. -/
  | members (each : Places)
  /-- In the fields of a record, whether it is written as an object or as an array. -/
  | fields (known : List (String × Places))

/-- In one of the places a number becomes a text. -/
inductive Respells (n : Nat) (s : String) : Places → Document → Document → Prop
  | word : Respells n s .word (.number (.natural n)) (.text s)
  | item {each : Places} {d e : Document} (h : Respells n s each d e) (left right : List Document)
    (closing : Option Flaw) : Respells n s (.items each) (.array (left ++ d :: right) closing)
      (.array (left ++ e :: right) closing)
  | member {each : Places} {d e : Document} (h : Respells n s each d e)
    (name : Except Refusal String) (left right : List (Except Refusal String × Document))
    (closing : Option Flaw) :
    Respells n s (.members each) (.object (left ++ (name, d) :: right) closing)
      (.object (left ++ (name, e) :: right) closing)
  | named {known : List (String × Places)} {name : String} {p : Places} {d e : Document}
    (hp : known.lookup name = some p) (h : Respells n s p d e)
    (left right : List (Except Refusal String × Document)) (closing : Option Flaw) :
    Respells n s (.fields known) (.object (left ++ (.ok name, d) :: right) closing)
      (.object (left ++ (.ok name, e) :: right) closing)
  | placed {known : List (String × Places)} {name : String} {p : Places} {d e : Document}
    {left : List Document} (hp : known[left.length]? = some (name, p)) (h : Respells n s p d e)
    (right : List Document) (closing : Option Flaw) :
    Respells n s (.fields known) (.array (left ++ d :: right) closing)
      (.array (left ++ e :: right) closing)

theorem QuotesItems.insert {n : Nat} {s : String} {k : Nat} {d e : Document}
    (h : Quotes n s k d e) (left right : List Document) :
    QuotesItems n s k (left ++ d :: right) (left ++ e :: right) := by
  induction left with
  | nil => exact .cons h (.refl right)
  | cons c left ih => exact Nat.zero_add k ▸ QuotesItems.cons (.same c) ih

theorem QuotesMembers.insert {n : Nat} {s : String} {k : Nat} {d e : Document}
    (h : Quotes n s k d e) (name : Except Refusal String)
    (left right : List (Except Refusal String × Document)) :
    QuotesMembers n s k (left ++ (name, d) :: right) (left ++ (name, e) :: right) := by
  induction left with
  | nil => exact .cons name h (.refl right)
  | cons m left ih => exact Nat.zero_add k ▸ QuotesMembers.cons m.1 (.same m.2) ih

/-- It is one number that becomes a text. -/
theorem Respells.quotes {n : Nat} {s : String} {p : Places} {d e : Document}
    (h : Respells n s p d e) : Quotes n s 1 d e := by
  induction h with
  | word => exact .number
  | item _ left right closing ih => exact .array (.insert ih left right) closing
  | member _ name left right closing ih => exact .object (.insert ih name left right) closing
  | named _ _ left right closing ih => exact .object (.insert ih _ left right) closing
  | placed _ _ right closing ih => exact .array (.insert ih _ right) closing

namespace Reader

variable {α : Type} {p : Places}

/-- The reader finds the same in a number and in a text that stands for it, wherever it is one of the
places. -/
def Agrees (p : Places) (reader : Reader α) : Prop :=
  ∀ (v : UInt64) (s : String) (d e : Document), Numeral.readWord s.toList = .ok v →
    Respells v.toNat s p d e → reader d = reader e

theorem nowhere_agrees (reader : Reader α) : reader.Agrees .nowhere :=
  fun _ _ _ _ _ h => nomatch h

theorem list_agrees {reader : Reader α} (h : reader.Agrees p) : (list reader).Agrees (.items p) := by
  intro v s d e hv hde
  cases hde with
  | @item _ d e hde left right closing =>
    have heach : each reader (left ++ d :: right) = each reader (left ++ e :: right) := by
      induction left with
      | nil => rw [List.nil_append, List.nil_append, each, each, h v s d e hv hde]
      | cons c left ih => rw [List.cons_append, List.cons_append, each, each, ih]
    rw [list, list, heach]

theorem members_agrees {reader : Reader α} (h : reader.Agrees p) :
    (members reader).Agrees (.members p) := by
  intro v s d e hv hde
  cases hde with
  | @member _ d e hde name left right closing =>
    have heach : eachNamed reader (left ++ (name, d) :: right) =
        eachNamed reader (left ++ (name, e) :: right) := by
      induction left with
      | nil => rw [List.nil_append, List.nil_append, eachNamed, eachNamed, h v s d e hv hde]
      | cons m left ih =>
        obtain ⟨k, c⟩ := m
        rw [List.cons_append, List.cons_append, eachNamed, eachNamed, ih]
    rw [members, members, heach]

theorem map_agrees {β : Type} {reader : Reader α} (h : reader.Agrees p) (f : α → β) :
    Agrees p fun d => (reader d).map f := by
  intro v s d e hv hde
  dsimp only
  rw [h v s d e hv hde]

/-- The field looks for words in the places that are known for its name. -/
structure Minds {σ : Type} (k : String × Places) (f : Field σ) : Prop where
  name : f.name = k.1
  agrees : ∀ s, (f.fill s).Agrees k.2

theorem Minds.of {σ : Type} {name : String} {get : σ → Option α} {set : σ → α → σ}
    {reader : Reader α} (h : reader.Agrees p) : Minds (name, p) (.of name get set reader) :=
  ⟨rfl, fun s => map_agrees h (set s)⟩

section Fields

variable {σ : Type} {known : List (String × Places)} {fields : List (Field σ)} {surplus : Refusal}
  {v : UInt64} {text : String} {d e : Document}

theorem find?_of_lookup (h : List.Forall₂ Minds known fields) {name : String}
    (hp : known.lookup name = some p) :
    ∃ f, fields.find? (·.name == name) = some f ∧ ∀ s, (f.fill s).Agrees p := by
  induction h with
  | nil => cases hp
  | @cons k f known fields hkf _ ih =>
    obtain ⟨k, q⟩ := k
    rw [List.lookup_cons] at hp
    rw [List.find?_cons, hkf.name]
    by_cases hname : name = k
    · subst hname
      simp only [beq_self_eq_true, Option.some.injEq] at hp ⊢
      exact ⟨f, rfl, hp ▸ hkf.agrees⟩
    · simp only [beq_eq_false_iff_ne.2 hname, beq_eq_false_iff_ne.2 (Ne.symm hname)] at hp ⊢
      exact ih hp

theorem fillNamed_agrees (h : List.Forall₂ Minds known fields) {name : String}
    (hp : known.lookup name = some p) (hv : Numeral.readWord text.toList = .ok v)
    (hde : Respells v.toNat text p d e) (s : σ)
    (left right : List (Except Refusal String × Document)) :
    fillNamed fields s (left ++ (.ok name, d) :: right) =
      fillNamed fields s (left ++ (.ok name, e) :: right) := by
  induction left generalizing s with
  | nil =>
    obtain ⟨f, hf, hagrees⟩ := find?_of_lookup h hp
    rw [List.nil_append, List.nil_append, fillNamed, fillNamed]
    simp only [ok_bind, hf, hagrees s v text d e hv hde]
  | cons m left ih =>
    obtain ⟨k, c⟩ := m
    rw [List.cons_append, List.cons_append, fillNamed, fillNamed]
    simp only [ih]

theorem fillInOrder_agrees (h : List.Forall₂ Minds known fields) {name : String}
    {left : List Document} (hp : known[left.length]? = some (name, p))
    (hv : Numeral.readWord text.toList = .ok v) (hde : Respells v.toNat text p d e) (s : σ)
    (right : List Document) :
    fillInOrder surplus fields s (left ++ d :: right) =
      fillInOrder surplus fields s (left ++ e :: right) := by
  induction left generalizing known fields s with
  | nil =>
    cases h with
    | nil => cases hp
    | cons hkf hrest =>
      cases hp
      rw [List.nil_append, List.nil_append, fillInOrder, fillInOrder, hkf.agrees s v text d e hv hde]
  | cons c left ih =>
    cases h with
    | nil => cases hp
    | cons hkf hrest =>
      rw [List.cons_append, List.cons_append, fillInOrder, fillInOrder]
      simp only [ih hrest hp]

theorem record_agrees (h : List.Forall₂ Minds known fields) (blank : σ) :
    (record surplus fields blank).Agrees (.fields known) := by
  intro v s d e hv hde
  cases hde with
  | named hp hde left right closing => rw [record, record, fillNamed_agrees h hp hv hde]
  | placed hp hde right closing => rw [record, record, fillInOrder_agrees h hp hv hde]

end Fields

end Reader

end LongMode.Json
