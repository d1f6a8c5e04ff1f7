import LongMode.Proofs.Json.Record
/-!
What readers give. What every field of a record keeps holds of the record that is read, and members
that are kept by name are in the order of their names.
-/

namespace LongMode.Json

/-- What holds of a record is not lost when the field is filled in. -/
def Field.Keeps {σ : Type} (P : σ → Prop) (f : Field σ) : Prop :=
  ∀ s d t, P s → f.fill s d = .ok t → P t

theorem Field.Keeps.of {σ α : Type} {P : σ → Prop} {name : String} {get : σ → Option α}
    {set : σ → α → σ} {reader : Reader α} (h : ∀ s d x, P s → reader d = .ok x → P (set s x)) :
    (Field.of name get set reader).Keeps P := by
  intro s d t hs ht
  change (reader d).map (set s) = .ok t at ht
  cases hx : reader d with
  | error r =>
    rw [hx] at ht
    cases ht
  | ok x =>
    rw [hx] at ht
    cases ht
    exact h s d x hs hx

namespace Reader

variable {σ α : Type} {P : σ → Prop} {fields : List (Field σ)} {s t : σ} {surplus : Refusal}

theorem fillNamed_gives (h : ∀ f ∈ fields, f.Keeps P)
    {members : List (Except Refusal String × Document)} (hs : P s)
    (ht : fillNamed fields s members = .ok t) : P t := by
  induction members generalizing s with
  | nil =>
    cases ht
    exact hs
  | cons m rest ih =>
    obtain ⟨name, -, ht⟩ := ok_of_bind ht
    split at ht
    · obtain ⟨_, -, ht⟩ := ok_of_bind ht
      exact ih hs ht
    · rename_i f hf
      split_ifs at ht
      obtain ⟨next, hnext, ht⟩ := ok_of_bind ht
      exact ih (h f (List.mem_of_find?_eq_some hf) s _ next hs hnext) ht

theorem fillInOrder_gives (h : ∀ f ∈ fields, f.Keeps P) {items : List Document} (hs : P s)
    (ht : fillInOrder surplus fields s items = .ok t) : P t := by
  induction items generalizing fields s with
  | nil =>
    unfold fillInOrder at ht
    cases ht
    exact hs
  | cons d rest ih =>
    cases fields with
    | nil => cases ht
    | cons f fields =>
      obtain ⟨next, hnext, ht⟩ := ok_of_bind ht
      exact ih (fun g hg => h g (List.mem_cons_of_mem f hg)) (h f (by simp) s d next hs hnext) ht

/-- What holds of a blank record and is kept by every field holds of what is read. -/
theorem record_gives (h : ∀ f ∈ fields, f.Keeps P) {d : Document} (hs : P s)
    (ht : record surplus fields s d = .ok t) : P t := by
  cases d with
  | object members closing => exact fillNamed_gives h hs (record_object_eq_ok.1 ht).2
  | array items closing => exact fillInOrder_gives h hs (record_array_eq_ok.1 ht).2
  | null | bool | number | text | broken => cases ht

variable {reader : Reader α} {Q : α → Prop} {xs : List α}

theorem each_gives (h : ∀ d x, reader d = .ok x → Q x) {items : List Document}
    (hxs : each reader items = .ok xs) : ∀ x ∈ xs, Q x := by
  induction items generalizing xs with
  | nil =>
    cases hxs
    simp
  | cons d rest ih =>
    obtain ⟨x, hx, hxs⟩ := ok_of_bind hxs
    obtain ⟨others, hothers, hxs⟩ := ok_of_bind hxs
    cases hxs
    exact List.forall_mem_cons.2 ⟨h d x hx, ih hothers⟩

theorem list_gives (h : ∀ d x, reader d = .ok x → Q x) {d : Document} (hxs : list reader d = .ok xs) :
    ∀ x ∈ xs, Q x := by
  cases d with
  | array items closing =>
    obtain ⟨others, hothers, hxs⟩ := ok_of_bind hxs
    obtain ⟨_, -, hxs⟩ := ok_of_bind hxs
    cases hxs
    exact each_gives h hothers
  | null | bool | number | text | object | broken => cases hxs

end Reader

/-- Of sorted members the last ones of each name are in the order of their names, each name once. -/
theorem lastOfName_strict {α : Type} {ms : List (String × α)} (h : ms.Pairwise (·.1 ≤ ·.1)) :
    (Document.lastOfName ms).Pairwise (·.1 < ·.1) := by
  induction ms with
  | nil => exact .nil
  | cons a ms ih =>
    cases ms with
    | nil => exact List.pairwise_singleton _ a
    | cons b ms =>
      rw [Document.lastOfName]
      split_ifs with hab
      · exact ih h.of_cons
      · refine List.pairwise_cons.2 ⟨fun m hm => ?_, ih h.of_cons⟩
        have hbm : b.1 ≤ m.1 := by
          rcases List.mem_cons.1 (Document.mem_of_mem_lastOfName hm) with rfl | hm
          · exact String.le_refl _
          · exact List.rel_of_pairwise_cons h.of_cons hm
        refine String.not_le.1 fun hma => hab ?_
        exact String.le_antisymm (List.rel_of_pairwise_cons h (by simp)) (String.le_trans hbm hma)

end LongMode.Json
