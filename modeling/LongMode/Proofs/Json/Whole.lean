import LongMode.Proofs.Json.Parse
import LongMode.Proofs.Json.Record
/-!
Whole texts. A reading that breaks off leaves a flaw that nobody gets past, and a careful reader takes
only what can be passed over: from a text in which it finds anything, the document has been read to
its end.
-/

namespace LongMode.Json

open Document

namespace Document

theorem word_brokenOff {d : Document} (letters cs : List Char) {found : Document}
    (h : word d letters cs = (found, none)) : ¬ found.Passable := by
  induction letters generalizing cs with
  | nil => cases h
  | cons c letters ih =>
    cases cs with
    | nil =>
      cases h
      nofun
    | cons e cs =>
      rw [word] at h
      split_ifs at h
      · exact ih cs h
      · cases h
        nofun

theorem ofQuoted_brokenOff {cs : List Char} {d : Document} (h : ofQuoted cs = (d, none)) :
    ¬ d.Passable := by
  unfold ofQuoted at h
  split at h
  · cases h
  · cases h
  · cases h
    nofun

theorem ofNumber_brokenOff {cs : List Char} {d : Document} (h : ofNumber cs = (d, none)) :
    ¬ d.Passable := by
  unfold ofNumber at h
  split at h
  · cases h
  · cases h
  · cases h
    nofun

/-- Neither the parts nor what closes them is passed over. -/
def Stuck (parts : Except Refusal Unit) (closing : Option Flaw) : Prop :=
  ¬ (parts = .ok () ∧ passed closing = .ok ())

theorem not_passable_array {items : List Document} {closing : Option Flaw}
    (h : Stuck (skipItems items) closing) : ¬ (array items closing).Passable := by
  intro hpass
  obtain ⟨_, hitems, hclosing⟩ := ok_of_bind hpass
  exact h ⟨hitems, hclosing⟩

theorem not_passable_object {members : List (Except Refusal String × Document)}
    {closing : Option Flaw} (h : Stuck (skipMembers members) closing) :
    ¬ (object members closing).Passable := by
  intro hpass
  obtain ⟨_, hmembers, hclosing⟩ := ok_of_bind hpass
  exact h ⟨hmembers, hclosing⟩

theorem stuck_unexpected (parts : Except Refusal Unit) (cs : List Char) :
    Stuck parts (some (unexpected cs)) := by
  rintro ⟨-, h⟩
  cases cs <;> cases h

theorem ofName_brokenOff {cs : List Char} {flaw : Flaw} (h : ofName cs = .error flaw)
    {parts : Except Refusal Unit} : Stuck parts (some flaw) := by
  unfold ofName at h
  split at h
  · cases h
  · cases h
  · cases h
    nofun

mutual

theorem value_brokenOff (fuel : Nat) (cs : List Char) {d : Document}
    (h : value fuel cs = (d, none)) : ¬ d.Passable := by
  match fuel with
  | 0 =>
    cases h
    nofun
  | fuel + 1 =>
    rw [value] at h
    split at h
    · exact word_brokenOff _ _ h
    · exact word_brokenOff _ _ h
    · exact word_brokenOff _ _ h
    · exact ofQuoted_brokenOff h
    · obtain ⟨rfl, hafter⟩ := Prod.mk.inj h
      exact not_passable_array (items_brokenOff fuel _ _ hafter)
    · obtain ⟨rfl, hafter⟩ := Prod.mk.inj h
      exact not_passable_object (members_brokenOff fuel _ _ hafter)
    · split_ifs at h
      · exact ofNumber_brokenOff h
      · cases h
        nofun
    · cases h
      nofun

theorem items_brokenOff (fuel : Nat) (first : Bool) (cs : List Char)
    (h : (items fuel first cs).2.2 = none) :
    Stuck (skipItems (items fuel first cs).1) (items fuel first cs).2.1 := by
  match fuel with
  | 0 => nofun
  | fuel + 1 =>
    rw [items.eq_def] at h ⊢
    dsimp only at h ⊢
    split at h
    · cases h
    · exact item_brokenOff fuel _ h
    · exact item_brokenOff fuel _ h
    · exact stuck_unexpected _ _

theorem item_brokenOff (fuel : Nat) (cs : List Char) (h : (item fuel cs).2.2 = none) :
    Stuck (skipItems (item fuel cs).1) (item fuel cs).2.1 := by
  match fuel with
  | 0 => nofun
  | fuel + 1 =>
    rw [item] at h ⊢
    split at h
    · rename_i d hvalue
      rintro ⟨hskip, -⟩
      obtain ⟨_, hd, -⟩ := ok_of_bind hskip
      exact value_brokenOff fuel cs hvalue hd
    · rename_i d rest hvalue
      rintro ⟨hskip, hclosing⟩
      obtain ⟨_, -, hothers⟩ := ok_of_bind hskip
      exact items_brokenOff fuel false rest h ⟨hothers, hclosing⟩

theorem members_brokenOff (fuel : Nat) (first : Bool) (cs : List Char)
    (h : (members fuel first cs).2.2 = none) :
    Stuck (skipMembers (members fuel first cs).1) (members fuel first cs).2.1 := by
  match fuel with
  | 0 => nofun
  | fuel + 1 =>
    rw [members.eq_def] at h ⊢
    dsimp only at h ⊢
    split at h
    · cases h
    · exact member_brokenOff fuel _ h
    · exact member_brokenOff fuel _ h
    · exact stuck_unexpected _ _

theorem member_brokenOff (fuel : Nat) (cs : List Char) (h : (member fuel cs).2.2 = none) :
    Stuck (skipMembers (member fuel cs).1) (member fuel cs).2.1 := by
  match fuel with
  | 0 => nofun
  | fuel + 1 =>
    rw [member.eq_def] at h ⊢
    dsimp only at h ⊢
    split at h
    · rename_i rest
      cases hname : ofName rest with
      | error flaw => exact ofName_brokenOff hname
      | ok found =>
        obtain ⟨name, rest⟩ := found
        rw [hname] at h
        dsimp only at h ⊢
        split at h
        · rename_i rest hcolon
          split at h
          · rename_i d hvalue
            rintro ⟨hskip, -⟩
            obtain ⟨_, hd, -⟩ := ok_of_bind hskip
            exact value_brokenOff fuel _ hvalue hd
          · rename_i d after hvalue
            rintro ⟨hskip, hclosing⟩
            obtain ⟨_, -, hothers⟩ := ok_of_bind hskip
            exact members_brokenOff fuel false after h ⟨hothers, hclosing⟩
        · rintro ⟨hskip, -⟩
          obtain ⟨_, hd, -⟩ := ok_of_bind hskip
          exact stuck_unexpected (.ok ()) _ ⟨rfl, hd⟩
    · exact stuck_unexpected _ _

end

end Document

namespace Reader

variable {α : Type}

/-- The reader takes nothing that could not be passed over. -/
def Careful (reader : Reader α) : Prop := ∀ d x, reader d = .ok x → d.Passable

/-- A careful reader that finds something in a text has read all of it. -/
theorem Careful.holds {reader : Reader α} (h : reader.Careful) {text : String} {x : α}
    (hx : readText reader text.toList = .ok x) : ∃ d, Holds text d ∧ reader d = .ok x := by
  unfold readText at hx
  cases htext : Document.ofText text.toList with
  | mk d after =>
    rw [htext] at hx
    dsimp only at hx
    cases hd : reader d with
    | error r =>
      rw [hd] at hx
      cases hx
    | ok y =>
      rw [hd] at hx
      cases after with
      | none => exact absurd (h d y hd) (value_brokenOff _ _ htext)
      | some rest =>
        dsimp only [Option.map_some] at hx
        split at hx
        · cases hx
        · rename_i hrest
          cases hx
          refine ⟨d, ⟨rest, htext, ?_⟩, hd⟩
          cases hblank : skipBlanks rest with
          | nil => rfl
          | cons c cs => exact (hrest c cs (congrArg some hblank)).elim

theorem text_careful : Careful text := by
  intro d x h
  cases d <;> first | rfl | cases h

theorem bool_careful : Careful bool := by
  intro d x h
  cases d <;> first | rfl | cases h

theorem natural_careful (bound : Nat) : Careful (natural bound) := by
  intro d x h
  cases d <;> first | rfl | cases h

theorem map_careful {β : Type} {reader : Reader α} (h : reader.Careful) (f : α → β) :
    Careful fun d => (reader d).map f := by
  intro d x hx
  obtain ⟨y, hy⟩ := map_ok_iff.1 ⟨x, hx⟩
  exact h d y hy

theorem word_careful : Careful word := map_careful (natural_careful _) _

theorem byte_careful : Careful byte := map_careful (natural_careful _) _

theorem option_careful {reader : Reader α} (h : reader.Careful) : Careful (option reader) := by
  intro d x hx
  unfold option at hx
  split at hx
  · rfl
  · exact map_careful h some d x hx

theorem each_careful {reader : Reader α} (h : reader.Careful) {items : List Document}
    {xs : List α} (hxs : each reader items = .ok xs) : ∀ d ∈ items, d.Passable := by
  induction items generalizing xs with
  | nil => simp
  | cons d rest ih =>
    obtain ⟨x, hx, hxs⟩ := ok_of_bind hxs
    obtain ⟨others, hothers, -⟩ := ok_of_bind hxs
    exact List.forall_mem_cons.2 ⟨h d x hx, ih hothers⟩

theorem passable_array {items : List Document} (h : ∀ d ∈ items, d.Passable) :
    (Document.array items none).Passable := by
  rw [Passable, skip, skipItems_of_passable h]
  rfl

theorem passable_object {members : List (Except Refusal String × Document)}
    (h : ∀ m ∈ members, m.2.Passable) : (Document.object members none).Passable := by
  rw [Passable, skip, skipMembers_of_passable h]
  rfl

theorem list_careful {reader : Reader α} (h : reader.Careful) : Careful (list reader) := by
  intro d xs hxs
  cases d with
  | array items closing =>
    obtain ⟨others, hothers, hxs⟩ := ok_of_bind hxs
    obtain ⟨_, hclosed, -⟩ := ok_of_bind hxs
    obtain rfl := closed_eq_ok hclosed
    exact passable_array (each_careful h hothers)
  | null | bool | number | text | object | broken => cases hxs

theorem eachNamed_careful {reader : Reader α} (h : reader.Careful)
    {ms : List (Except Refusal String × Document)} {xs : List (String × α)}
    (hxs : eachNamed reader ms = .ok xs) : ∀ m ∈ ms, m.2.Passable := by
  induction ms generalizing xs with
  | nil => simp
  | cons m rest ih =>
    obtain ⟨name, -, hxs⟩ := ok_of_bind hxs
    obtain ⟨x, hx, hxs⟩ := ok_of_bind hxs
    obtain ⟨others, hothers, -⟩ := ok_of_bind hxs
    exact List.forall_mem_cons.2 ⟨h m.2 x hx, ih hothers⟩

theorem members_careful {reader : Reader α} (h : reader.Careful) : Careful (members reader) := by
  intro d xs hxs
  cases d with
  | object ms closing =>
    obtain ⟨others, hothers, hxs⟩ := ok_of_bind hxs
    obtain ⟨_, hclosed, -⟩ := ok_of_bind hxs
    obtain rfl := closed_eq_ok hclosed
    exact passable_object (eachNamed_careful h hothers)
  | null | bool | number | text | array | broken => cases hxs

section Fields

variable {σ : Type} {fields : List (Field σ)} {s t : σ} {surplus : Refusal}

theorem fillNamed_careful (h : ∀ f ∈ fields, ∀ s, Careful (f.fill s))
    {ms : List (Except Refusal String × Document)} (ht : fillNamed fields s ms = .ok t) :
    ∀ m ∈ ms, m.2.Passable := by
  induction ms generalizing s with
  | nil => simp
  | cons m rest ih =>
    obtain ⟨name, -, ht⟩ := ok_of_bind ht
    refine List.forall_mem_cons.2 ?_
    split at ht
    · obtain ⟨_, hskip, ht⟩ := ok_of_bind ht
      exact ⟨hskip, ih ht⟩
    · rename_i f hf
      split_ifs at ht
      obtain ⟨next, hnext, ht⟩ := ok_of_bind ht
      exact ⟨h f (List.mem_of_find?_eq_some hf) s _ next hnext, ih ht⟩

theorem fillInOrder_careful (h : ∀ f ∈ fields, ∀ s, Careful (f.fill s)) {items : List Document}
    (ht : fillInOrder surplus fields s items = .ok t) : ∀ d ∈ items, d.Passable := by
  induction items generalizing fields s with
  | nil => simp
  | cons d rest ih =>
    cases fields with
    | nil => cases ht
    | cons f fields =>
      obtain ⟨next, hnext, ht⟩ := ok_of_bind ht
      exact List.forall_mem_cons.2 ⟨h f (by simp) s d next hnext,
        ih (fun g hg => h g (List.mem_cons_of_mem f hg)) ht⟩

theorem record_careful (h : ∀ f ∈ fields, ∀ s, Careful (f.fill s)) (blank : σ) :
    Careful (record surplus fields blank) := by
  intro d t ht
  cases d with
  | object ms closing =>
    obtain ⟨rfl, hfill⟩ := record_object_eq_ok.1 ht
    exact passable_object (fillNamed_careful h hfill)
  | array items closing =>
    obtain ⟨rfl, hfill⟩ := record_array_eq_ok.1 ht
    exact passable_array (fillInOrder_careful h hfill)
  | null | bool | number | text | broken => cases ht

end Fields

end Reader

end LongMode.Json
