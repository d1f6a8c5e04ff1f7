import LongMode.Json.Record
import LongMode.Proofs.Except
import Mathlib.Tactic
/-!
What the readers of records accept. A record says of each field under which name it stands, whether
it must be there, and what it looks like; a reader with a field for each takes exactly the documents
that look so.
-/

namespace LongMode.Json

structure Slot where
  name : String
  /-- The field must be there. -/
  needed : Bool
  shape : Document → Prop

/-- A record as an object, with each field at most once and anything else besides, or as an array of
its fields in their order. -/
inductive IsRecord (slots : List Slot) : Document → Prop
  | object {members : List (String × Document)}
    (once : members.Pairwise fun a b => a.1 = b.1 → ∀ slot ∈ slots, slot.name ≠ a.1)
    (present : ∀ slot ∈ slots, slot.needed = true → ∃ d, (slot.name, d) ∈ members)
    (shaped : ∀ slot ∈ slots, ∀ d, (slot.name, d) ∈ members → slot.shape d) :
    IsRecord slots (.object (members.map fun m => (.ok m.1, m.2)) none)
  | array {items : List Document} (short : items.length ≤ slots.length)
    (present : ∀ slot ∈ slots.drop items.length, slot.needed = false)
    (shaped : ∀ p ∈ slots.zip items, p.1.shape p.2) : IsRecord slots (.array items none)

namespace Document

def Passable (d : Document) : Prop := d.skip = .ok ()

theorem Passable.item {items : List Document} {closing : Option Flaw}
    (h : (Document.array items closing).Passable) {d : Document} (hd : d ∈ items) : d.Passable := by
  unfold Passable skip at h
  obtain ⟨_, hitems, -⟩ := ok_of_bind h
  clear h
  induction items with
  | nil => cases hd
  | cons e rest ih =>
    obtain ⟨_, he, hrest⟩ := ok_of_bind hitems
    rcases List.mem_cons.1 hd with rfl | hd
    · exact he
    · exact ih hd hrest

theorem Passable.member {members : List (Except Refusal String × Document)} {closing : Option Flaw}
    (h : (Document.object members closing).Passable) {m : Except Refusal String × Document}
    (hm : m ∈ members) : m.2.Passable := by
  unfold Passable skip at h
  obtain ⟨_, hmembers, -⟩ := ok_of_bind h
  clear h
  induction members with
  | nil => cases hm
  | cons e rest ih =>
    obtain ⟨_, he, hrest⟩ := ok_of_bind hmembers
    rcases List.mem_cons.1 hm with rfl | hm
    · exact he
    · exact ih hm hrest

theorem skipItems_of_passable {items : List Document} (h : ∀ d ∈ items, d.Passable) :
    skipItems items = .ok () := by
  induction items with
  | nil => rfl
  | cons d rest ih =>
    rw [skipItems, show d.skip = .ok () from h d (by simp)]
    exact ih fun e he => h e (List.mem_cons_of_mem d he)

theorem skipMembers_of_passable {members : List (Except Refusal String × Document)}
    (h : ∀ m ∈ members, m.2.Passable) : skipMembers members = .ok () := by
  induction members with
  | nil => rfl
  | cons m rest ih =>
    rw [skipMembers, show m.2.skip = .ok () from h m (by simp)]
    exact ih fun e he => h e (List.mem_cons_of_mem m he)

theorem mem_of_mem_lastOfName {α : Type} {ms : List (String × α)} {m : String × α}
    (h : m ∈ lastOfName ms) : m ∈ ms := by
  induction ms with
  | nil => exact h
  | cons a ms ih =>
    cases ms with
    | nil => exact h
    | cons b ms =>
      rw [lastOfName] at h
      split at h
      · exact List.mem_cons_of_mem a (ih h)
      · rcases List.mem_cons.1 h with rfl | h
        · exact List.mem_cons_self
        · exact List.mem_cons_of_mem a (ih h)

theorem closed_eq_ok {closing : Option Flaw} (h : closed closing = .ok ()) : closing = none := by
  cases closing with
  | none => rfl
  | some f => cases h

/-! What has been looked at can be passed over. -/

mutual

theorem canonical_passable (d : Document) {depth : Nat} (h : d.inspect depth = .ok ()) :
    d.canonical.Passable := by
  cases d with
  | null | bool | number | text => rfl
  | broken f => cases h
  | array items closing =>
    unfold inspect at h
    split at h
    · obtain ⟨_, hitems, hclosed⟩ := ok_of_bind h
      obtain rfl := closed_eq_ok hclosed
      rw [canonical, Passable, skip, skipItems_of_passable (canonicalItems_passable items hitems)]
      rfl
    · cases h
  | object members closing =>
    unfold inspect at h
    split at h
    · obtain ⟨_, hmembers, hclosed⟩ := ok_of_bind h
      obtain rfl := closed_eq_ok hclosed
      rw [canonical, Passable, skip, skipMembers_of_passable fun m hm => ?_]
      · rfl
      · obtain ⟨named, hnamed, rfl⟩ := List.mem_map.1 hm
        refine canonicalMembers_passable members hmembers named ?_
        exact (List.mergeSort_perm _ _).mem_iff.1 (mem_of_mem_lastOfName hnamed)
    · cases h

theorem canonicalItems_passable (items : List Document) {depth : Nat}
    (h : inspectItems depth items = .ok ()) : ∀ d ∈ canonicalItems items, d.Passable := by
  cases items with
  | nil => simp [canonicalItems]
  | cons d rest =>
    obtain ⟨_, hd, hrest⟩ := ok_of_bind h
    intro e he
    rcases List.mem_cons.1 he with rfl | he
    · exact canonical_passable d hd
    · exact canonicalItems_passable rest hrest e he

theorem canonicalMembers_passable (members : List (Except Refusal String × Document)) {depth : Nat}
    (h : inspectMembers depth members = .ok ()) : ∀ m ∈ canonicalMembers members, m.2.Passable := by
  match members with
  | [] => simp [canonicalMembers]
  | (.error r, d) :: rest => cases h
  | (.ok name, d) :: rest =>
    obtain ⟨_, -, h⟩ := ok_of_bind h
    obtain ⟨_, hd, hrest⟩ := ok_of_bind h
    intro m hm
    rcases List.mem_cons.1 hm with rfl | hm
    · exact canonical_passable d hd
    · exact canonicalMembers_passable rest hrest m hm

end

end Document

namespace Reader

open Document

def Takes {α : Type} (reader : Reader α) (shape : Document → Prop) : Prop :=
  ∀ d : Document, d.Passable → ((∃ x, reader d = .ok x) ↔ shape d)

/-- A field looks for its slot, and fills in itself and none of the others. -/
structure Fits {σ : Type} (known : List (Slot × Field σ)) (k : Slot × Field σ) : Prop where
  named : k.2.name = k.1.name
  takes : ∀ s, Takes (k.2.fill s) k.1.shape
  fills : ∀ s d t, k.2.fill s d = .ok t → ∀ o ∈ known,
    o.2.isSet t = (o.2.isSet s || o.1.name == k.1.name)

theorem map_ok_iff {α β : Type} {r : Except Refusal α} {f : α → β} :
    (∃ y, r.map f = .ok y) ↔ ∃ x, r = .ok x := by
  cases r <;> simp [Except.map]

theorem Fits.of {σ α : Type} {known : List (Slot × Field σ)} {name : String} {needed : Bool}
    {get : σ → Option α} {set : σ → α → σ} {reader : Reader α} {shape : Document → Prop}
    (h : Takes reader shape)
    (hset : ∀ s x, ∀ o ∈ known, o.2.isSet (set s x) = (o.2.isSet s || o.1.name == name)) :
    Fits known (⟨name, needed, shape⟩, .of name get set reader) where
  named := rfl
  takes s d hd := map_ok_iff.trans (h d hd)
  fills s d t ht := by
    change (reader d).map (set s) = .ok t at ht
    cases hx : reader d with
    | error r =>
      rw [hx] at ht
      cases ht
    | ok x =>
      rw [hx] at ht
      cases ht
      exact hset s x

structure Describes {σ : Type} (known : List (Slot × Field σ)) : Prop where
  distinct : (known.map (·.1.name)).Nodup
  fits : ∀ k ∈ known, Fits known k

variable {σ : Type} {known : List (Slot × Field σ)} {surplus : Refusal} {s t : σ}

namespace Describes

theorem eq_of_name (h : Describes known) {j k : Slot × Field σ} (hj : j ∈ known) (hk : k ∈ known)
    (heq : j.1.name = k.1.name) : j = k :=
  List.inj_on_of_nodup_map h.distinct hj hk heq

theorem find?_name (h : Describes known) {k : Slot × Field σ} (hk : k ∈ known) :
    (known.map Prod.snd).find? (·.name == k.1.name) = some k.2 := by
  cases hfind : (known.map Prod.snd).find? (·.name == k.1.name) with
  | none =>
    have hne := List.find?_eq_none.1 hfind k.2 (List.mem_map_of_mem hk)
    simp [(h.fits k hk).named] at hne
  | some field =>
    obtain ⟨j, hj, rfl⟩ := List.mem_map.1 (List.mem_of_find?_eq_some hfind)
    have hname := List.find?_some hfind
    simp only [(h.fits j hj).named, beq_iff_eq] at hname
    rw [h.eq_of_name hj hk hname]

theorem find?_other (h : Describes known) {name : String} (hn : ∀ k ∈ known, k.1.name ≠ name) :
    (known.map Prod.snd).find? (·.name == name) = none := by
  refine List.find?_eq_none.2 fun field hf => ?_
  obtain ⟨k, hk, rfl⟩ := List.mem_map.1 hf
  simpa [(h.fits k hk).named] using hn k hk

end Describes

/-! Fields by name. -/

/-- A member under the name of a field is put there, once. -/
theorem fillNamed_field (h : Describes known) {k : Slot × Field σ} (hk : k ∈ known) (s : σ)
    (d : Document) (rest : List (Except Refusal String × Document)) :
    fillNamed (known.map Prod.snd) s ((.ok k.1.name, d) :: rest) =
      if k.2.isSet s then .error .mismatch
      else k.2.fill s d >>= fun t => fillNamed (known.map Prod.snd) t rest := by
  rw [fillNamed]
  dsimp only [bind, Except.bind]
  rw [h.find?_name hk]

theorem fillNamed_other (h : Describes known) {name : String} (hn : ∀ k ∈ known, k.1.name ≠ name)
    (s : σ) {d : Document} (hd : d.Passable) (rest : List (Except Refusal String × Document)) :
    fillNamed (known.map Prod.snd) s ((.ok name, d) :: rest) =
      fillNamed (known.map Prod.snd) s rest := by
  rw [fillNamed]
  dsimp only [bind, Except.bind]
  rw [h.find?_other hn]
  dsimp only
  rw [show d.skip = .ok () from hd]

theorem names_of_fillNamed {members : List (Except Refusal String × Document)}
    (h : fillNamed (known.map Prod.snd) s members = .ok t) :
    ∃ ms : List (String × Document), members = ms.map fun m => (.ok m.1, m.2) := by
  induction members generalizing s with
  | nil => exact ⟨[], rfl⟩
  | cons m rest ih =>
    obtain ⟨name, hname, h⟩ := ok_of_bind h
    have hrest : ∃ s, fillNamed (known.map Prod.snd) s rest = .ok t := by
      split at h
      · obtain ⟨-, -, h⟩ := ok_of_bind h
        exact ⟨s, h⟩
      · split at h
        · cases h
        · obtain ⟨s', -, h⟩ := ok_of_bind h
          exact ⟨s', h⟩
    obtain ⟨s', hs'⟩ := hrest
    obtain ⟨ms, rfl⟩ := ih hs'
    exact ⟨(name, m.2) :: ms, by rw [List.map_cons, ← hname]⟩

/-- The members can be put into the fields that are still free. -/
def Admits (known : List (Slot × Field σ)) (s : σ) (ms : List (String × Document)) : Prop :=
  ms.Pairwise (fun a b => a.1 = b.1 → ∀ k ∈ known, k.1.name ≠ a.1) ∧
    ∀ k ∈ known, ∀ d, (k.1.name, d) ∈ ms → k.2.isSet s = false ∧ k.1.shape d

theorem admits_other {name : String} (hn : ∀ k ∈ known, k.1.name ≠ name) {d : Document}
    {ms : List (String × Document)} : Admits known s ((name, d) :: ms) ↔ Admits known s ms := by
  unfold Admits
  rw [List.pairwise_cons]
  constructor
  · rintro ⟨⟨-, honce⟩, hshaped⟩
    exact ⟨honce, fun k hk e he => hshaped k hk e (List.mem_cons_of_mem _ he)⟩
  · rintro ⟨honce, hshaped⟩
    refine ⟨⟨fun _ _ _ => hn, honce⟩, fun k hk e he => ?_⟩
    rcases List.mem_cons.1 he with heq | he
    · exact absurd (congrArg Prod.fst heq) (hn k hk)
    · exact hshaped k hk e he

/-- A field that is filled in now is not free for what comes behind it. -/
theorem admits_field (h : Describes known) {k : Slot × Field σ} (hk : k ∈ known) {d : Document}
    (hfill : k.2.fill s d = .ok t) (hshape : k.1.shape d) {ms : List (String × Document)} :
    Admits known s ((k.1.name, d) :: ms) ↔ k.2.isSet s = false ∧ Admits known t ms := by
  have hset (o) (ho : o ∈ known) : o.2.isSet t = (o.2.isSet s || o.1.name == k.1.name) :=
    (h.fits k hk).fills s d t hfill o ho
  unfold Admits
  rw [List.pairwise_cons]
  constructor
  · rintro ⟨⟨hhead, honce⟩, hshaped⟩
    refine ⟨(hshaped k hk d List.mem_cons_self).1, honce, fun o ho e he => ?_⟩
    obtain ⟨hfree, hshape⟩ := hshaped o ho e (List.mem_cons_of_mem _ he)
    refine ⟨?_, hshape⟩
    rw [hset o ho, hfree, Bool.false_or, beq_eq_false_iff_ne]
    exact fun heq => hhead (o.1.name, e) he heq.symm k hk rfl
  · rintro ⟨hfree, honce, hshaped⟩
    have hgone (e) (he : (k.1.name, e) ∈ ms) : False := by
      have hfilled := (hshaped k hk e he).1
      rw [hset k hk] at hfilled
      simp at hfilled
    refine ⟨⟨fun b hb heq => ?_, honce⟩, fun o ho e he => ?_⟩
    · exact (hgone b.2 (by rw [show k.1.name = b.1 from heq]; exact hb)).elim
    · rcases List.mem_cons.1 he with heq | he
      · obtain rfl := h.eq_of_name ho hk (congrArg Prod.fst heq)
        obtain rfl : e = d := congrArg Prod.snd heq
        exact ⟨hfree, hshape⟩
      · obtain ⟨hs, hshape⟩ := hshaped o ho e he
        rw [hset o ho, Bool.or_eq_false_iff] at hs
        exact ⟨hs.1, hshape⟩

theorem fillNamed_ok_iff (h : Describes known) {ms : List (String × Document)}
    (hd : ∀ m ∈ ms, m.2.Passable) :
    (∃ t, fillNamed (known.map Prod.snd) s (ms.map fun m => (.ok m.1, m.2)) = .ok t) ↔
      Admits known s ms := by
  induction ms generalizing s with
  | nil => exact ⟨fun _ => ⟨.nil, by simp⟩, fun _ => ⟨s, rfl⟩⟩
  | cons m ms ih =>
    have hrest (m) (hm : m ∈ ms) : m.2.Passable := hd m (List.mem_cons_of_mem _ hm)
    obtain ⟨name, d⟩ := m
    have hpass : d.Passable := hd (name, d) (by simp)
    by_cases hn : ∃ k ∈ known, k.1.name = name
    · obtain ⟨k, hk, rfl⟩ := hn
      have htakes := (h.fits k hk).takes s d hpass
      rw [List.map_cons, fillNamed_field h hk]
      constructor
      · rintro ⟨t, ht⟩
        split at ht
        · cases ht
        · rename_i hset
          obtain ⟨s', hs', ht⟩ := ok_of_bind ht
          exact (admits_field h hk hs' (htakes.1 ⟨s', hs'⟩)).2
            ⟨by simpa using hset, (ih hrest).1 ⟨t, ht⟩⟩
      · intro hadmits
        have hshape := (hadmits.2 k hk d (by simp)).2
        obtain ⟨s', hs'⟩ := htakes.2 hshape
        obtain ⟨hset, hadmits⟩ := (admits_field h hk hs' hshape).1 hadmits
        rw [hset, hs']
        exact (ih hrest).2 hadmits
    · push Not at hn
      rw [List.map_cons, fillNamed_other h hn s hpass, ih hrest, admits_other hn]

theorem isSet_of_fillNamed (h : Describes known) {ms : List (String × Document)}
    (hd : ∀ m ∈ ms, m.2.Passable)
    (ht : fillNamed (known.map Prod.snd) s (ms.map fun m => (.ok m.1, m.2)) = .ok t)
    {k : Slot × Field σ} (hk : k ∈ known) :
    k.2.isSet t = true ↔ k.2.isSet s = true ∨ ∃ d, (k.1.name, d) ∈ ms := by
  induction ms generalizing s with
  | nil =>
    cases ht
    simp
  | cons m ms ih =>
    have hrest (m) (hm : m ∈ ms) : m.2.Passable := hd m (List.mem_cons_of_mem _ hm)
    obtain ⟨name, d⟩ := m
    by_cases hn : ∃ o ∈ known, o.1.name = name
    · obtain ⟨o, ho, rfl⟩ := hn
      rw [List.map_cons, fillNamed_field h ho] at ht
      split at ht
      · cases ht
      · obtain ⟨s', hs', ht⟩ := ok_of_bind ht
        have hfill := (h.fits o ho).fills s d s' hs' k hk
        rw [ih hrest ht, hfill, Bool.or_eq_true, beq_iff_eq, or_assoc]
        refine or_congr_right ⟨?_, ?_⟩
        · rintro (heq | ⟨e, he⟩)
          · exact ⟨d, by rw [heq]; simp⟩
          · exact ⟨e, List.mem_cons_of_mem _ he⟩
        · rintro ⟨e, he⟩
          rcases List.mem_cons.1 he with heq | he
          · exact .inl (congrArg Prod.fst heq)
          · exact .inr ⟨e, he⟩
    · push Not at hn
      rw [List.map_cons, fillNamed_other h hn s (hd (name, d) (by simp))] at ht
      rw [ih hrest ht]
      have hne := hn k hk
      simp [hne]

/-! Fields by position. -/

theorem fillInOrder_ok_iff {rest : List (Slot × Field σ)} (h : Describes known)
    (hrest : ∀ k ∈ rest, k ∈ known) {items : List Document} (hd : ∀ d ∈ items, d.Passable) :
    (∃ t, fillInOrder surplus (rest.map Prod.snd) s items = .ok t) ↔
      items.length ≤ rest.length ∧ ∀ p ∈ (rest.map Prod.fst).zip items, p.1.shape p.2 := by
  induction items generalizing s rest with
  | nil =>
    have hnil : fillInOrder surplus (rest.map Prod.snd) s [] = .ok s := by cases rest <;> rfl
    simp [hnil]
  | cons d items ih =>
    cases rest with
    | nil =>
      simp [fillInOrder]
    | cons k rest =>
      have htakes := (h.fits k (hrest k (by simp))).takes s d (hd d (by simp))
      have hother (s) := ih (s := s) (fun k hk => hrest k (List.mem_cons_of_mem _ hk))
        fun d hm => hd d (List.mem_cons_of_mem _ hm)
      constructor
      · rintro ⟨t, ht⟩
        obtain ⟨s', hs', ht⟩ := ok_of_bind ht
        obtain ⟨hlength, hshaped⟩ := (hother s').1 ⟨t, ht⟩
        refine ⟨Nat.succ_le_succ hlength, fun p hp => ?_⟩
        rcases List.mem_cons.1 hp with rfl | hp
        · exact htakes.1 ⟨s', hs'⟩
        · exact hshaped p hp
      · rintro ⟨hlength, hshaped⟩
        obtain ⟨s', hs'⟩ := htakes.2 (hshaped (k.1, d) (by simp))
        change ∃ t, (k.2.fill s d >>= fun t => fillInOrder surplus (rest.map Prod.snd) t items) = _
        rw [hs']
        exact (hother s').2 ⟨Nat.le_of_succ_le_succ hlength,
          fun p hp => hshaped p (List.mem_cons_of_mem _ hp)⟩

theorem isSet_of_fillInOrder {rest : List (Slot × Field σ)} (h : Describes known)
    (hrest : ∀ k ∈ rest, k ∈ known) {items : List Document}
    (ht : fillInOrder surplus (rest.map Prod.snd) s items = .ok t) {k : Slot × Field σ}
    (hk : k ∈ known) : k.2.isSet t = true ↔
      k.2.isSet s = true ∨ k ∈ rest.take items.length := by
  induction items generalizing s rest with
  | nil =>
    have hnil : fillInOrder surplus (rest.map Prod.snd) s [] = .ok s := by cases rest <;> rfl
    rw [hnil] at ht
    cases ht
    simp
  | cons d items ih =>
    cases rest with
    | nil => cases ht
    | cons o rest =>
      obtain ⟨s', hs', ht⟩ := ok_of_bind ht
      have ho := hrest o (by simp)
      have hname : k.1.name = o.1.name ↔ k = o :=
        ⟨h.eq_of_name hk ho, fun heq => by rw [heq]⟩
      rw [ih (fun k hk => hrest k (List.mem_cons_of_mem _ hk)) ht, (h.fits o ho).fills s d s' hs' k hk,
        Bool.or_eq_true, beq_iff_eq, or_assoc, List.length_cons, List.take_succ_cons,
        List.mem_cons, hname]

def Complete (known : List (Slot × Field σ)) (s : σ) : Prop :=
  ∀ k ∈ known, k.1.needed = true → k.2.isSet s = true

section Record

variable {blank : σ}

theorem record_object_eq_ok {fields : List (Field σ)}
    {members : List (Except Refusal String × Document)} {closing : Option Flaw} :
    record surplus fields blank (.object members closing) = .ok s ↔
      closing = none ∧ fillNamed fields blank members = .ok s := by
  constructor
  · intro h
    obtain ⟨t, ht, h⟩ := ok_of_bind h
    obtain ⟨_, hclosed, h⟩ := ok_of_bind h
    obtain rfl : t = s := Except.ok.inj h
    exact ⟨closed_eq_ok hclosed, ht⟩
  · rintro ⟨rfl, h⟩
    rw [record, h]
    rfl

theorem record_array_eq_ok {fields : List (Field σ)} {items : List Document}
    {closing : Option Flaw} :
    record surplus fields blank (.array items closing) = .ok s ↔
      closing = none ∧ fillInOrder surplus fields blank items = .ok s := by
  constructor
  · intro h
    obtain ⟨t, ht, h⟩ := ok_of_bind h
    obtain ⟨_, hclosed, h⟩ := ok_of_bind h
    obtain rfl : t = s := Except.ok.inj h
    exact ⟨closed_eq_ok hclosed, ht⟩
  · rintro ⟨rfl, h⟩
    rw [record, h]
    rfl

variable (h : Describes known) (hblank : ∀ k ∈ known, k.2.isSet blank = false)
include h hblank

theorem complete_of_fillNamed {ms : List (String × Document)} (hd : ∀ m ∈ ms, m.2.Passable)
    (hs : fillNamed (known.map Prod.snd) blank (ms.map fun m => (.ok m.1, m.2)) = .ok s) :
    Complete known s ↔ ∀ k ∈ known, k.1.needed = true → ∃ d, (k.1.name, d) ∈ ms := by
  refine forall₂_congr fun k hk => imp_congr_right fun _ => ?_
  rw [isSet_of_fillNamed h hd hs hk, hblank k hk, or_iff_right Bool.false_ne_true]

theorem complete_of_fillInOrder {items : List Document}
    (hs : fillInOrder surplus (known.map Prod.snd) blank items = .ok s) :
    Complete known s ↔ ∀ k ∈ known.drop items.length, k.1.needed = false := by
  have hset (k) (hk : k ∈ known) : k.2.isSet s = true ↔ k ∈ known.take items.length := by
    rw [isSet_of_fillInOrder h (fun _ => id) hs hk, hblank k hk, or_iff_right Bool.false_ne_true]
  constructor
  · intro hcomplete k hk
    refine Bool.eq_false_iff.2 fun hneeded => ?_
    have hmem := List.mem_of_mem_drop hk
    have htake := (hset k hmem).1 (hcomplete k hmem hneeded)
    exact List.disjoint_take_drop (List.Nodup.of_map _ h.distinct) le_rfl htake hk
  · intro hdrop k hk hneeded
    refine (hset k hk).2 ?_
    have hmem := hk
    rw [← List.take_append_drop items.length known, List.mem_append] at hmem
    exact hmem.resolve_right fun hk => absurd hneeded (by rw [hdrop k hk]; exact Bool.false_ne_true)

/-- The reader of a record takes such records. -/
theorem record_ok_iff (surplus : Refusal) {d : Document} (hd : d.Passable) :
    (∃ s, record surplus (known.map Prod.snd) blank d = .ok s ∧ Complete known s) ↔
      IsRecord (known.map Prod.fst) d := by
  constructor
  · rintro ⟨s, hs, hcomplete⟩
    cases d with
    | object members closing =>
      obtain ⟨rfl, hfill⟩ := record_object_eq_ok.1 hs
      obtain ⟨ms, rfl⟩ := names_of_fillNamed hfill
      have hms (m) (hm : m ∈ ms) : m.2.Passable := hd.member (List.mem_map_of_mem hm)
      obtain ⟨honce, hshaped⟩ := (fillNamed_ok_iff h hms).1 ⟨s, hfill⟩
      have hpresent := (complete_of_fillNamed h hblank hms hfill).1 hcomplete
      refine .object (honce.imp fun hab heq => ?_) ?_ ?_
      all_goals rw [List.forall_mem_map]
      · exact hab heq
      · exact hpresent
      · exact fun k hk e he => (hshaped k hk e he).2
    | array items closing =>
      obtain ⟨rfl, hfill⟩ := record_array_eq_ok.1 hs
      obtain ⟨hlength, hshaped⟩ :=
        (fillInOrder_ok_iff h (fun _ => id) fun e he => hd.item he).1 ⟨s, hfill⟩
      refine .array (by simpa using hlength) ?_ hshaped
      rw [← List.map_drop, List.forall_mem_map]
      exact (complete_of_fillInOrder h hblank hfill).1 hcomplete
    | null | bool | number | text | broken => cases hs
  · intro hrecord
    cases hrecord with
    | @object ms honce hpresent hshaped =>
      have hms (m) (hm : m ∈ ms) : m.2.Passable := hd.member (List.mem_map_of_mem hm)
      rw [List.forall_mem_map] at hpresent hshaped
      obtain ⟨s, hs⟩ := (fillNamed_ok_iff h hms (s := blank)).2
        ⟨honce.imp fun hab heq => List.forall_mem_map.1 (hab heq),
          fun k hk e he => ⟨hblank k hk, hshaped k hk e he⟩⟩
      exact ⟨s, record_object_eq_ok.2 ⟨rfl, hs⟩,
        (complete_of_fillNamed h hblank hms hs).2 hpresent⟩
    | @array items hlength hpresent hshaped =>
      rw [← List.map_drop, List.forall_mem_map] at hpresent
      obtain ⟨s, hs⟩ : ∃ s, fillInOrder surplus (known.map Prod.snd) blank items = .ok s :=
        (fillInOrder_ok_iff h (fun _ => id) fun e he => hd.item he).2
          ⟨by simpa using hlength, hshaped⟩
      exact ⟨s, record_array_eq_ok.2 ⟨rfl, hs⟩, (complete_of_fillInOrder h hblank hs).2 hpresent⟩

end Record

end Reader

end LongMode.Json
