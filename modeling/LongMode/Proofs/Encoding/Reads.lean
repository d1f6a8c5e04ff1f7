import LongMode.Encoding.Decoder
import Mathlib.Tactic
/-!
Decoders read consecutive bytes. `Decoder.Reads` says of a decoder how many bytes it takes, that its
outcome depends on nothing behind the bytes it looked at, that nothing but an unreadable byte stops
it, and that a result stays the same where more bytes can be read. It is closed under sequencing, so
that a decoder has it if its parts do.
-/

namespace LongMode

/-- Every byte that can be read through `f` reads the same through `g`. -/
def Fetch.Extends (f g : Fetch) : Prop := ∀ a b, f a = .ok b → g a = .ok b

def Fetch.Readable (f : Fetch) (a : UInt64) (n : Nat) : Prop :=
  ∀ i < n, ∃ b, f (a + UInt64.ofNat i) = .ok b

theorem Fetch.Readable.zero (f : Fetch) (a : UInt64) : f.Readable a 0 :=
  fun _ hi => absurd hi (Nat.not_lt_zero _)

theorem Fetch.Readable.one {f : Fetch} {a : UInt64} {b : UInt8} (h : f a = .ok b) :
    f.Readable a 1 := by
  intro i hi
  obtain rfl : i = 0 := by omega
  exact ⟨b, by simpa using h⟩

theorem Fetch.Readable.mono {f : Fetch} {a : UInt64} {m n : Nat} (h : f.Readable a n)
    (hmn : m ≤ n) : f.Readable a m := fun i hi => h i (lt_of_lt_of_le hi hmn)

theorem Fetch.Readable.append {f : Fetch} {a : UInt64} {m n : Nat} (hm : f.Readable a m)
    (hn : f.Readable (a + UInt64.ofNat m) n) : f.Readable a (m + n) := by
  intro i hi
  by_cases h : i < m
  · exact hm i h
  · obtain ⟨b, hb⟩ := hn (i - m) (by omega)
    rw [UInt64.add_assoc, ← UInt64.ofNat_add, Nat.add_sub_cancel' (by omega)] at hb
    exact ⟨b, hb⟩

theorem add_one_add_ofNat (a : UInt64) (i : Nat) :
    a + 1 + UInt64.ofNat i = a + UInt64.ofNat (i + 1) := by
  rw [UInt64.ofNat_add, UInt64.add_assoc, UInt64.add_comm 1]
  rfl

namespace Decoder

variable {α β : Type}

theorem bind_apply (d : Decoder α) (f : α → Decoder β) (fetch : Fetch) (a : UInt64) :
    (d >>= f) fetch a = match d fetch a with
      | .ok (x, b) => f x fetch b
      | .error h => .error h := by
  change (d fetch a >>= fun s => f s.1 fetch s.2) = _
  cases d fetch a <;> rfl

theorem map_apply (f : α → β) (d : Decoder α) (fetch : Fetch) (a : UInt64) :
    (f <$> d) fetch a = (d fetch a).map fun r => (f r.1, r.2) := by
  change (d >>= fun x => Pure.pure (f x)) fetch a = _
  rw [bind_apply]
  cases d fetch a <;> rfl

/-- The first `n` bytes from `a` on decide the outcome. -/
def Local (d : Decoder α) (fetch : Fetch) (a : UInt64) (n : Nat) : Prop :=
  ∀ g : Fetch, (∀ i < n, g (a + UInt64.ofNat i) = fetch (a + UInt64.ofNat i)) → d g a = d fetch a

theorem Local.bind {d : Decoder α} {f : α → Decoder β} {fetch : Fetch} {a : UInt64} {x : α}
    {m n : Nat} (hx : d fetch a = .ok (x, a + UInt64.ofNat m)) (hd : d.Local fetch a m)
    (hf : (f x).Local fetch (a + UInt64.ofNat m) n) : (d >>= f).Local fetch a (m + n) := by
  intro g hg
  have hd := hd g fun i hi => hg i (by omega)
  simp only [bind_apply, hd, hx]
  refine hf g fun i hi => ?_
  have := hg (m + i) (by omega)
  simpa only [UInt64.ofNat_add, UInt64.add_assoc] using this

/-- A decoder that takes at most `hi` bytes, of which and of the `ahead` bytes behind it looks at
`lo` or more, and whose result has the property `Q`. It stops at the first byte that cannot be
read. -/
structure Reads (d : Decoder α) (lo hi : Nat) (ahead : α → Nat) (Q : α → Prop) : Prop where
  ok : ∀ {fetch a x next}, d fetch a = .ok (x, next) → Q x ∧ ∃ n, n ≤ hi ∧ lo ≤ n + ahead x ∧
    next = a + UInt64.ofNat n ∧ d.Local fetch a (n + ahead x)
  taken : ∀ {fetch a x next}, d fetch a = .ok (x, next) →
    ∃ n, next = a + UInt64.ofNat n ∧ fetch.Readable a n
  error : ∀ {fetch a h}, d fetch a = .error h → ∃ n f, h = .fault f ∧
    fetch (a + UInt64.ofNat n) = .error f ∧ fetch.Readable a n
  extend : ∀ {fetch g a r}, Fetch.Extends fetch g → d fetch a = .ok r → d g a = .ok r

def exact (_ : α) : Nat := 0

theorem Reads.mono {d : Decoder α} {lo hi lo' hi' : Nat} {ahead : α → Nat} {Q R : α → Prop}
    (h : d.Reads lo hi ahead Q) (hlo : lo' ≤ lo) (hhi : hi ≤ hi') (hQ : ∀ x, Q x → R x) :
    d.Reads lo' hi' ahead R where
  ok hx := by
    obtain ⟨hq, n, h1, h2, h3, h4⟩ := h.ok hx
    exact ⟨hQ _ hq, n, by omega, by omega, h3, h4⟩
  taken := h.taken
  error := h.error
  extend := h.extend

theorem Reads.pure {x : α} {lo hi : Nat} {ahead : α → Nat} {Q : α → Prop} (hx : Q x)
    (hlo : lo ≤ ahead x) : (pure x : Decoder α).Reads lo hi ahead Q where
  ok h := by
    cases h
    exact ⟨hx, 0, Nat.zero_le _, by omega, by simp, fun _ _ => rfl⟩
  taken h := by
    cases h
    exact ⟨0, by simp, .zero _ _⟩
  error h := by cases h
  extend _ h := h

/-- The parts share the bounds: what the first one takes is left out of the second one's. -/
theorem Reads.bind {d : Decoder α} {f : α → Decoder β} {lo hi lo' hi' : Nat} {ahead : β → Nat}
    {Q : α → Prop} {R : β → Prop} (hd : d.Reads lo hi exact Q) (hle : hi ≤ hi')
    (hf : ∀ x, Q x → (f x).Reads (lo' - lo) (hi' - hi) ahead R) :
    (d >>= f).Reads lo' hi' ahead R where
  ok {fetch a y next} h := by
    rw [bind_apply] at h
    cases hx : d fetch a with
    | error e => rw [hx] at h; cases h
    | ok s =>
      obtain ⟨x, b⟩ := s
      rw [hx] at h
      obtain ⟨hq, m, hm, hm', rfl, hdl⟩ := hd.ok hx
      obtain ⟨hr, n, hn, hn', rfl, hfl⟩ := (hf x hq).ok h
      simp only [exact, Nat.add_zero] at hm' hdl
      refine ⟨hr, m + n, by omega, by omega, ?_, ?_⟩
      · rw [UInt64.ofNat_add, UInt64.add_assoc]
      · rw [Nat.add_assoc]
        exact Local.bind hx hdl hfl
  taken {fetch a y next} h := by
    rw [bind_apply] at h
    cases hx : d fetch a with
    | error e => rw [hx] at h; cases h
    | ok s =>
      obtain ⟨x, b⟩ := s
      rw [hx] at h
      obtain ⟨hq, -⟩ := hd.ok hx
      obtain ⟨m, rfl, hm⟩ := hd.taken hx
      obtain ⟨n, rfl, hn⟩ := (hf x hq).taken h
      refine ⟨m + n, ?_, hm.append hn⟩
      rw [UInt64.ofNat_add, UInt64.add_assoc]
  error {fetch a e} h := by
    rw [bind_apply] at h
    cases hx : d fetch a with
    | error e' => rw [hx] at h; cases h; exact hd.error hx
    | ok s =>
      obtain ⟨x, b⟩ := s
      rw [hx] at h
      obtain ⟨hq, -⟩ := hd.ok hx
      obtain ⟨m, rfl, hm⟩ := hd.taken hx
      obtain ⟨n, g, rfl, hg, hn⟩ := (hf x hq).error h
      refine ⟨m + n, g, rfl, ?_, hm.append hn⟩
      rw [UInt64.ofNat_add, ← UInt64.add_assoc, hg]
  extend {fetch g a r} hg h := by
    rw [bind_apply] at h ⊢
    cases hx : d fetch a with
    | error e => rw [hx] at h; cases h
    | ok s =>
      obtain ⟨x, b⟩ := s
      rw [hx] at h
      obtain ⟨hq, -⟩ := hd.ok hx
      rw [hd.extend hg hx]
      exact (hf x hq).extend hg h

theorem Reads.map {d : Decoder α} {f : α → β} {lo hi : Nat} {ahead : α → Nat} {ahead' : β → Nat}
    {Q : α → Prop} {R : β → Prop} (hd : d.Reads lo hi ahead Q) (hf : ∀ x, Q x → R (f x))
    (ha : ∀ x, ahead x ≤ ahead' (f x)) : (f <$> d).Reads lo hi ahead' R where
  ok {fetch a y next} h := by
    change (d >>= fun x => Pure.pure (f x)) fetch a = _ at h
    rw [bind_apply] at h
    cases hx : d fetch a with
    | error e => rw [hx] at h; cases h
    | ok s =>
      obtain ⟨x, b⟩ := s
      rw [hx] at h
      cases h
      obtain ⟨hq, n, hn, hn', rfl, hl⟩ := hd.ok hx
      have ha := ha x
      refine ⟨hf x hq, n, hn, by omega, rfl, fun g hg => ?_⟩
      have hg := hl g fun i hi => hg i (by omega)
      change (d >>= fun x => Pure.pure (f x)) g a = (d >>= fun x => Pure.pure (f x)) fetch a
      rw [bind_apply, bind_apply, hg, hx]
      rfl
  taken {fetch a y next} h := by
    change (d >>= fun x => Pure.pure (f x)) fetch a = _ at h
    rw [bind_apply] at h
    cases hx : d fetch a with
    | error e => rw [hx] at h; cases h
    | ok s =>
      obtain ⟨x, b⟩ := s
      rw [hx] at h
      cases h
      exact hd.taken hx
  error {fetch a e} h := by
    change (d >>= fun x => Pure.pure (f x)) fetch a = _ at h
    rw [bind_apply] at h
    cases hx : d fetch a with
    | error e' => rw [hx] at h; cases h; exact hd.error hx
    | ok s => rw [hx] at h; cases h
  extend {fetch g a r} hg h := by
    change (d >>= fun x => Pure.pure (f x)) fetch a = _ at h
    change (d >>= fun x => Pure.pure (f x)) g a = _
    rw [bind_apply] at h ⊢
    cases hx : d fetch a with
    | error e => rw [hx] at h; cases h
    | ok s => rw [hx] at h; rw [hd.extend hg hx]; exact h

/-- `Reads.map` for a decoder that does not look ahead. -/
theorem Reads.map_exact {d : Decoder α} {f : α → β} {lo hi : Nat} {ahead : β → Nat} {Q : α → Prop}
    {R : β → Prop} (hd : d.Reads lo hi exact Q) (hf : ∀ x, Q x → R (f x)) :
    (f <$> d).Reads lo hi ahead R := hd.map hf fun _ => Nat.zero_le _

section Byte

variable {fetch : Fetch} {a : UInt64}

theorem fetch_of_ok {b : UInt8} (h : fetch a = .ok b) : Decoder.fetch fetch a = .ok (b, a + 1) := by
  simp [Decoder.fetch, h, bind, Except.bind, Pure.pure, Except.pure]

theorem fetch_of_error {f : Fault} (h : fetch a = .error f) :
    Decoder.fetch fetch a = .error (.fault f) := by
  simp [Decoder.fetch, h, bind, Except.bind]

theorem peek_of_ok {b : UInt8} (h : fetch a = .ok b) : peek fetch a = .ok (b, a) := by
  simp [peek, h, bind, Except.bind, Pure.pure, Except.pure]

theorem peek_of_error {f : Fault} (h : fetch a = .error f) :
    peek fetch a = .error (.fault f) := by
  simp [peek, h, bind, Except.bind]

end Byte

theorem fetch_reads : fetch.Reads 1 1 exact fun _ => True where
  ok {g a x next} h := by
    cases hb : g a with
    | error f => rw [fetch_of_error hb] at h; cases h
    | ok b =>
      rw [fetch_of_ok hb] at h
      cases h
      refine ⟨trivial, 1, le_rfl, le_rfl, rfl, fun g' hg => ?_⟩
      have hga : g' a = .ok x := by
        have := hg 0 (by simp [exact])
        simpa [hb] using this
      rw [fetch_of_ok hb, fetch_of_ok hga]
  taken {g a x next} h := by
    cases hb : g a with
    | error f => rw [fetch_of_error hb] at h; cases h
    | ok b =>
      rw [fetch_of_ok hb] at h
      cases h
      exact ⟨1, rfl, .one hb⟩
  error {g a e} h := by
    cases hb : g a with
    | error f =>
      rw [fetch_of_error hb] at h
      cases h
      exact ⟨0, f, rfl, by simpa using hb, .zero _ _⟩
    | ok b => rw [fetch_of_ok hb] at h; cases h
  extend {f g a r} hg h := by
    cases hb : f a with
    | error e => rw [fetch_of_error hb] at h; cases h
    | ok b => rw [fetch_of_ok (hg a b hb)]; rwa [fetch_of_ok hb] at h

/-- What follows a peek either takes the byte or owns up to having looked at it. -/
theorem peek_bind_reads {f : UInt8 → Decoder β} {hi : Nat} {ahead : β → Nat} {R : β → Prop}
    (hf : ∀ byte, (f byte).Reads 1 hi ahead R) : (peek >>= f).Reads 1 hi ahead R where
  ok {fetch a y next} h := by
    rw [bind_apply] at h
    cases hb : fetch a with
    | error e => rw [peek_of_error hb] at h; cases h
    | ok b =>
      rw [peek_of_ok hb] at h
      obtain ⟨hr, n, hn, hn', rfl, hl⟩ := (hf b).ok h
      refine ⟨hr, n, hn, hn', rfl, fun g hg => ?_⟩
      have hga : g a = .ok b := by
        have := hg 0 (by omega)
        simpa [hb] using this
      rw [bind_apply, bind_apply, peek_of_ok hb, peek_of_ok hga]
      exact hl g hg
  taken {fetch a y next} h := by
    rw [bind_apply] at h
    cases hb : fetch a with
    | error e => rw [peek_of_error hb] at h; cases h
    | ok b =>
      rw [peek_of_ok hb] at h
      exact (hf b).taken h
  error {fetch a e} h := by
    rw [bind_apply] at h
    cases hb : fetch a with
    | error f =>
      rw [peek_of_error hb] at h
      cases h
      exact ⟨0, f, rfl, by simpa using hb, .zero _ _⟩
    | ok b =>
      rw [peek_of_ok hb] at h
      exact (hf b).error h
  extend {fetch g a r} hg h := by
    rw [bind_apply] at h ⊢
    cases hb : fetch a with
    | error e => rw [peek_of_error hb] at h; cases h
    | ok b =>
      rw [peek_of_ok hb] at h
      rw [peek_of_ok (hg a b hb)]
      exact (hf b).extend hg h

theorem fetchBytes_reads (n : Nat) : (fetchBytes n).Reads n n exact fun bs => bs.length = n := by
  induction n with
  | zero => exact Reads.pure rfl (Nat.zero_le _)
  | succ n ih =>
    refine fetch_reads.bind (by omega) fun b _ => ?_
    exact ih.map_exact fun bs hbs => by rw [List.length_cons, hbs]

theorem fetchWord_reads (n : Nat) : (fetchWord n).Reads n n exact fun _ => True :=
  (fetchBytes_reads n).map_exact fun _ _ => trivial

theorem ofExcept_reads {r : Except Misuse α} {x : α} {hi : Nat} {Q : α → Prop} (h : r = .ok x)
    (hx : Q x) : (ofExcept r).Reads 0 hi exact Q := by
  subst h
  exact Reads.pure hx (Nat.zero_le _)

/-- The byte that stops a decoder is one that it could have looked at. -/
theorem Reads.error_le {d : Decoder α} {lo hi : Nat} {ahead : α → Nat} {Q : α → Prop}
    (hd : d.Reads lo hi ahead Q) (hahead : ∀ x, ahead x ≤ 1) {fetch : Fetch} {a : UInt64} {e : Halt}
    (h : d fetch a = .error e) : ∃ n f, n ≤ hi ∧ e = .fault f ∧
      fetch (a + UInt64.ofNat n) = .error f ∧ fetch.Readable a n := by
  obtain ⟨n, f, he, hf, hn⟩ := hd.error h
  refine ⟨n, f, not_lt.1 fun hlt => ?_, he, hf, hn⟩
  -- with every other byte made readable there would be a result, and the same one here
  let total : Fetch := fun x => match fetch x with
    | .ok b => .ok b
    | .error _ => .ok 0
  cases ht : d total a with
  | error e' =>
    obtain ⟨k, f', -, hf', -⟩ := hd.error ht
    simp only [total] at hf'
    split at hf' <;> cases hf'
  | ok r =>
    obtain ⟨-, k, hk, -, -, hlocal⟩ := hd.ok ht
    have hahead := hahead r.1
    have hsame := hlocal fetch fun i hi => by
      obtain ⟨b, hb⟩ := hn i (by omega)
      simp only [total, hb]
    rw [h, ht] at hsame
    cases hsame

/-- Whether there is a result or not, the bytes that a decoder can look at decide it. -/
theorem Reads.congr {d : Decoder α} {lo hi : Nat} {ahead : α → Nat} {Q : α → Prop}
    (hd : d.Reads lo hi ahead Q) (hahead : ∀ x, ahead x ≤ 1) {f g : Fetch} {a : UInt64}
    (h : ∀ i < hi + 1, g (a + UInt64.ofNat i) = f (a + UInt64.ofNat i)) : d g a = d f a := by
  have hok {f g : Fetch} (h : ∀ i < hi + 1, g (a + UInt64.ofNat i) = f (a + UInt64.ofNat i))
      {r : α × UInt64} (hr : d f a = .ok r) : d g a = d f a := by
    obtain ⟨-, k, hk, -, -, hlocal⟩ := hd.ok hr
    have hahead := hahead r.1
    exact hlocal g fun i hi => h i (by omega)
  cases hf : d f a with
  | ok r => rw [hok h hf, hf]
  | error e =>
    cases hg : d g a with
    | ok r =>
      have hback := hok (fun i hi => (h i hi).symm) hg
      rw [hf, hg] at hback
      cases hback
    | error e' =>
      obtain ⟨n, u, hn, rfl, hu, hreadable⟩ := hd.error_le hahead hf
      obtain ⟨n', u', hn', rfl, hu', hreadable'⟩ := hd.error_le hahead hg
      have hle : n ≤ n' := not_lt.1 fun hlt => by
        obtain ⟨b, hb⟩ := hreadable n' hlt
        rw [← h n' (by omega), hu'] at hb
        cases hb
      have hle' : n' ≤ n := not_lt.1 fun hlt => by
        obtain ⟨b, hb⟩ := hreadable' n hlt
        rw [h n (by omega), hu] at hb
        cases hb
      obtain rfl : n = n' := le_antisymm hle hle'
      rw [h n (by omega), hu] at hu'
      cases hu'
      rfl

end Decoder

end LongMode
