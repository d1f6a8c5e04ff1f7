import LongMode.CommandLine.Program
import LongMode.Proofs.Host.Handle
import LongMode.Proofs.Run.Breakpoints
import LongMode.Proofs.Text.Utf8
/-!
The command line program, one piece of work after the other. A piece is said to yield a result when it
does so from a given state and leaves a state with a given property; for the pieces that run a machine
the property is which files there are, which lines have been printed and which machine is held.
-/

namespace LongMode.CommandLine

open Program

/-- The program has these files and has printed these lines. What it has said besides does not
matter, and nothing of it goes to a file. -/
structure World.Still (w : World) (files : Files) (lines : List String) : Prop where
  files : w.files = files
  output : w.output = (lines.flatMap fun line => [line, "\n"]).reverse
  logFile : w.logFile = none

structure World.Has (w : World) (files : Files) (lines : List String) (h : Handle) (m : Machine) :
    Prop extends w.Still files lines where
  machine : w.host.registry.machine? h.id = some m

variable {w : World} {files : Files} {lines : List String} {h : Handle} {m n : Machine}

namespace Program

variable {α β : Type} {p : Program α} {next : α → Program β} {x : α} {y : β}
  {mid post : World → Prop}

/-- The work comes to this result and leaves a state with that property. -/
def Yields (p : Program α) (w : World) (x : α) (post : World → Prop) : Prop :=
  ∃ after, p.run w = (.ok x, after) ∧ post after

theorem bind_run {after : World} (h : p.run w = (.ok x, after)) :
    (p >>= next).run w = (next x).run after := by
  change ExceptT.bindCont next (p.run w).1 (p.run w).2 = _
  rw [h]
  rfl

theorem Yields.pure (h : post w) : (pure x : Program α).Yields w x post := ⟨w, rfl, h⟩

theorem Yields.bind (hp : p.Yields w x mid) (hnext : ∀ w, mid w → (next x).Yields w y post) :
    (p >>= next).Yields w y post := by
  rcases hp with ⟨between, hrun, hmid⟩
  rcases hnext between hmid with ⟨after, hlast, hpost⟩
  exact ⟨after, (bind_run hrun).trans hlast, hpost⟩

/-- A first piece that changes nothing. -/
theorem Yields.after (hp : p.run w = (.ok x, w)) (hnext : (next x).Yields w y post) :
    (p >>= next).Yields w y post := by
  rcases hnext with ⟨after, hlast, hpost⟩
  exact ⟨after, (bind_run hp).trans hlast, hpost⟩

/-! Work that only looks at files. -/

def answer (p : Program α) (files : Files) : Except Failure α := (p.run { files }).1

/-- The work changes nothing, and nothing but the files counts for it. -/
def Reads (p : Program α) : Prop := ∀ w, p.run w = (p.answer w.files, w)

theorem Reads.pure (x : α) : Reads (pure x : Program α) := fun _ => rfl

theorem Reads.fail (message : String) (cause : Option String) :
    Reads (fail message cause : Program α) := fun _ => rfl

theorem Reads.bind (hp : p.Reads) (hnext : ∀ x, (next x).Reads) : (p >>= next).Reads := by
  have hrun (w : World) : (p >>= next).run w = ExceptT.bindCont next (p.answer w.files) w := by
    change ExceptT.bindCont next (p.run w).1 (p.run w).2 = _
    rw [hp w]
  intro w
  unfold answer
  rw [hrun, hrun]
  cases p.answer w.files with
  | ok x => exact hnext x w
  | error e => rfl

theorem Reads.run (hp : p.Reads) (hx : p.answer files = .ok x) (hw : w.files = files) :
    p.run w = (.ok x, w) := by
  rw [hp w, hw, hx]

theorem get_run (w : World) : (get : Program World).run w = (.ok w, w) := rfl

theorem readFile_run (file : String) (w : World) : (readFile file).run w =
    ((w.files.read (.ofText file)).mapError fun f => ⟨"Failed to read " ++ file, some f.message⟩,
      w) := by
  unfold readFile
  rw [bind_run (get_run w)]
  cases w.files.read (.ofText file) <;> rfl

theorem readFile_reads (file : String) : (readFile file).Reads := by
  intro w
  unfold answer
  rw [readFile_run, readFile_run]

theorem loadProgram_reads (file : String) (hex : Bool) : (loadProgram file hex).Reads := by
  have hfull (code : List UInt8) : Reads (if code.isEmpty then
      fail (file ++ " contains no code") none else Pure.pure code : Program (List UInt8)) := by
    split_ifs
    · exact .fail _ _
    · exact .pure code
  unfold loadProgram
  apply (readFile_reads file).bind
  intro raw
  dsimp only
  split_ifs
  · cases Utf8.decode raw with
    | error f => exact (Reads.fail _ _).bind hfull
    | ok text =>
      dsimp only
      cases Numeral.readCode text with
      | error e => exact (Reads.fail _ _).bind hfull
      | ok code => exact (Reads.pure code).bind hfull
  · exact (Reads.pure raw).bind hfull

theorem readText_run {file : String} {text : List Char}
    (hread : w.files.read (.ofText file) = .ok (Utf8.encode text)) :
    (readText file).run w = (.ok text, w) := by
  have hfile : (readFile file).run w = (.ok (Utf8.encode text), w) := by
    rw [readFile_run, hread]
    rfl
  unfold readText
  rw [bind_run hfile, Utf8.decode_encode]
  rfl

theorem readBreakpoints_run {texts : List String} {addresses : List UInt64}
    (hread : texts.mapM (fun t => Numeral.readWord t.toList) = .ok addresses) (w : World) :
    (readBreakpoints texts).run w = (.ok addresses, w) := by
  induction texts generalizing addresses with
  | nil =>
    cases hread
    rfl
  | cons text rest ih =>
    rw [List.mapM_cons] at hread
    rcases ok_of_bind hread with ⟨a, ha, htail⟩
    rcases ok_of_bind htail with ⟨others, hothers, hall⟩
    cases hall
    unfold readBreakpoints
    rw [ha]
    dsimp only
    rw [bind_run (ih hothers)]
    rfl

/-! What is said and what is printed. -/

theorem say_yields {level source text : String} (h : ∀ messages, post { w with messages }) :
    (say level source text).Yields w () post :=
  ⟨_, rfl, h _⟩

theorem printAll_run (more : List String) (w : World) : (more.forM print).run w =
    (.ok (), { w with output := (more.flatMap fun line => [line, "\n"]).reverse ++ w.output }) := by
  induction more generalizing w with
  | nil => rfl
  | cons line more ih =>
    have hfirst : (print line).run w =
        (.ok (), { w with output := "\n" :: line :: w.output }) := rfl
    rw [List.flatMap_cons, List.reverse_append, List.append_assoc]
    exact (bind_run hfirst).trans (ih _)

end Program

theorem World.Still.said (hw : w.Still files lines) (messages : List String) :
    World.Still { w with messages } files lines :=
  ⟨hw.files, hw.output, hw.logFile⟩

theorem World.Still.printed (hw : w.Still files lines) (more : List String) :
    World.Still { w with output := (more.flatMap fun line => [line, "\n"]).reverse ++ w.output } files
      (lines ++ more) := by
  refine ⟨hw.files, ?_, hw.logFile⟩
  dsimp only
  rw [hw.output, List.flatMap_append, List.reverse_append]

namespace World.Has

variable {α : Type} {x : α}

theorem said (hw : w.Has files lines h m) (messages : List String) :
    World.Has { w with messages } files lines h m :=
  ⟨hw.toStill.said messages, hw.machine⟩

theorem print (hw : w.Has files lines h m) (line : String) :
    (Program.print line).Yields w () (·.Has files (lines ++ [line]) h m) :=
  ⟨_, rfl, hw.toStill.printed [line], hw.machine⟩

theorem printAll (hw : w.Has files lines h m) (more : List String) :
    (more.forM Program.print).Yields w () (·.Has files (lines ++ more) h m) :=
  ⟨_, printAll_run more w, hw.toStill.printed more, hw.machine⟩

end World.Has

/-! Work of the engine. -/

theorem Program.engine_run {α : Type} (a : Action α) (w : World) : (engine a).run w =
    ((a.run w.host).1.mapError failureOf, flushLog { w with host := (a.run w.host).2 }) := by
  unfold engine
  rw [bind_run (get_run w)]
  rcases a.run w.host with ⟨result, host⟩
  dsimp only
  have hset : (set (flushLog { w with host }) : Program Unit).run w =
      (.ok (), flushLog { w with host }) := rfl
  rw [bind_run hset]
  cases result <;> rfl

theorem World.Still.engine {α : Type} {x : α} {a : Action α} {after : Host}
    (hw : w.Still files lines) (ha : a.run w.host = (.ok x, after)) :
    (Program.engine a).Yields w x fun w =>
      w.Still files lines ∧ w.host.registry = after.registry := by
  have hflush : flushLog { w with host := after } =
      { w with host := { after with log := { after.log with lines := [] } }
               messages := after.log.lines ++ w.messages } := by
    unfold flushLog
    dsimp only
    rw [hw.logFile]
  refine ⟨flushLog { w with host := after }, ?_, ?_⟩
  · rw [engine_run, ha]
    rfl
  · rw [hflush]
    exact ⟨⟨hw.files, hw.output, hw.logFile⟩, rfl⟩

namespace World.Has

variable {α : Type} {x : α} {a : Action α}

theorem engine (hw : w.Has files lines h m)
    (ha : ∃ after, a.run w.host = (.ok x, after) ∧ w.host.Replaced after h.id n) :
    (Program.engine a).Yields w x (·.Has files lines h n) := by
  rcases ha with ⟨after, hrun, hreplaced⟩
  rcases hw.toStill.engine hrun with ⟨last, hlast, hstill, hregistry⟩
  refine ⟨last, hlast, hstill, ?_⟩
  rw [hregistry, hreplaced h.id, if_pos rfl]

theorem view (hw : w.Has files lines h m) (look : Machine → α) :
    (Program.engine (h.view look)).Yields w (look m) (·.Has files lines h m) := by
  rcases Handle.view_run hw.machine look with ⟨after, hrun, hkept⟩
  apply hw.engine
  refine ⟨after, hrun, ?_⟩
  intro other
  rw [hkept other]
  split_ifs with heq
  · rw [heq, hw.machine]
  · rfl

theorem change (hw : w.Has files lines h m) (f : Machine → α × Machine) :
    (Program.engine (h.change f)).Yields w (f m).1 (·.Has files lines h (f m).2) :=
  hw.engine (Handle.change_run hw.machine f)

/-- Breakpoints that are not set are set one after the other. -/
theorem toggleAll (hw : w.Has files lines h m) {addresses : List UInt64} (hd : addresses.Nodup)
    (hnew : ∀ a ∈ addresses, m.isBreakpoint a = false) :
    (addresses.forM fun a => do let _ ← Program.engine (h.toggleBreakpoint a)).Yields w ()
      (·.Has files lines h (m.withBreakpoints (m.breakpoints.insertMany addresses))) := by
  induction addresses generalizing w m with
  | nil => exact .pure hw
  | cons a rest ih =>
    have hrest := List.nodup_cons.1 hd
    have hfirst : (do let _ ← Program.engine (h.toggleBreakpoint a)).Yields w ()
        (·.Has files lines h (m.setBreakpoint a)) := by
      apply (hw.engine (Handle.toggleBreakpoint_run hw.machine (hnew a List.mem_cons_self))).bind
      intro w hw
      exact .pure hw
    have hnext : ∀ b ∈ rest, (m.setBreakpoint a).isBreakpoint b = false := by
      intro b hb
      have hba : b ≠ a := fun h => hrest.1 (h ▸ hb)
      have hold := hnew b (List.mem_cons_of_mem _ hb)
      unfold Machine.isBreakpoint Machine.setBreakpoint at *
      rw [Std.ExtTreeSet.contains_insert, hold]
      simpa using hba.symm
    have hset : (m.setBreakpoint a).withBreakpoints
        ((m.setBreakpoint a).breakpoints.insertMany rest) =
          m.withBreakpoints (m.breakpoints.insertMany (a :: rest)) := by
      unfold Machine.withBreakpoints Machine.setBreakpoint
      rw [Std.ExtTreeSet.insertMany_cons]
    rw [← hset]
    apply hfirst.bind
    intro w hw
    exact ih hw hrest.2 hnext

end World.Has

/-- A command line that does its work prints what the work printed, and leaves the files as the work
left them. -/
theorem outcome_of_yields {defaultFile : String} {args : List String} {r : Request} {after : Files}
    (hasked : Request.ofArguments args = .ok r)
    (hserve : (serve defaultFile r).Yields { files } () (·.Still after lines)) :
    (outcome defaultFile args files).exit = 0 ∧
    (outcome defaultFile args files).output =
      String.join (lines.flatMap fun line => [line, "\n"]) ∧
    (outcome defaultFile args files).files = after := by
  rcases hserve with ⟨w, hrun, hw⟩
  have houtcome : outcome defaultFile args files =
      { exit := 0, output := String.join w.output.reverse
        messages := String.join (w.messages.reverse.map (· ++ "\n")), files := w.files } := by
    unfold outcome
    rw [hasked]
    dsimp only
    rw [hrun]
    simp only [List.append_nil]
  rw [houtcome]
  refine ⟨rfl, ?_, hw.files⟩
  dsimp only
  rw [hw.output, List.reverse_reverse]

end LongMode.CommandLine
