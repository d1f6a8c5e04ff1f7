import LongMode.Host.Turns
import LongMode.Proofs.Host.Handle
/-!
Handles that are used side by side. However the calls on them take turns, what becomes of the calls on
one handle, and the machine it is left with, are those of the same calls made on that handle alone.
-/

namespace LongMode

variable {α : Type}

namespace Job

/-- What becomes of a job on a machine, and the machine it leaves. -/
def effect (s : Settings) (m : Machine) : Job α → Except HostError (Answer α) × Machine
  | run single | runAsync single => (.ok (.status (m.run s single).status), (m.run s single).machine)
  | runFor budget => (.ok (.status (m.runFor s budget).status), (m.runFor s budget).machine)
  | invoke body => (.ok (.value (body m).1), (body m).2)
  | copy => (.ok (.machine m), m)
  | toggleBreakpoint address =>
    (.ok (.marked (m.toggleBreakpoint address).1), (m.toggleBreakpoint address).2)
  | restore saved =>
    let read := (Machine.reader saved).mapError HostError.refused
    (read.map fun _ => .restored, read.toOption.getD m)

def effects (s : Settings) (m : Machine) :
    List (Job α) → List (Except HostError (Answer α)) × Machine
  | [] => ([], m)
  | job :: jobs =>
    let (results, last) := effects s (job.effect s m).2 jobs
    ((job.effect s m).1 :: results, last)

theorem effects_snoc (s : Settings) (m : Machine) (jobs : List (Job α)) (job : Job α) :
    effects s m (jobs ++ [job]) =
      ((effects s m jobs).1 ++ [(job.effect s (effects s m jobs).2).1],
        (job.effect s (effects s m jobs).2).2) := by
  induction jobs generalizing m with
  | nil => rfl
  | cons first jobs ih =>
    simp only [List.cons_append, effects]
    rw [ih]

end Job

namespace Action

variable {β γ : Type} {a : Action β} {host after : Host} {result : Except HostError β}

theorem map_run (f : β → γ) (h : a.run host = (result, after)) :
    (f <$> a).run host = (result.map f, after) := by
  rw [← bind_pure_comp]
  cases result with
  | ok x => exact bind_run h
  | error e => exact bind_fails h

/-- What becomes of an action that may fail, as a result. -/
theorem observing_run (h : a.run host = (result, after)) :
    (observing a : Action (Except HostError β)).run host = (.ok result, after) := by
  have h : a host = (result, after) := h
  cases result <;>
    simp [observing, tryCatch, tryCatchThe, MonadExceptOf.tryCatch, ExceptT.tryCatch, ExceptT.run,
      ExceptT.mk, bind, ExceptT.bind, ExceptT.bindCont, StateT.bind, pure, ExceptT.pure, h] <;>
    rfl

end Action

namespace Handle

variable {h : Handle} {host : Host} {m : Machine}

/-- A job does on the host what it does on the machine. -/
theorem action_run (job : Job α) (hm : host.registry.machine? h.id = some m) :
    ∃ log, (job.action h).run host = ((job.effect h.settings m).1,
      ⟨(host.registry.put h.id (job.effect h.settings m).2).release, log⟩) := by
  cases job with
  | run single | runAsync single =>
    obtain ⟨log, hrun⟩ := runFor_eq hm (if single then 1 else Machine.unlimited)
    exact ⟨log, Action.map_run _ hrun⟩
  | runFor budget =>
    obtain ⟨log, hrun⟩ := runFor_eq hm budget
    exact ⟨log, Action.map_run _ hrun⟩
  | invoke body => exact ⟨_, Action.map_run _ (change_eq hm body)⟩
  | copy => exact ⟨_, Action.map_run _ (view_eq hm fun m => m)⟩
  | toggleBreakpoint address =>
    exact ⟨_, Action.map_run _ (change_eq hm (·.toggleBreakpoint address))⟩
  | restore saved =>
    have hrun := tryChange_eq hm fun _ => (Machine.reader saved).mapError HostError.refused
    have hmap (read : Except HostError Machine) :
        (read.map fun _ => ()).map (fun _ => (Answer.restored : Answer α)) =
          read.map fun _ => .restored := by
      cases read <;> rfl
    exact ⟨_, (Action.map_run _ hrun).trans (by rw [hmap]; rfl)⟩

/-- Jobs do on the host what they do on the machine, whoever else has a machine there. -/
theorem perform_run (jobs : List (Job α)) (hm : host.registry.machine? h.id = some m) :
    ∃ after, (h.perform jobs).run host = (.ok (Job.effects h.settings m jobs).1, after) ∧
      after.registry.machine? h.id = some (Job.effects h.settings m jobs).2 := by
  induction jobs generalizing host m with
  | nil => exact ⟨host, rfl, hm⟩
  | cons job jobs ih =>
    obtain ⟨log, hrun⟩ := action_run job hm
    let next : Host := ⟨(host.registry.put h.id (job.effect h.settings m).2).release, log⟩
    have hnext : next.registry.machine? h.id = some (job.effect h.settings m).2 :=
      (Registry.machine?_put hm _ h.id).trans (if_pos rfl)
    obtain ⟨after, hrest, hlast⟩ := ih hnext
    refine ⟨after, ?_, hlast⟩
    unfold perform
    rw [List.mapM_cons]
    exact (Action.bind_run (Action.observing_run hrun)).trans (Action.bind_run hrest)

end Handle

namespace Registry

variable {r : Registry}

theorem size_put (r : Registry) (id : Nat) (m : Machine) : (r.put id m).size = r.size :=
  Array.size_setIfInBounds

theorem size_register (r : Registry) (name : String) (m : Machine) (s : Settings) :
    (r.register name m s).2.size = r.size + 1 := Array.size_push ..

theorem machine?_register_of_le {id : Nat} (h : id ≤ r.size) (name : String) (m : Machine)
    (s : Settings) : (r.register name m s).2.machine? id = r.machine? id := by
  cases id with
  | zero => rfl
  | succ n => exact (Array.getElem?_push_lt h).trans (Array.getElem?_eq_getElem h).symm

end Registry

namespace Turns

variable {t u : Turns α}

/-! What each move does. -/

theorem step_register {name : String} {m : Machine} {settings : Settings}
    (h : t.step? (.register name m settings) = some u) :
    ∃ log, u = { t with
      host := ⟨(t.host.registry.register name m settings).2, log⟩
      registered := t.registered ++ [((t.host.registry.register name m settings).1, m)] } :=
  ⟨_, (Option.some.inj h).symm⟩

theorem step_ask {c : Call α} (h : t.step? (.ask c) = some u) :
    c.handle ∈ t.registered.map Prod.fst ∧ u = { t with waiting := t.waiting ++ [c] } := by
  unfold step? at h
  dsimp only at h
  split_ifs at h with hc
  exact ⟨hc, (Option.some.inj h).symm⟩

theorem step_enter {i : Nat} (h : t.step? (.enter i) = some u) :
    ∃ c, t.host.registry.owner = none ∧ t.waiting[i]? = some c ∧ u = { t with
      host := { t.host with registry := t.host.registry.acquire c.handle }
      waiting := t.waiting.eraseIdx i
      working := some c } := by
  unfold step? at h
  cases howner : t.host.registry.owner with
  | some id => simp [howner] at h
  | none =>
    cases hc : t.waiting[i]? with
    | none => simp [howner, hc] at h
    | some c =>
      simp only [howner, hc] at h
      exact ⟨c, rfl, rfl, (Option.some.inj h).symm⟩

theorem step_finish (h : t.step? .finish = some u) :
    ∃ c result host, t.working = some c ∧ (c.job.action c.handle).run t.host = (result, host) ∧
      u = { t with host, working := none, finished := t.finished ++ [(c, result)] } := by
  unfold step? at h
  cases hc : t.working with
  | none => simp [hc] at h
  | some c =>
    simp only [hc] at h
    exact ⟨c, _, _, rfl, rfl, (Option.some.inj h).symm⟩

def calls (t : Turns α) : List (Call α) :=
  t.finished.map Prod.fst ++ t.working.toList ++ t.waiting

theorem calls_ask (t : Turns α) (c : Call α) :
    calls { t with waiting := t.waiting ++ [c] } = t.calls ++ [c] :=
  (List.append_assoc _ _ _).symm

theorem calls_enter {i : Nat} {c : Call α} (hfree : t.working = none) (hc : t.waiting[i]? = some c)
    (host : Host) : (calls { t with
      host, waiting := t.waiting.eraseIdx i, working := some c }).Perm t.calls := by
  obtain ⟨hi, rfl⟩ := List.getElem?_eq_some_iff.1 hc
  simpa [calls, hfree] using (List.getElem_cons_eraseIdx_perm hi).append_left _

theorem calls_finish {c : Call α} (hc : t.working = some c) {host : Host}
    {result : Except HostError (Answer α)} :
    calls { t with host, working := none, finished := t.finished ++ [(c, result)] } = t.calls := by
  simp [calls, hc]

theorem jobs_finish (t : Turns α) (c : Call α) (host : Host) (result : Except HostError (Answer α))
    (h : Handle) :
    jobs { t with host, working := none, finished := t.finished ++ [(c, result)] } h =
      t.jobs h ++ if c.handle = h then [c.job] else [] := by
  by_cases heq : c.handle = h <;> simp [jobs, heq]

theorem results_finish (t : Turns α) (c : Call α) (host : Host)
    (result : Except HostError (Answer α)) (h : Handle) :
    results { t with host, working := none, finished := t.finished ++ [(c, result)] } h =
      t.results h ++ if c.handle = h then [result] else [] := by
  by_cases heq : c.handle = h <;> simp [results, heq]

/-- What holds between any two moves. -/
structure Sound (t : Turns α) : Prop where
  ids : t.registered.map (·.1.id) = List.range' 1 t.registered.length
  size : t.host.registry.size = t.registered.length
  owner : t.host.registry.owner = t.working.map (·.handle.id)
  known : ∀ c ∈ t.calls, c.handle ∈ t.registered.map Prod.fst
  alone : ∀ h m, (h, m) ∈ t.registered →
    t.results h = (Job.effects h.settings m (t.jobs h)).1 ∧
    t.host.registry.machine? h.id = some (Job.effects h.settings m (t.jobs h)).2

namespace Sound

theorem start : ({} : Turns α).Sound where
  ids := rfl
  size := rfl
  owner := rfl
  known := by simp [calls]
  alone := by simp

theorem id_le (hs : t.Sound) {h : Handle} (hh : h ∈ t.registered.map Prod.fst) :
    h.id ≤ t.host.registry.size := by
  have hid : h.id ∈ t.registered.map (·.1.id) := by
    obtain ⟨p, hp, rfl⟩ := List.mem_map.1 hh
    exact List.mem_map.2 ⟨p, hp, rfl⟩
  rw [hs.ids, List.mem_range'_1] at hid
  rw [hs.size]
  omega

/-- No two handles have one number. -/
theorem eq_of_id (hs : t.Sound) {p q : Handle × Machine} (hp : p ∈ t.registered)
    (hq : q ∈ t.registered) (h : p.1.id = q.1.id) : p = q := by
  have hnodup : (t.registered.map (·.1.id)).Nodup := by
    rw [hs.ids]
    exact List.nodup_range'
  exact List.inj_on_of_nodup_map hnodup hp hq h

theorem register (hs : t.Sound) (name : String) (m : Machine) (settings : Settings) {log : Log} :
    Sound { t with
      host := ⟨(t.host.registry.register name m settings).2, log⟩
      registered := t.registered ++ [((t.host.registry.register name m settings).1, m)] } where
  ids := by
    rw [List.map_append, hs.ids, List.length_append, List.range'_append_1.symm]
    simp [Registry.register, hs.size, Nat.add_comm]
  size := by simp [Registry.size_register, hs.size]
  owner := hs.owner
  known c hc := by
    rw [List.map_append]
    exact List.mem_append_left _ (hs.known c hc)
  alone h k hk := by
    rcases List.mem_append.1 hk with hold | hnew
    · have hle := hs.id_le (List.mem_map_of_mem hold)
      obtain ⟨hresults, hmachine⟩ := hs.alone h k hold
      exact ⟨hresults, (Registry.machine?_register_of_le hle name m settings).trans hmachine⟩
    · obtain ⟨rfl, rfl⟩ := Prod.mk.inj (List.mem_singleton.1 hnew)
      -- nothing has been asked of a handle before it is given out
      have hnone : t.finished.filter
          (·.1.handle = (t.host.registry.register name k settings).1) = [] := by
        refine List.filter_eq_nil_iff.2 fun c hc heq => ?_
        have hknown := hs.known c.1 (by simp [calls, List.mem_map_of_mem hc])
        rw [of_decide_eq_true heq] at hknown
        exact Nat.not_succ_le_self _ (hs.id_le hknown)
      unfold results jobs
      rw [hnone]
      exact ⟨rfl, t.host.registry.machine?_register name k settings⟩

theorem ask (hs : t.Sound) {c : Call α} (hc : c.handle ∈ t.registered.map Prod.fst) :
    Sound { t with waiting := t.waiting ++ [c] } where
  ids := hs.ids
  size := hs.size
  owner := hs.owner
  known d hd := by
    rw [calls_ask] at hd
    rcases List.mem_append.1 hd with hold | hnew
    · exact hs.known d hold
    · rwa [List.mem_singleton.1 hnew]
  alone := hs.alone

theorem enter (hs : t.Sound) {i : Nat} {c : Call α} (hfree : t.host.registry.owner = none)
    (hc : t.waiting[i]? = some c) :
    Sound { t with
      host := { t.host with registry := t.host.registry.acquire c.handle }
      waiting := t.waiting.eraseIdx i
      working := some c } where
  ids := hs.ids
  size := hs.size
  owner := rfl
  known d hd := by
    refine hs.known d ((calls_enter ?_ hc _).mem_iff.1 hd)
    simpa [hs.owner] using hfree
  alone := hs.alone

theorem finish (hs : t.Sound) {c : Call α} (hc : t.working = some c) {host : Host}
    {result : Except HostError (Answer α)} (hrun : (c.job.action c.handle).run t.host = (result, host)) :
    Sound { t with host, working := none, finished := t.finished ++ [(c, result)] } := by
  have hknown := hs.known c (by simp [calls, hc])
  obtain ⟨⟨_, m⟩, hp, rfl⟩ := List.mem_map.1 hknown
  obtain ⟨hresults, hmachine⟩ := hs.alone _ _ hp
  obtain ⟨log, heffect⟩ := Handle.action_run c.job hmachine
  obtain ⟨rfl, rfl⟩ := Prod.mk.inj (heffect.symm.trans hrun)
  constructor
  case ids => exact hs.ids
  case size => exact (Registry.size_put _ _ _).trans hs.size
  case owner => rfl
  case known => exact fun d hd => hs.known d (calls_finish hc ▸ hd)
  case alone =>
    intro h k hk
    rw [jobs_finish, results_finish]
    have hput (n : Machine) := Registry.machine?_put hmachine n h.id
    rcases eq_or_ne c.handle h with rfl | hne
    · obtain rfl : k = m := (Prod.mk.inj (hs.eq_of_id hk hp rfl)).2
      rw [if_pos rfl, if_pos rfl, Job.effects_snoc, hresults]
      exact ⟨rfl, (hput _).trans (if_pos rfl)⟩
    · have hid : h.id ≠ c.handle.id := fun heq =>
        hne (congrArg Prod.fst (hs.eq_of_id hk hp heq)).symm
      obtain ⟨hresults', hmachine'⟩ := hs.alone h k hk
      rw [if_neg hne, if_neg hne, List.append_nil, List.append_nil]
      exact ⟨hresults', ((hput _).trans (if_neg hid)).trans hmachine'⟩

/-- Any move keeps what holds. -/
theorem step (hs : t.Sound) {move : Move α} (h : t.step? move = some u) : u.Sound := by
  cases move with
  | register name m settings =>
    obtain ⟨log, rfl⟩ := step_register h
    exact hs.register name m settings
  | ask c =>
    obtain ⟨hc, rfl⟩ := step_ask h
    exact hs.ask hc
  | enter i =>
    obtain ⟨c, hfree, hc, rfl⟩ := step_enter h
    exact hs.enter hfree hc
  | finish =>
    obtain ⟨c, result, host, hc, hrun, rfl⟩ := step_finish h
    exact hs.finish hc hrun

/-- Jobs that were done on one handle of many are done alike on a handle of any host. -/
theorem perform (hs : t.Sound) {h g : Handle} {m : Machine} (hm : (h, m) ∈ t.registered)
    (hsettings : g.settings = h.settings) {host : Host} (hg : host.registry.machine? g.id = some m) :
    ∃ after, (g.perform (t.jobs h)).run host = (.ok (t.results h), after) ∧
      after.registry.machine? g.id = t.host.registry.machine? h.id := by
  obtain ⟨after, hrun, hlast⟩ := Handle.perform_run (t.jobs h) hg
  obtain ⟨hresults, hmachine⟩ := hs.alone h m hm
  rw [hsettings] at hrun hlast
  exact ⟨after, by rw [hresults, hrun], hlast.trans hmachine.symm⟩

end Sound

end Turns

namespace Move

def registration? : Move α → Option (String × Machine × Settings)
  | register name m settings => some (name, m, settings)
  | _ => none

def call? : Move α → Option (Call α)
  | ask c => some c
  | _ => none

theorem filterMap_snoc {β : Type} (f : Move α → Option β) (past : List (Move α)) (move : Move α) :
    (past ++ [move]).filterMap f = past.filterMap f ++ (f move).toList := by
  rw [List.filterMap_append, List.filterMap_cons]
  cases f move <;> rfl

end Move

namespace Turns

variable {t u : Turns α} {past moves : List (Move α)}

def registration (p : Handle × Machine) : String × Machine × Settings :=
  (p.1.name, p.2, p.1.settings)

/-- What is known after some moves. -/
structure Follows (moves : List (Move α)) (t : Turns α) : Prop where
  sound : t.Sound
  registered : t.registered.map registration = moves.filterMap Move.registration?
  calls : t.calls.Perm (moves.filterMap Move.call?)

namespace Follows

theorem start : ({} : Turns α).Follows [] := ⟨.start, rfl, .nil⟩

theorem step (hf : t.Follows past) {move : Move α} (h : t.step? move = some u) :
    u.Follows (past ++ [move]) := by
  have hsound := hf.sound.step h
  have hregistered := hf.registered
  have hcalls := hf.calls
  refine ⟨hsound, ?_, ?_⟩ <;> rw [Move.filterMap_snoc]
  case refine_1 =>
    cases move with
    | register name m settings =>
      obtain ⟨log, rfl⟩ := step_register h
      rw [List.map_append, hregistered]
      rfl
    | ask c =>
      obtain ⟨-, rfl⟩ := step_ask h
      simpa [Move.registration?] using hregistered
    | enter i =>
      obtain ⟨c, -, -, rfl⟩ := step_enter h
      simpa [Move.registration?] using hregistered
    | finish =>
      obtain ⟨c, result, host, -, -, rfl⟩ := step_finish h
      simpa [Move.registration?] using hregistered
  case refine_2 =>
    cases move with
    | register name m settings =>
      obtain ⟨log, rfl⟩ := step_register h
      simpa [Move.call?, Turns.calls] using hcalls
    | ask c =>
      obtain ⟨-, rfl⟩ := step_ask h
      rw [calls_ask]
      exact hcalls.append_right [c]
    | enter i =>
      obtain ⟨c, hfree, hc, rfl⟩ := step_enter h
      have hworking : t.working = none := by simpa [hf.sound.owner] using hfree
      simpa [Move.call?] using (calls_enter hworking hc
        { t.host with registry := t.host.registry.acquire c.handle }).trans hcalls
    | finish =>
      obtain ⟨c, result, host, hc, -, rfl⟩ := step_finish h
      rw [calls_finish hc]
      simpa [Move.call?] using hcalls

theorem play (hf : t.Follows past) (h : t.play moves = some u) : u.Follows (past ++ moves) := by
  induction moves generalizing t past with
  | nil =>
    obtain rfl := Option.some.inj h
    rwa [List.append_nil]
  | cons move moves ih =>
    obtain ⟨next, hstep, hrest⟩ := Option.bind_eq_some_iff.1 h
    rw [List.append_cons]
    exact ih (hf.step hstep) hrest

end Follows

/-- Handles that are used side by side do not notice each other. -/
structure Isolated (moves : List (Move α)) (t : Turns α) : Prop where
  /-- The handles are those that were registered, and are numbered in that order. -/
  registered : t.registered.map registration = moves.filterMap Move.registration?
  numbered : (t.registered.map (·.1.id)).Pairwise (· < ·)
  size : t.host.registry.size = (moves.filterMap Move.registration?).length
  /-- No call is lost. -/
  calls : t.calls.Perm (moves.filterMap Move.call?)
  /-- The engine is held for the call that is being served, and by nobody after that, whatever became
  of the call. -/
  owner : t.host.registry.owner = t.working.map (·.handle.id)
  released : ∀ u, t.step? .finish = some u → u.working = none ∧ u.host.registry.owner = none
  /-- The call that is being served can be finished, or any that waits can be served. -/
  proceeds : (t.step? .finish).isSome ∨ ∀ i < t.waiting.length, (t.step? (.enter i)).isSome
  /-- What was done on a handle is what its jobs do alone, on its first machine with its settings, in
  whatever host. -/
  alone : ∀ h m, (h, m) ∈ t.registered → ∀ (g : Handle) (host : Host), g.settings = h.settings →
    host.registry.machine? g.id = some m →
    ∃ after, (g.perform (t.jobs h)).run host = (.ok (t.results h), after) ∧
      after.registry.machine? g.id = t.host.registry.machine? h.id
  /-- Nothing but the jobs of a handle counts. -/
  commutes : ∀ moves' u, ({} : Turns α).play moves' = some u → ∀ h g m, (h, m) ∈ t.registered →
    (g, m) ∈ u.registered → g.settings = h.settings → u.jobs g = t.jobs h →
    u.results g = t.results h ∧ u.host.registry.machine? g.id = t.host.registry.machine? h.id

theorem play_isolated (h : ({} : Turns α).play moves = some t) : t.Isolated moves := by
  have hf : t.Follows moves := Follows.start.play h
  have hs := hf.sound
  constructor
  case registered => exact hf.registered
  case numbered =>
    rw [hs.ids]
    exact List.pairwise_lt_range'
  case size => rw [hs.size, ← hf.registered, List.length_map]
  case calls => exact hf.calls
  case owner => exact hs.owner
  case released =>
    intro u hu
    obtain ⟨c, result, host, -, -, rfl⟩ := step_finish hu
    exact ⟨rfl, (hs.step hu).owner⟩
  case proceeds =>
    cases hw : t.working with
    | some c =>
      left
      rw [step?, hw]
      rfl
    | none =>
      right
      intro i hi
      have hfree : t.host.registry.owner = none := by rw [hs.owner, hw]; rfl
      simp [step?, hfree, hi]
  case alone => exact fun h m hm g host hsettings hg => hs.perform hm hsettings hg
  case commutes =>
    intro moves' u hu h g m hm hg hsettings hjobs
    obtain ⟨hresults, hmachine⟩ := hs.alone h m hm
    obtain ⟨hresults', hmachine'⟩ := (Follows.start.play hu).sound.alone g m hg
    rw [hsettings, hjobs] at hresults' hmachine'
    exact ⟨hresults'.trans hresults.symm, hmachine'.trans hmachine.symm⟩

/-- Steps asked of two handles before either is served, work that breaks off, a handle that comes
later, and a document that is no machine. -/
def crossed : List (Move Unit) :=
  let ones : Handle := ⟨"ones", 1, .execute⟩
  let twos : Handle := ⟨"twos", 2, .execute⟩
  [.register "ones" (.ofCode [1]) .execute, .register "twos" (.ofCode [2]) .execute,
    .ask ⟨ones, .runAsync true⟩, .ask ⟨twos, .runAsync true⟩, .enter 1,
    .ask ⟨ones, .invoke fun m => (none, m.setBreakpoint 7)⟩, .finish, .enter 1, .finish,
    .register "late" (.ofCode []) .execute, .ask ⟨twos, .restore .null⟩, .enter 1, .finish,
    .enter 0, .finish]

theorem crossed_isolated : ∃ t, ({} : Turns Unit).play crossed = some t ∧
    t.registered.map (·.1.id) = [1, 2, 3] ∧ t.finished.map (·.1.handle.id) = [2, 1, 2, 1] ∧
    t.host.registry.owner = none ∧ t.Isolated crossed :=
  ⟨_, rfl, rfl, rfl, rfl, play_isolated rfl⟩

end Turns

end LongMode
