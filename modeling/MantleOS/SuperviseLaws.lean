-- The laws of the supervisor. They hold in every run, whatever happens
-- elsewhere and when: a service has at most one process, there is at most one
-- session, and a session that is stopped also stops the care for the services.
import MantleOS.Supervise

open runs

namespace mantle.supervise

variable {fails : Bool} {s t : State} {e : event} {es : List event}

/-! ## What happens elsewhere -/

/-- What happens elsewhere leaves the supervisor and its files as they are, and a process that it
has forked keeps its role, and stays until the supervisor waits for it. -/
structure Leaves (s t : State) : Prop where
  pc : t.pc = s.pc
  pid_file : t.pid_file = s.pid_file
  session_pid : t.session_pid = s.session_pid
  came : ∀ p proc, t.procs p = some proc → proc.role = .other ∨
    ∃ before, s.procs p = some before ∧ before.role = proc.role ∧
      (before.child = true → proc.child = true)
  stays : ∀ p before, s.procs p = some before → before.role ≠ .other →
    ∃ proc, t.procs p = some proc ∧ proc.role = before.role
  dead : ∀ p before, s.procs p = some before → before.role ≠ .other → before.alive = false →
    before.child = true → t.procs p = some before

theorem Leaves.of_procs (hpc : t.pc = s.pc) (hpid : t.pid_file = s.pid_file)
    (hsession : t.session_pid = s.session_pid) (hprocs : t.procs = s.procs) : Leaves s t where
  pc := hpc
  pid_file := hpid
  session_pid := hsession
  came := fun p proc hp => .inr ⟨proc, by rw [← hprocs, hp], rfl, id⟩
  stays := fun p before hp _ => ⟨before, by rw [hprocs, hp], rfl⟩
  dead := fun p before hp _ _ _ => by rw [hprocs, hp]

/-- One process is put in the place of another, or goes. -/
theorem Leaves.of_set {p : Nat} {proc : Option process}
    (hcame : ∀ after, proc = some after → after.role = .other ∨
      ∃ before, s.procs p = some before ∧ before.role = after.role ∧
        (before.child = true → after.child = true))
    (hstays : ∀ before, s.procs p = some before → before.role ≠ .other →
      (∃ after, proc = some after ∧ after.role = before.role) ∧
        (before.alive = false → before.child = true → proc = some before)) :
    Leaves s (s.set p proc) where
  pc := rfl
  pid_file := rfl
  session_pid := rfl
  came := by
    intro q after hq
    simp only [State.set] at hq
    split at hq
    · rename_i heq
      subst heq
      exact hcame after hq
    · exact .inr ⟨after, hq, rfl, id⟩
  stays := by
    intro q before hq hrole
    simp only [State.set]
    split
    · rename_i heq
      subst heq
      exact (hstays before hq hrole).1
    · exact ⟨before, hq, rfl⟩
  dead := by
    intro q before hq hrole halive hchild
    simp only [State.set]
    split
    · rename_i heq
      subst heq
      exact (hstays before hq hrole).2 halive hchild
    · exact hq

theorem Elsewhere.leaves {a : elsewhere} (h : Elsewhere s a t) : Leaves s t := by
  cases h with
  | spawn hfree =>
    refine Leaves.of_set ?_ fun before hbefore => ?_
    · intro after hafter
      cases hafter
      exact .inl rfl
    · rw [hfree.2] at hbefore
      cases hbefore
  | @exit p proc hp halive =>
    refine Leaves.of_set ?_ fun before hbefore _ => ?_
    · intro after hafter
      cases hafter
      exact .inr ⟨proc, hp, rfl, id⟩
    · rw [hp] at hbefore
      cases hbefore
      exact ⟨⟨_, rfl, rfl⟩, fun hdead => by rw [halive] at hdead; cases hdead⟩
  | @orphan p proc hp =>
    refine Leaves.of_set ?_ fun before hbefore _ => ?_
    · intro after hafter
      cases hafter
      exact .inr ⟨proc, hp, rfl, fun _ => rfl⟩
    · rw [hp] at hbefore
      cases hbefore
      refine ⟨⟨_, rfl, rfl⟩, fun _ hchild => ?_⟩
      rw [← hchild]
  | @collect p proc hp hrole _ _ =>
    refine Leaves.of_set (by simp) fun before hbefore hother => ?_
    rw [hp] at hbefore
    cases hbefore
    exact absurd hrole hother
  | stop => exact Leaves.of_procs rfl rfl rfl rfl
  | start => exact Leaves.of_procs rfl rfl rfl rfl
  | ready => exact Leaves.of_procs rfl rfl rfl rfl
  | sigterm => exact Leaves.of_procs rfl rfl rfl rfl

/-! ## One process for each service -/

/-- The process that the supervisor takes for a service. -/
def State.owner (s : State) (name : service) : Option Nat :=
  match s.pc with
  | .forking _ other => if name = other then none else some (s.pid_file name)
  | .writing _ other p => if name = other then some p else some (s.pid_file name)
  | _ => some (s.pid_file name)

/-- The processes of a service are the one that the supervisor takes for it. -/
def Owned (s : State) : Prop :=
  ∀ p proc name, s.procs p = some proc → proc.role = .service name →
    0 < p ∧ proc.child = true ∧ s.owner name = some p

theorem owner_after_ensure (s : State) (x : site) (other name : service) :
    ({ s with pc := after_ensure x other } : State).owner name = some (s.pid_file name) := by
  cases x <;> cases other <;> rfl

theorem owner_after_check (s : State) (k : Nat) (ok : Bool) (name : service) :
    ({ s with pc := after_check k ok } : State).owner name = some (s.pid_file name) := by
  unfold after_check
  split <;> rfl

theorem owner_after_marker (s : State) (m : marker) (name : service) :
    ({ s with pc := after_marker m } : State).owner name = some (s.pid_file name) := by
  cases m <;> rfl

/-- A move keeps the process of a service that exists. -/
theorem Move.owner {pc : point} {name : service} {p : Nat} (h : Move false s e pc)
    (howner : s.owner name = some p) (hp : s.Exists p) :
    ({ s with pc } : State).owner name = some p := by
  have hplain : ∀ pt, s.pc = pt → (match pt with
      | .forking _ _ => False
      | .writing _ _ _ => False
      | _ => True) → s.pid_file name = p := by
    intro pt hpt hplain
    unfold State.owner at howner
    rw [hpt] at howner
    cases pt <;> first | exact absurd hplain id | exact Option.some.inj howner
  cases h with
  | splash_wait hpc | splash_over hpc | ready_log hpc | ready_network hpc | ready_file hpc
  | no_log hpc | no_network hpc | no_file hpc | ready_over hpc | again hpc | loop_over hpc | stopped hpc
  | wanted hpc | session_fails hpc | no_session_file hpc | nobody_ended hpc | interrupted hpc
  | no_child hpc => exact congrArg some (hplain _ hpc trivial)
  | print hpc | no_port hpc => rw [owner_after_marker, hplain _ hpc trivial]
  | check_fails hpc => rw [owner_after_check, hplain _ hpc trivial]
  | keep hpc => rw [owner_after_ensure, hplain _ hpc trivial]
  | @miss x other hpc hmiss =>
    have hfile := hplain _ hpc trivial
    simp only [State.owner]
    rw [if_neg, hfile]
    rintro rfl
    rw [hfile] at hmiss
    exact hmiss hp
  | @fork_fails x other hpc =>
    unfold State.owner at howner
    rw [hpc] at howner
    rw [owner_after_ensure]
    dsimp only at howner
    split at howner
    · cases howner
    · exact howner
  | write_fails hfails => cases hfails

/-- At any other point the file of a service says which process it is. -/
theorem owner_of_pc {name : service} (hpc : ∀ x other, s.pc ≠ .forking x other)
    (hpc' : ∀ x other p, s.pc ≠ .writing x other p) : s.owner name = some (s.pid_file name) := by
  unfold State.owner
  split
  · rename_i x other heq
    exact absurd heq (hpc x other)
  · rename_i x other p heq
    exact absurd heq (hpc' x other p)
  · rfl

/-- A process that comes or goes leaves the processes of the services, when it is of none. -/
theorem Owned.set {p : Nat} {proc : Option process} {pc : point} (h : Owned s)
    (hrole : ∀ after, proc = some after → ∀ name, after.role ≠ .service name)
    (howner : ∀ q name, s.owner name = some q →
      ({ s.set p proc with pc } : State).owner name = some q) :
    Owned { s.set p proc with pc } := by
  intro q after name hq hname
  simp only [State.set] at hq
  split at hq
  · exact absurd hname (hrole after hq name)
  · obtain ⟨hpos, hchild, hown⟩ := h q after name hq hname
    exact ⟨hpos, hchild, howner q name hown⟩

theorem Step.owned (h : Step false s e t) (hs : Owned s) : Owned t := by
  cases h with
  | move hmove =>
    intro p proc name hp hname
    obtain ⟨hpos, hchild, hown⟩ := hs p proc name hp hname
    refine ⟨hpos, hchild, hmove.owner hown ⟨hpos, ?_⟩⟩
    change s.procs p = some proc at hp
    simp [hp]
  | @check k p hpc hfree =>
    refine hs.set (by rintro after ⟨⟩ name; simp [forked]) fun q name hown => ?_
    rw [owner_of_pc (by simp [hpc]) (by simp [hpc])] at hown
    exact hown
  | @check_done k p ok hpc hended =>
    refine hs.set (by simp) fun q name hown => ?_
    rw [owner_of_pc (by simp [hpc]) (by simp [hpc])] at hown
    rw [owner_after_check]
    exact hown
  | @fork x other p hpc hfree =>
    intro q proc name hq hname
    simp only [State.set] at hq
    split at hq
    · rename_i heq
      cases hq
      subst heq
      simp only [forked, role.service.injEq] at hname
      refine ⟨by have := hfree.1; omega, rfl, ?_⟩
      simp only [State.owner, hname, if_true]
    · obtain ⟨hpos, hchild, hown⟩ := hs q proc name hq hname
      refine ⟨hpos, hchild, ?_⟩
      unfold State.owner at hown ⊢
      rw [hpc] at hown
      dsimp only at hown ⊢
      split at hown
      · cases hown
      · rename_i hne
        rw [if_neg hne]
        exact hown
  | @write x other p hpc =>
    intro q proc name hq hname
    obtain ⟨hpos, hchild, hown⟩ := hs q proc name hq hname
    refine ⟨hpos, hchild, ?_⟩
    rw [owner_of_pc (by cases x <;> cases other <;> simp [after_ensure])
      (by cases x <;> cases other <;> simp [after_ensure])]
    unfold State.owner at hown
    rw [hpc] at hown
    dsimp only at hown ⊢
    split at hown
    · rename_i heq
      rw [if_pos heq]
      exact hown
    · rename_i hne
      rw [if_neg hne]
      exact hown
  | @session p hpc hfree =>
    refine hs.set (by rintro after ⟨⟩ name; simp [forked]) fun q name hown => ?_
    rw [owner_of_pc (by simp [hpc]) (by simp [hpc])] at hown
    exact hown
  | @session_file c hpc =>
    intro q proc name hq hname
    obtain ⟨hpos, hchild, hown⟩ := hs q proc name hq hname
    rw [owner_of_pc (by simp [hpc]) (by simp [hpc])] at hown
    exact ⟨hpos, hchild, hown⟩
  | @reap c p hpc hended =>
    refine hs.set (by simp) fun q name hown => ?_
    rw [owner_of_pc (by simp [hpc]) (by simp [hpc])] at hown
    rw [owner_of_pc (by simp only; split <;> simp) (by simp only; split <;> simp)]
    exact hown
  | session_over hpc | quit hpc =>
    intro q proc name hq hname
    obtain ⟨hpos, hchild, hown⟩ := hs q proc name hq hname
    rw [owner_of_pc (by simp [hpc]) (by simp [hpc])] at hown
    exact ⟨hpos, hchild, hown⟩
  | elsewhere ha =>
    have hleaves := ha.leaves
    intro q proc name hq hname
    obtain hother | ⟨before, hbefore, hrole, hstill⟩ := hleaves.came q proc hq
    · rw [hother] at hname
      cases hname
    · obtain ⟨hpos, hchild, hown⟩ := hs q before name hbefore (by rw [hrole, hname])
      refine ⟨hpos, hstill hchild, ?_⟩
      unfold State.owner at hown ⊢
      rw [hleaves.pc, hleaves.pid_file]
      exact hown

theorem Fresh.owned (h : Fresh s) : Owned s := by
  intro p proc name hp hname
  rw [h.procs p proc hp] at hname
  cases hname

theorem Reachable.owned (h : Reachable false s) : Owned s := by
  obtain ⟨first, es, hfirst, hrun⟩ := h
  exact hrun.invariant hfirst.owned fun _ _ _ hstep hs => Step.owned hstep hs

/-- Whatever comes and goes, and whenever, no service ever has two processes, as long as the
supervisor can write the files of their numbers. -/
theorem a_service_has_one_process (h : Reachable false s) {p q : Nat} {proc other : process}
    {name : service} (hp : s.procs p = some proc) (hq : s.procs q = some other)
    (hproc : proc.role = .service name) (hother : other.role = .service name) : p = q := by
  have hp_owner := (h.owned p proc name hp hproc).2.2
  have hq_owner := (h.owned q other name hq hother).2.2
  rw [hp_owner] at hq_owner
  exact Option.some.inj hq_owner

/-! ## One session at a time -/

def site.session_of : site → Option Nat
  | .session child => some child
  | _ => none

/-- The session that the supervisor has started and not yet waited for. -/
def point.session_of : point → Option Nat
  | .ensure x _ => x.session_of
  | .forking x _ => x.session_of
  | .writing x _ _ => x.session_of
  | .session_write child => some child
  | .session_wait child => some child
  | _ => none

structure Sessions (s : State) : Prop where
  here : ∀ p proc, s.procs p = some proc → proc.role = .session → s.pc.session_of = some p
  there : ∀ c, s.pc.session_of = some c →
    ∃ proc, s.procs c = some proc ∧ proc.role = .session ∧ proc.child = true
  file : s.session_pid ≠ 0 → s.pc.session_of = some s.session_pid ∨ s.pc = .session_end

theorem session_of_after_ensure (x : site) (name : service) :
    (after_ensure x name).session_of = x.session_of := by
  cases x <;> cases name <;> rfl

theorem session_of_after_check (k : Nat) (ok : Bool) : (after_check k ok).session_of = none := by
  unfold after_check
  split <;> rfl

theorem session_of_after_marker (m : marker) : (after_marker m).session_of = none := by
  cases m <;> rfl

/-- A move keeps the session, and the supervisor never finds itself without a child before the end
of the session. -/
theorem Move.session {pc : point} (h : Move fails s e pc) (hs : Sessions s) :
    pc.session_of = s.pc.session_of ∧ s.pc ≠ .session_end := by
  cases h with
  | splash_wait hpc | splash_over hpc | ready_log hpc | ready_network hpc | ready_file hpc
  | no_log hpc | no_network hpc | no_file hpc | ready_over hpc | again hpc | loop_over hpc | stopped hpc
  | wanted hpc | session_fails hpc | no_session_file hpc | nobody_ended hpc | interrupted hpc =>
    rw [hpc]
    exact ⟨rfl, by simp⟩
  | print hpc | no_port hpc =>
    rw [hpc, session_of_after_marker]
    exact ⟨rfl, by simp⟩
  | check_fails hpc =>
    rw [hpc, session_of_after_check]
    exact ⟨rfl, by simp⟩
  | keep hpc =>
    rw [hpc, session_of_after_ensure]
    exact ⟨rfl, by simp⟩
  | miss hpc =>
    rw [hpc]
    exact ⟨rfl, by simp⟩
  | fork_fails hpc =>
    rw [hpc, session_of_after_ensure]
    exact ⟨rfl, by simp⟩
  | write_fails _ hpc =>
    rw [hpc, session_of_after_ensure]
    exact ⟨rfl, by simp⟩
  | @no_child c hpc hnone =>
    obtain ⟨proc, hp, _, hchild⟩ := hs.there c (by rw [hpc]; rfl)
    rw [hnone c proc hp] at hchild
    cases hchild

/-- A process that is no session comes or goes. -/
theorem Sessions.set {p : Nat} {proc : Option process} {pc : point} (h : Sessions s)
    (hpc : pc.session_of = s.pc.session_of) (hend : s.pc ≠ .session_end)
    (hrole : ∀ after, proc = some after → after.role ≠ .session)
    (hbefore : ∀ before, s.procs p = some before → before.role ≠ .session) :
    Sessions { s.set p proc with pc } where
  here := by
    intro q after hq hsession
    simp only [State.set] at hq
    split at hq
    · exact absurd hsession (hrole after hq)
    · rw [hpc]
      exact h.here q after hq hsession
  there := by
    intro c hc
    dsimp only at hc
    rw [hpc] at hc
    obtain ⟨after, hc, hsession, hchild⟩ := h.there c hc
    refine ⟨after, ?_, hsession, hchild⟩
    simp only [State.set]
    rw [if_neg, hc]
    rintro rfl
    exact hbefore after hc hsession
  file := by
    intro hfile
    obtain hin | hat := h.file hfile
    · exact .inl (hpc.trans hin)
    · exact absurd hat hend

theorem Step.sessions (h : Step fails s e t) (hs : Sessions s) : Sessions t := by
  cases h with
  | move hmove =>
    obtain ⟨hsame, hend⟩ := hmove.session hs
    refine ⟨?_, ?_, ?_⟩
    · intro p proc hp hsession
      rw [hsame]
      exact hs.here p proc hp hsession
    · intro c hc
      dsimp only at hc
      rw [hsame] at hc
      exact hs.there c hc
    · intro hfile
      obtain hin | hat := hs.file hfile
      · exact .inl (hsame.trans hin)
      · exact absurd hat hend
  | @check k p hpc hfree =>
    refine hs.set (by rw [hpc]; rfl) (by simp [hpc]) (by rintro after ⟨⟩; simp [forked]) ?_
    rintro before hbefore
    rw [hfree.2] at hbefore
    cases hbefore
  | @check_done k p ok hpc hended =>
    refine hs.set (by rw [hpc, session_of_after_check]; rfl) (by simp [hpc]) (by simp) ?_
    intro before hbefore hsession
    have hin := hs.here p before hbefore hsession
    rw [hpc] at hin
    cases hin
  | @fork x name p hpc hfree =>
    refine hs.set (by rw [hpc]; rfl) (by simp [hpc]) (by rintro after ⟨⟩; simp [forked]) ?_
    rintro before hbefore
    rw [hfree.2] at hbefore
    cases hbefore
  | @write x name p hpc =>
    have hsame : (after_ensure x name).session_of = s.pc.session_of := by
      rw [session_of_after_ensure, hpc]
      rfl
    refine ⟨?_, ?_, ?_⟩
    · intro q proc hq hsession
      exact hsame.trans (hs.here q proc hq hsession)
    · intro c hc
      exact hs.there c (hsame.symm.trans hc)
    · intro hfile
      obtain hin | hat := hs.file hfile
      · exact .inl (hsame.trans hin)
      · rw [hpc] at hat
        cases hat
  | @session p hpc hfree =>
    refine ⟨?_, ?_, ?_⟩
    · intro q proc hq hsession
      simp only [State.set] at hq
      split at hq
      · rename_i heq
        subst heq
        rfl
      · have hin := hs.here q proc hq hsession
        rw [hpc] at hin
        cases hin
    · intro c hc
      cases hc
      exact ⟨forked .session, by simp [State.set], rfl, rfl⟩
    · intro hfile
      obtain hin | hat := hs.file hfile
      · rw [hpc] at hin
        cases hin
      · rw [hpc] at hat
        cases hat
  | @session_file c hpc =>
    have hsame : (point.session_wait c).session_of = s.pc.session_of := by
      rw [hpc]
      rfl
    refine ⟨?_, ?_, ?_⟩
    · intro q proc hq hsession
      exact hsame.trans (hs.here q proc hq hsession)
    · intro d hd
      exact hs.there d (hsame.symm.trans hd)
    · intro _
      exact .inl rfl
  | @reap c p hpc hended =>
    by_cases heq : p = c
    · subst heq
      rw [if_pos rfl]
      refine ⟨?_, by simp [point.session_of], fun _ => .inr rfl⟩
      intro q proc hq hsession
      simp only [State.set] at hq
      split at hq
      · cases hq
      · rename_i hne
        have hin := hs.here q proc hq hsession
        rw [hpc] at hin
        cases hin
        exact absurd rfl hne
    · rw [if_neg heq]
      refine hs.set (by rw [hpc]; rfl) (by simp [hpc]) (by simp) ?_
      intro before hbefore hsession
      have hin := hs.here p before hbefore hsession
      rw [hpc] at hin
      cases hin
      exact heq rfl
  | session_over hpc | quit hpc =>
    refine ⟨?_, by simp [point.session_of], fun h => absurd rfl h⟩
    intro q proc hq hsession
    have hin := hs.here q proc hq hsession
    rw [hpc] at hin
    cases hin
  | elsewhere ha =>
    have hleaves := ha.leaves
    refine ⟨?_, ?_, ?_⟩
    · intro q proc hq hsession
      rw [hleaves.pc]
      obtain hother | ⟨before, hbefore, hrole, _⟩ := hleaves.came q proc hq
      · rw [hother] at hsession
        cases hsession
      · exact hs.here q before hbefore (by rw [hrole, hsession])
    · intro c hc
      rw [hleaves.pc] at hc
      obtain ⟨before, hbefore, hsession, hchild⟩ := hs.there c hc
      obtain ⟨proc, hp, hrole⟩ := hleaves.stays c before hbefore (by simp [hsession])
      refine ⟨proc, hp, by rw [hrole, hsession], ?_⟩
      obtain hother | ⟨same, hsame, _, hstill⟩ := hleaves.came c proc hp
      · rw [hother, hsession] at hrole
        cases hrole
      · rw [hsame] at hbefore
        cases hbefore
        exact hstill hchild
    · intro hfile
      rw [hleaves.session_pid] at hfile ⊢
      rw [hleaves.pc]
      exact hs.file hfile

theorem Fresh.sessions (h : Fresh s) : Sessions s where
  here := by
    intro p proc hp hsession
    rw [h.procs p proc hp] at hsession
    cases hsession
  there := by
    intro c hc
    rw [h.pc] at hc
    cases hc
  file := fun hfile => absurd h.session_pid hfile

theorem Reachable.sessions (h : Reachable fails s) : Sessions s := by
  obtain ⟨first, es, hfirst, hrun⟩ := h
  exact hrun.invariant hfirst.sessions fun _ _ _ hstep hs => Step.sessions hstep hs

theorem Elsewhere.stop_file {a : elsewhere} (h : Elsewhere s a t) (ha : a ≠ .start)
    (hs : s.stop_file = true) : t.stop_file = true := by
  cases h with
  | spawn | exit | orphan | collect | ready | sigterm => exact hs
  | stop => rfl
  | start => exact absurd rfl ha

/-- Only the step that puts the file away makes it go. -/
theorem Step.stop_file (h : Step fails s e t) (he : e ≠ .elsewhere .start)
    (hs : s.stop_file = true) : t.stop_file = true := by
  cases h with
  | elsewhere ha => exact ha.stop_file (fun heq => he (by rw [heq])) hs
  | move | check | check_done | fork | write | session | session_file | reap | session_over
  | quit => exact hs

/-- Whether the supervisor is past its look at the file and has yet to start the session. -/
def State.pending (s : State) : Nat := if s.pc = .session_fork then 1 else 0

def event.starts_session : event → Bool
  | .session _ => true
  | _ => false

theorem pending_of_pc (ht : t.pc ≠ .session_fork) (he : e.starts_session = false) :
    t.pending + (if e.starts_session then 1 else 0) ≤ s.pending := by
  unfold State.pending
  rw [if_neg ht, he]
  simp

theorem after_ensure_ne (x : site) (name : service) : after_ensure x name ≠ .session_fork := by
  cases x <;> cases name <;> simp [after_ensure]

theorem after_check_ne (k : Nat) (ok : Bool) : after_check k ok ≠ .session_fork := by
  unfold after_check
  split <;> simp

theorem after_marker_ne (m : marker) : after_marker m ≠ .session_fork := by
  cases m <;> simp [after_marker]

theorem Move.pending {pc : point} (h : Move fails s e pc) (hs : s.stop_file = true) :
    pc ≠ .session_fork ∧ e.starts_session = false := by
  cases h with
  | splash_wait | splash_over | ready_log | ready_network | ready_file | no_log | no_network
  | no_file | ready_over | miss | again | loop_over | stopped | session_fails | no_session_file
  | nobody_ended | interrupted | no_child => exact ⟨by simp, rfl⟩
  | print | no_port => exact ⟨after_marker_ne _, rfl⟩
  | check_fails => exact ⟨after_check_ne _ _, rfl⟩
  | keep | fork_fails | write_fails => exact ⟨after_ensure_ne _ _, rfl⟩
  | wanted _ hfile =>
    rw [hs] at hfile
    cases hfile

theorem Step.pending (h : Step fails s e t) (hs : s.stop_file = true) :
    t.pending + (if e.starts_session then 1 else 0) ≤ s.pending := by
  cases h with
  | move hmove =>
    obtain ⟨hpc, he⟩ := hmove.pending hs
    exact pending_of_pc hpc he
  | check | fork | session_file | session_over | quit => exact pending_of_pc (by simp) rfl
  | check_done => exact pending_of_pc (after_check_ne _ _) rfl
  | write => exact pending_of_pc (after_ensure_ne _ _) rfl
  | reap => exact pending_of_pc (by dsimp only; split <;> simp) rfl
  | session hpc _ => simp [event.starts_session, State.pending, hpc]
  | elsewhere ha =>
    unfold State.pending
    rw [ha.leaves.pc]
    simp [event.starts_session]

/-- As long as the file of `mantlectl stop` is there, the supervisor starts at most one session,
and none when it has not already looked for the file. -/
theorem a_stopped_supervisor_starts_at_most_one_session (hs : s.stop_file = true)
    (hrun : Run (Step fails) s es t) (hstart : .elsewhere .start ∉ es) :
    es.countP event.starts_session ≤ 1 ∧
      (s.pc ≠ .session_fork → es.countP event.starts_session = 0) := by
  have hcount := (hrun.counts (P := fun s => s.stop_file = true) (Q := (· ≠ .elsewhere .start))
    (f := State.pending) (p := event.starts_session) hs
    (fun e he heq => hstart (heq ▸ he))
    fun _ _ _ hstep he hs => ⟨hstep.stop_file he hs, hstep.pending hs⟩).2
  have hle : s.pending ≤ 1 := by
    unfold State.pending
    split <;> omega
  refine ⟨by omega, fun hpc => ?_⟩
  have hzero : s.pending = 0 := by
    unfold State.pending
    rw [if_neg hpc]
  omega

/-- The supervisor is in the part of its loop that it does not leave while the file is there. -/
def Parked (s : State) : Prop :=
  s.stop_file = true ∧
    match s.pc with
    | .head | .stop_test | .finish | .exited => True
    | .ensure x _ | .forking x _ | .writing x _ _ => x = .head
    | _ => False

/-- What the supervisor does there: it waits for no process, and it forks no process for a service
that has one, ended or not. -/
def event.Idle (name : service) (e : event) : Prop :=
  (∀ p, e ≠ .started name p) ∧ ∀ p, e ≠ .reaped p

theorem parked_after_ensure (name : service) {x : site} (hx : x = .head)
    (hs : s.stop_file = true) : Parked { s with pc := after_ensure x name } := by
  subst hx
  refine ⟨hs, ?_⟩
  cases name with
  | log => exact rfl
  | network => trivial

theorem Move.parked {pc : point} (h : Move fails s e pc) (hs : Parked s) :
    Parked { s with pc } ∧ e = .silent := by
  obtain ⟨hfile, hpoint⟩ := hs
  cases h with
  | again _ _ => exact ⟨⟨hfile, rfl⟩, rfl⟩
  | loop_over _ _ => exact ⟨⟨hfile, trivial⟩, rfl⟩
  | stopped _ _ => exact ⟨⟨hfile, trivial⟩, rfl⟩
  | wanted _ hgone =>
    rw [hfile] at hgone
    cases hgone
  | keep hpc _ =>
    rw [hpc] at hpoint
    exact ⟨parked_after_ensure _ hpoint hfile, rfl⟩
  | miss hpc _ =>
    rw [hpc] at hpoint
    exact ⟨⟨hfile, hpoint⟩, rfl⟩
  | fork_fails hpc =>
    rw [hpc] at hpoint
    exact ⟨parked_after_ensure _ hpoint hfile, rfl⟩
  | write_fails _ hpc =>
    rw [hpc] at hpoint
    exact ⟨parked_after_ensure _ hpoint hfile, rfl⟩
  | splash_wait hpc | splash_over hpc | ready_log hpc | ready_network hpc | ready_file hpc
  | no_log hpc | no_network hpc | no_file hpc | ready_over hpc | print hpc | no_port hpc
  | check_fails hpc | session_fails hpc | no_session_file hpc | nobody_ended hpc | interrupted hpc
  | no_child hpc =>
    rw [hpc] at hpoint
    cases hpoint

/-- A dead process of a service is left as it is. -/
theorem Step.parked {name : service} {p : Nat} {proc : process} (h : Step false s e t)
    (he : e ≠ .elsewhere .start) (hs : Parked s) (howned : Owned s) (hp : s.procs p = some proc)
    (hrole : proc.role = .service name) (hdead : proc.alive = false) :
    (Parked t ∧ t.procs p = some proc) ∧ e.Idle name := by
  have hset : ∀ (q : Nat) (after : Option process) (pc : point), s.Free q →
      ({ s.set q after with pc } : State).procs p = some proc := by
    intro q after pc hfree
    simp only [State.set]
    rw [if_neg, hp]
    rintro rfl
    rw [hfree.2] at hp
    cases hp
  cases h with
  | move hmove =>
    obtain ⟨hparked, rfl⟩ := hmove.parked hs
    exact ⟨⟨hparked, hp⟩, by simp [event.Idle]⟩
  | @fork x other q hpc hfree =>
    obtain ⟨hfile, hpoint⟩ := hs
    rw [hpc] at hpoint
    refine ⟨⟨⟨hfile, hpoint⟩, hset _ _ _ hfree⟩, ?_, by simp⟩
    intro q' heq
    have hname : other = name := by
      cases heq
      rfl
    have hown := (howned p proc name hp hrole).2.2
    simp [State.owner, hpc, hname] at hown
  | @write x other q hpc =>
    obtain ⟨hfile, hpoint⟩ := hs
    rw [hpc] at hpoint
    have hparked := parked_after_ensure other hpoint hfile
    exact ⟨⟨hparked, hp⟩, by simp [event.Idle]⟩
  | quit => exact ⟨⟨⟨hs.1, trivial⟩, hp⟩, by simp [event.Idle]⟩
  | elsewhere ha =>
    have hleaves := ha.leaves
    refine ⟨⟨⟨?_, ?_⟩, ?_⟩, by simp [event.Idle]⟩
    · exact ha.stop_file (fun heq => he (by rw [heq])) hs.1
    · rw [hleaves.pc]
      exact hs.2
    · exact hleaves.dead p proc hp (by simp [hrole]) hdead (howned p proc name hp hrole).2.1
  | check hpc | check_done hpc | session hpc | session_file hpc | reap hpc | session_over hpc =>
    have hpoint := hs.2
    rw [hpc] at hpoint
    cases hpoint

def event.markers : event → List marker
  | .serial m => [m]
  | _ => []

/-- The lines that may still come. -/
def point.markers : point → List marker
  | .check 0 | .check 1 | .check_wait 0 _ | .check_wait 1 _ | .printing .MANTLE_SHELL_OK =>
    [.MANTLE_SHELL_OK, .MANTLE_MT_OK, .MANTLE_MTC_OK]
  | .check 2 | .check_wait 2 _ | .printing .MANTLE_MT_OK => [.MANTLE_MT_OK, .MANTLE_MTC_OK]
  | .check _ | .check_wait _ _ | .printing .MANTLE_MTC_OK => [.MANTLE_MTC_OK]
  | .head | .stop_test | .session_fork | .session_write _ | .session_wait _ | .session_end
  | .finish | .exited => []
  | .ensure x _ | .forking x _ | .writing x _ _ =>
    if x = .boot then
      [.MANTLE_SERVICES_OK, .MANTLE_SHELL_OK, .MANTLE_MT_OK, .MANTLE_MTC_OK]
    else []
  | .splash _ | .ready_log _ | .ready_network _ | .ready_file _
  | .printing .MANTLE_SERVICES_OK =>
    [.MANTLE_SERVICES_OK, .MANTLE_SHELL_OK, .MANTLE_MT_OK, .MANTLE_MTC_OK]

theorem markers_after_ensure (x : site) (name other : service) (p : Nat) :
    (after_ensure x name).markers = (point.ensure x name).markers ∧
      (point.forking x other).markers = (point.ensure x name).markers ∧
      (point.writing x other p).markers = (point.ensure x name).markers := by
  refine ⟨?_, rfl, rfl⟩
  cases x <;> cases name <;> rfl

theorem markers_after_check (k p : Nat) (ok : Bool) :
    (after_check k ok).markers.Sublist (point.check k).markers ∧
      (point.check_wait k p).markers = (point.check k).markers := by
  match k, ok with
  | 0, true => exact ⟨List.Sublist.refl _, rfl⟩
  | 0, false => exact ⟨List.sublist_cons_self _ _, rfl⟩
  | 1, true => exact ⟨List.Sublist.refl _, rfl⟩
  | 1, false => exact ⟨List.sublist_cons_self _ _, rfl⟩
  | 2, true => exact ⟨List.Sublist.refl _, rfl⟩
  | 2, false => exact ⟨List.sublist_cons_self _ _, rfl⟩
  | k + 3, true => exact ⟨List.Sublist.refl _, rfl⟩
  | k + 3, false => exact ⟨List.nil_sublist _, rfl⟩

theorem Move.markers {pc : point} (h : Move fails s e pc) :
    (e.markers ++ pc.markers).Sublist s.pc.markers := by
  cases h with
  | splash_wait hpc | splash_over hpc | ready_log hpc | ready_network hpc | ready_file hpc
  | no_log hpc | no_network hpc | no_file hpc =>
    rw [hpc]
    exact List.Sublist.refl _
  | ready_over hpc | loop_over hpc | stopped hpc | wanted hpc | session_fails hpc | no_session_file hpc
  | no_child hpc | again hpc | nobody_ended hpc | interrupted hpc =>
    exact List.nil_sublist _
  | @print m hpc =>
    rw [hpc]
    cases m <;> exact List.Sublist.refl _
  | @no_port m hpc =>
    rw [hpc]
    cases m <;> exact List.sublist_cons_self _ _
  | @check_fails k hpc =>
    rw [hpc]
    exact (markers_after_check k 0 false).1
  | @keep x name hpc =>
    rw [hpc, (markers_after_ensure x name name 0).1]
    exact List.Sublist.refl _
  | miss hpc =>
    rw [hpc]
    exact List.Sublist.refl _
  | @fork_fails x name hpc =>
    rw [hpc, (markers_after_ensure x name name 0).1]
    exact List.Sublist.refl _
  | @write_fails x name p _ hpc =>
    rw [hpc, (markers_after_ensure x name name p).1]
    exact List.Sublist.refl _

theorem Step.markers (h : Step fails s e t) :
    (e.markers ++ t.pc.markers).Sublist s.pc.markers := by
  cases h with
  | move hmove => exact hmove.markers
  | @check k p hpc =>
    rw [hpc, ← (markers_after_check k p true).2]
    exact List.Sublist.refl _
  | @check_done k p ok hpc =>
    rw [hpc, (markers_after_check k p ok).2]
    exact (markers_after_check k p ok).1
  | fork hpc =>
    rw [hpc]
    exact List.Sublist.refl _
  | @write x name p hpc =>
    rw [hpc, (markers_after_ensure x name name p).2.2, ← (markers_after_ensure x name name p).1]
    exact List.Sublist.refl _
  | session | session_file | session_over | quit => exact List.nil_sublist _
  | @reap c p =>
    have hnone : (if p = c then point.session_end else .ensure (.session c) .log).markers = [] := by
      split <;> rfl
    simp only [event.markers, List.nil_append, hnone]
    exact List.nil_sublist _
  | elsewhere ha =>
    rw [ha.leaves.pc]
    exact List.Sublist.refl _

/-- In every run the lines come in one order and each at most once. -/
theorem the_lines_for_the_serial_port_come_in_order (hs : Fresh s) (hrun : Run (Step fails) s es t) :
    (es.flatMap event.markers).Sublist
      [.MANTLE_SERVICES_OK, .MANTLE_SHELL_OK, .MANTLE_MT_OK, .MANTLE_MTC_OK] := by
  have hall : (es.flatMap event.markers ++ t.pc.markers).Sublist s.pc.markers :=
    hrun.shows fun _ _ _ hstep => hstep.markers
  rw [hs.pc] at hall
  exact (List.sublist_append_left _ _).trans hall

/-! ## A machine that starts -/

def fresh : State :=
  { procs := fun _ => none, pid_file := fun _ => 0, session_pid := 0, stop_file := false
    ready_file := true, stopping := false, pc := .splash 0 }

theorem fresh_fresh : Fresh fresh where
  procs := by
    intro p proc hp
    cases hp
  pid_file := fun _ => rfl
  session_pid := rfl
  pc := rfl

/-- The two services are started, as the processes 2 and 3. -/
theorem fresh_starts : ∃ s, Run (Step false) fresh
    [.silent, .silent, .started .log 2, .silent, .silent, .started .network 3, .silent] s ∧
      s.pc = .ready_log 0 ∧ s.stopping = false ∧ s.stop_file = false ∧ s.ready_file = true ∧
      s.procs 2 = some (forked (.service .log)) ∧ s.procs 3 = some (forked (.service .network)) ∧
      s.pid_file .log = 2 ∧ s.pid_file .network = 3 := by
  have hrun : Run (Step false) fresh [] _ := .nil
  have hrun := hrun.snoc (.move (.splash_over rfl))
  have hrun := hrun.snoc (.move (.miss rfl (by simp [State.Exists, fresh])))
  have hrun := hrun.snoc (e := .started .log 2) (.fork rfl ⟨Nat.le_refl 2, rfl⟩)
  have hrun := hrun.snoc (.write rfl)
  have hrun := hrun.snoc (.move (.miss rfl (by simp [State.Exists, State.set, fresh])))
  have hrun := hrun.snoc (e := .started .network 3) (.fork rfl ⟨by omega, rfl⟩)
  have hrun := hrun.snoc (.write rfl)
  exact ⟨_, hrun, rfl, rfl, rfl, rfl, rfl, rfl, rfl, rfl⟩

theorem the_log_service_has_one_process : ∃ s, Reachable false s ∧
    s.procs 2 = some (forked (.service .log)) ∧
    ∀ q other, s.procs q = some other → other.role = .service .log → 2 = q := by
  obtain ⟨s, hrun, _, _, _, _, hlog, _⟩ := fresh_starts
  have hreach : Reachable false s := ⟨fresh, _, fresh_fresh, hrun⟩
  exact ⟨s, hreach, hlog, fun q other hq hother =>
    a_service_has_one_process hreach hlog hq rfl hother⟩

/-- The file of `mantlectl stop` comes after the look for it: there is one more session. -/
theorem a_stop_that_comes_late : ∃ s t, s.stop_file = true ∧
    Run (Step false) s [.session 4] t ∧
      [event.session 4].countP event.starts_session ≤ 1 ∧
      (s.pc ≠ .session_fork → [event.session 4].countP event.starts_session = 0) := by
  have hrun : Run (Step false) { fresh with stop_file := true, pc := .session_fork }
      [.session 4] _ := Run.single (.session rfl ⟨by omega, rfl⟩)
  exact ⟨_, _, rfl, hrun, a_stopped_supervisor_starts_at_most_one_session rfl hrun (by simp)⟩

theorem the_services_are_up : ∃ s es, Run (Step false) fresh es s ∧
    es.flatMap event.markers = [.MANTLE_SERVICES_OK] ∧
    (es.flatMap event.markers).Sublist
      [.MANTLE_SERVICES_OK, .MANTLE_SHELL_OK, .MANTLE_MT_OK, .MANTLE_MTC_OK] := by
  obtain ⟨s, hrun, hpc, hstopping, _, hready, hlog, hnetwork, hlog_file, hnetwork_file⟩ :=
    fresh_starts
  have hrun := hrun.snoc (.move (.ready_log hpc (by omega) hstopping
    ⟨by rw [hlog_file]; omega, by rw [hlog_file, hlog]; simp⟩))
  have hrun := hrun.snoc (.move (.ready_network rfl
    ⟨by dsimp only; rw [hnetwork_file]; omega, by dsimp only; rw [hnetwork_file, hnetwork]; simp⟩))
  have hrun := hrun.snoc (.move (.ready_file rfl hready))
  have hrun := hrun.snoc (.move (.print rfl))
  exact ⟨_, _, hrun, rfl, the_lines_for_the_serial_port_come_in_order fresh_fresh hrun⟩

end mantle.supervise
