-- The state of the graphical shell in `ui/shell/mantle-shell-state.c`: the work
-- spaces, the indicators and the bounded queue of notifications, which stands
-- in an array that every removal shifts.
import MantleOS.Bytes

open checked bytes

namespace mantle.ui

def MANTLE_SHELL_MAX_WORKSPACES : Nat := 9
def MANTLE_SHELL_MAX_NOTIFICATIONS : Nat := 32

/-- The texts are the C strings in the two buffers. -/
structure mantle_shell_notification where
  id : UInt32
  title : Bytes
  body : Bytes
  unread : Bool
  deriving DecidableEq

structure mantle_shell_state where
  workspace_count : UInt32
  current_workspace : UInt32
  network_online : Bool
  audio_muted : Bool
  battery_percent : Int
  next_notification_id : UInt32
  notification_count : Nat
  notifications : List mantle_shell_notification
  deriving DecidableEq

/-! ## The array -/

section Array

variable {α : Type}

def cellAt (cells : List α) (i : Nat) : Checked α :=
  if h : i < cells.length then .ok cells[i] else .error (.bounds i cells.length)

def storeAt (cells : List α) (i : Nat) (x : α) : Checked (List α) :=
  if i < cells.length then .ok (cells.set i x) else .error (.bounds i cells.length)

/-- `memmove(&cells[dest], &cells[source], sizeof(cells[0]) * count)`. -/
def memmove (cells : List α) (dest source count : Nat) : Checked (List α) :=
  if max dest source + count ≤ cells.length then
    .ok (cells.take dest ++ (cells.drop source).take count ++ cells.drop (dest + count))
  else .error (.bounds (max dest source + count) cells.length)

end Array

/-! ## The calls -/

/-- `snprintf(buffer, size, "%s", text)`. -/
def snprintf (size : Nat) (text : Bytes) : Bytes := (cstring text).take (size - 1)

def mantle_shell_state_init : mantle_shell_state :=
  { workspace_count := 4
    current_workspace := 1
    network_online := false
    audio_muted := false
    battery_percent := -1
    next_notification_id := 1
    notification_count := 0
    notifications := List.replicate MANTLE_SHELL_MAX_NOTIFICATIONS ⟨0, [], [], false⟩ }

def mantle_shell_state_set_workspace (state : mantle_shell_state) (workspace : UInt32) :
    Int × mantle_shell_state :=
  if workspace = 0 ∨ state.workspace_count < workspace then (-1, state)
  else (0, { state with current_workspace := workspace })

def mantle_shell_state_set_network (state : mantle_shell_state) (online : Int) : mantle_shell_state :=
  { state with network_online := online ≠ 0 }

def mantle_shell_state_set_audio_muted (state : mantle_shell_state) (muted : Int) :
    mantle_shell_state :=
  { state with audio_muted := muted ≠ 0 }

def mantle_shell_state_set_battery (state : mantle_shell_state) (percent : Int) :
    mantle_shell_state :=
  { state with battery_percent := if percent < 0 then -1 else if 100 < percent then 100 else percent }

/-- A full queue loses its oldest notification. -/
def make_room (state : mantle_shell_state) : Checked mantle_shell_state :=
  if state.notification_count = MANTLE_SHELL_MAX_NOTIFICATIONS then do
    let notifications ← memmove state.notifications 0 1 (MANTLE_SHELL_MAX_NOTIFICATIONS - 1)
    return { state with notifications, notification_count := state.notification_count - 1 }
  else .ok state

/-- The notification as it is filled in. A text is `none` for the null pointer. -/
def new_notification (id : UInt32) (title body : Option Bytes) : mantle_shell_notification :=
  { id
    title := snprintf 96 (title.getD (ascii "MantleOS"))
    body := snprintf 256 (body.getD [])
    unread := true }

def mantle_shell_state_notify (state : mantle_shell_state) (title body : Option Bytes) :
    Checked (UInt32 × mantle_shell_state) := do
  let state ← make_room state
  let notification := new_notification state.next_notification_id title body
  let notifications ← storeAt state.notifications state.notification_count notification
  return (notification.id,
    { state with
      notifications
      notification_count := state.notification_count + 1
      next_notification_id := state.next_notification_id + 1 })

/-- The loop of `mantle_shell_state_dismiss`, with the turns that are left. -/
def dismiss_loop (id : UInt32) (state : mantle_shell_state) :
    Nat → Nat → Checked (Int × mantle_shell_state)
  | 0, _ => .ok (-1, state)
  | left + 1, i => do
    let notification ← cellAt state.notifications i
    if notification.id ≠ id then dismiss_loop id state left (i + 1)
    else
      let notifications ← memmove state.notifications i (i + 1) (state.notification_count - i - 1)
      return (0, { state with notifications, notification_count := state.notification_count - 1 })

def mantle_shell_state_dismiss (state : mantle_shell_state) (id : UInt32) :
    Checked (Int × mantle_shell_state) :=
  dismiss_loop id state state.notification_count 0

inductive Call where
  | set_workspace (workspace : UInt32)
  | set_network (online : Int)
  | set_audio_muted (muted : Int)
  | set_battery (percent : Int)
  | notify (title body : Option Bytes)
  | dismiss (id : UInt32)

/-- What the call returns, which is nothing for three of them, and the state after it. -/
def Call.run (state : mantle_shell_state) : Call → Checked (Option Int × mantle_shell_state)
  | .set_workspace workspace =>
    let (result, state) := mantle_shell_state_set_workspace state workspace
    .ok (some result, state)
  | .set_network online => .ok (none, mantle_shell_state_set_network state online)
  | .set_audio_muted muted => .ok (none, mantle_shell_state_set_audio_muted state muted)
  | .set_battery percent => .ok (none, mantle_shell_state_set_battery state percent)
  | .notify title body => do
    let (id, state) ← mantle_shell_state_notify state title body
    return (some id.toNat, state)
  | .dismiss id => do
    let (result, state) ← mantle_shell_state_dismiss state id
    return (some result, state)

/-- A sequence of calls: what they return, and the state after them. -/
def run (state : mantle_shell_state) : List Call → Checked (List (Option Int) × mantle_shell_state)
  | [] => .ok ([], state)
  | call :: calls => do
    let (result, state) ← call.run state
    let (results, state) ← run state calls
    return (result :: results, state)

/-! ## The bounded queue -/

/-- The notifications that are queued, the oldest first. -/
def queue (state : mantle_shell_state) : List mantle_shell_notification :=
  state.notifications.take state.notification_count

/-- A queue of at most 32 notifications, and the number of the next one. -/
structure Fifo where
  queued : List mantle_shell_notification
  next : UInt32

/-- The queue with one more at its end, without the oldest when it was full. -/
def Fifo.append (f : Fifo) (title body : Option Bytes) : Fifo :=
  { queued := (if f.queued.length = MANTLE_SHELL_MAX_NOTIFICATIONS then f.queued.tail else f.queued) ++
      [new_notification f.next title body]
    next := f.next + 1 }

def Fifo.holds (f : Fifo) (id : UInt32) : Bool := f.queued.any (·.id = id)

/-- The queue without the notification of this id. -/
def Fifo.remove (f : Fifo) (id : UInt32) : Fifo := { f with queued := f.queued.filter (·.id ≠ id) }

/-- What a call does to the queue. -/
def Fifo.call (f : Fifo) : Call → Fifo
  | .notify title body => f.append title body
  | .dismiss id => f.remove id
  | _ => f

/-- What a call on the queue returns. -/
def Fifo.answer (f : Fifo) : Call → Option Int → Prop
  | .notify _ _, result => result = some f.next.toNat
  | .dismiss id, result => result = some (if f.holds id then 0 else -1)
  | _, _ => True

/-- What the calls of a sequence return. -/
def Fifo.answers (f : Fifo) : List Call → List (Option Int) → Prop
  | [], results => results = []
  | call :: calls, results =>
    ∃ result rest, results = result :: rest ∧ f.answer call result ∧ (f.call call).answers calls rest

def Call.notifies : Call → Bool
  | .notify _ _ => true
  | _ => false

def fifo (state : mantle_shell_state) : Fifo := ⟨queue state, state.next_notification_id⟩

/-! ## The specs -/

section Array

variable {α : Type}

theorem cellAt_append (a b : List α) (x : α) : cellAt (a ++ x :: b) a.length = .ok x := by
  have hlt : a.length < (a ++ x :: b).length := by simp
  rw [cellAt, dif_pos hlt]
  simp

/-- A move by one cell to the front closes the gap. -/
theorem memmove_append (a b stale : List α) (x : α) :
    ∃ cells, memmove (a ++ x :: b ++ stale) a.length (a.length + 1) b.length = .ok cells ∧
      cells.length = (a ++ x :: b ++ stale).length ∧ cells.take (a.length + b.length) = a ++ b := by
  have hfits : max a.length (a.length + 1) + b.length ≤ (a ++ x :: b ++ stale).length := by
    simp
    omega
  have hkept : (a ++ x :: b ++ stale).take a.length = a := by simp
  have hmoved : ((a ++ x :: b ++ stale).drop (a.length + 1)).take b.length = b := by
    have hsplit : a ++ x :: b ++ stale = (a ++ [x]) ++ (b ++ stale) := by simp
    have hlen : a.length + 1 = (a ++ [x]).length := by simp
    rw [hsplit, hlen, List.drop_left, List.take_left]
  rw [memmove, if_pos hfits, hkept, hmoved]
  refine ⟨_, rfl, ?_, ?_⟩
  · simp
    omega
  · rw [← List.length_append, List.take_left]

end Array

/-- What holds of the state between two calls. -/
structure Good (state : mantle_shell_state) : Prop where
  workspace : 1 ≤ state.current_workspace ∧ state.current_workspace ≤ state.workspace_count ∧
    state.workspace_count.toNat ≤ MANTLE_SHELL_MAX_WORKSPACES
  battery : -1 ≤ state.battery_percent ∧ state.battery_percent ≤ 100
  cells : state.notifications.length = MANTLE_SHELL_MAX_NOTIFICATIONS
  count : state.notification_count ≤ MANTLE_SHELL_MAX_NOTIFICATIONS
  increasing : (queue state).Pairwise (·.id < ·.id)
  nonzero : ∀ n ∈ queue state, n.id ≠ 0
  below : ∀ n ∈ queue state, n.id < state.next_notification_id

theorem good_init : Good mantle_shell_state_init where
  workspace := by decide
  battery := by decide
  cells := rfl
  count := by decide
  increasing := List.Pairwise.nil
  nonzero := nofun
  below := nofun

theorem queue_length {state : mantle_shell_state} (hg : Good state) :
    (queue state).length = state.notification_count := by
  rw [queue, List.length_take, hg.cells, Nat.min_eq_left hg.count]

/-- After `make_room` a cell is free, and the oldest notification of a full queue is gone. -/
theorem make_room.spec {state : mantle_shell_state} (hg : Good state) :
    ∃ cells count, make_room state =
        .ok { state with notifications := cells, notification_count := count } ∧
      cells.length = MANTLE_SHELL_MAX_NOTIFICATIONS ∧ count < MANTLE_SHELL_MAX_NOTIFICATIONS ∧
      cells.take count = if (queue state).length = MANTLE_SHELL_MAX_NOTIFICATIONS
        then (queue state).tail else queue state := by
  unfold make_room
  rw [queue_length hg]
  by_cases hfull : state.notification_count = MANTLE_SHELL_MAX_NOTIFICATIONS
  · have hall : queue state = state.notifications := by
      rw [queue, List.take_of_length_le (by rw [hg.cells, hfull])]
    rw [if_pos hfull, if_pos hfull, hall]
    cases hcells : state.notifications with
    | nil =>
      have hlen := hg.cells
      rw [hcells] at hlen
      cases hlen
    | cons oldest rest =>
      have hrest : rest.length = 31 := by
        have hlen := hg.cells
        rw [hcells] at hlen
        simpa [MANTLE_SHELL_MAX_NOTIFICATIONS] using hlen
      obtain ⟨cells, hmove, hlength, htake⟩ := memmove_append [] rest [] oldest
      simp only [List.nil_append, List.append_nil, List.length_nil, Nat.zero_add, hrest] at hmove hlength htake
      refine ⟨cells, state.notification_count - 1, ?_, ?_, ?_, ?_⟩
      · rw [show MANTLE_SHELL_MAX_NOTIFICATIONS - 1 = 31 from rfl, hmove]
        rfl
      · rw [hlength, List.length_cons, hrest]
        rfl
      · rw [hfull]
        decide
      · rw [hfull]
        exact htake
  · rw [if_neg hfull, if_neg hfull]
    exact ⟨state.notifications, state.notification_count, rfl, hg.cells,
      Nat.lt_of_le_of_ne hg.count hfull, rfl⟩

/-- `notify` appends to the queue and returns the number of the notification. -/
theorem mantle_shell_state_notify.spec {state : mantle_shell_state} (hg : Good state)
    (title body : Option Bytes) :
    ∃ cells count, mantle_shell_state_notify state title body =
        .ok (state.next_notification_id, { state with
          notifications := cells
          notification_count := count
          next_notification_id := state.next_notification_id + 1 }) ∧
      cells.length = MANTLE_SHELL_MAX_NOTIFICATIONS ∧ count ≤ MANTLE_SHELL_MAX_NOTIFICATIONS ∧
      cells.take count = ((fifo state).append title body).queued := by
  obtain ⟨cells, count, hroom, hcells, hcount, hqueue⟩ := make_room.spec hg
  have hlt : count < cells.length := by rw [hcells]; exact hcount
  refine ⟨cells.set count (new_notification state.next_notification_id title body), count + 1,
    ?_, ?_, hcount, ?_⟩
  · rw [mantle_shell_state_notify, hroom, ok_bind]
    simp only [storeAt, if_pos hlt]
    rfl
  · rw [List.length_set, hcells]
  · rw [List.take_succ_eq_append_getElem (by rw [List.length_set]; exact hlt), List.getElem_set_self,
      List.take_set_of_le (Nat.le_refl _), hqueue]
    rfl

/-- The loop goes on while it meets other ids. -/
theorem dismiss_loop.absent {id : UInt32} {state : mantle_shell_state} (before rest stale : List mantle_shell_notification)
    (hcells : state.notifications = before ++ rest ++ stale) (hno : ∀ n ∈ rest, n.id ≠ id) :
    dismiss_loop id state rest.length before.length = .ok (-1, state) := by
  induction rest generalizing before with
  | nil => rfl
  | cons n rest ih =>
    have hcell : cellAt state.notifications before.length = .ok n := by
      rw [hcells, List.append_assoc, List.cons_append]
      exact cellAt_append before _ n
    have hrest := ih (before ++ [n]) (by rw [hcells]; simp) fun m hm => hno m (List.mem_cons_of_mem _ hm)
    rw [List.length_append] at hrest
    rw [List.length_cons, dismiss_loop, hcell, ok_bind, if_pos (hno n List.mem_cons_self)]
    exact hrest

/-- The loop stops at the first notification with the id, and takes it out. -/
theorem dismiss_loop.present {id : UInt32} {state : mantle_shell_state}
    (before skipped after stale : List mantle_shell_notification) (n : mantle_shell_notification)
    (hcells : state.notifications = before ++ skipped ++ n :: after ++ stale)
    (hcount : state.notification_count = (before ++ skipped ++ n :: after).length)
    (hno : ∀ m ∈ skipped, m.id ≠ id) (hid : n.id = id) :
    ∃ cells, dismiss_loop id state (skipped.length + 1 + after.length) before.length =
        .ok (0, { state with notifications := cells, notification_count := state.notification_count - 1 }) ∧
      cells.length = state.notifications.length ∧
      cells.take (state.notification_count - 1) = before ++ skipped ++ after := by
  induction skipped generalizing before with
  | nil =>
    rw [List.append_nil] at hcells hcount
    obtain ⟨cells, hmove, hlength, htake⟩ := memmove_append before after stale n
    have hcell : cellAt state.notifications before.length = .ok n := by
      rw [hcells, List.append_assoc, List.cons_append]
      exact cellAt_append before _ n
    have hleft : state.notification_count - before.length - 1 = after.length := by
      rw [hcount]
      simp
    have hnew : state.notification_count - 1 = before.length + after.length := by
      rw [hcount]
      simp
    refine ⟨cells, ?_, ?_, ?_⟩
    · rw [List.length_nil, Nat.zero_add, Nat.add_comm 1, dismiss_loop, hcell, ok_bind,
        if_neg (not_not.mpr hid), hleft, hcells, hmove]
      rfl
    · rw [hlength, hcells]
    · rw [hnew, htake, List.append_nil]
  | cons m skipped ih =>
    have hcell : cellAt state.notifications before.length = .ok m := by
      rw [hcells, List.append_assoc, List.append_assoc, List.cons_append]
      exact cellAt_append before _ m
    obtain ⟨cells, hloop, hlength, htake⟩ := ih (before ++ [m]) (by rw [hcells]; simp)
      (by rw [hcount]; simp) fun k hk => hno k (List.mem_cons_of_mem _ hk)
    refine ⟨cells, ?_, hlength, by rw [htake]; simp⟩
    have hturn : (m :: skipped).length + 1 + after.length = skipped.length + 1 + after.length + 1 := by
      rw [List.length_cons]
      omega
    rw [hturn, dismiss_loop, hcell, ok_bind, if_pos (hno m List.mem_cons_self)]
    rw [List.length_append] at hloop
    exact hloop

theorem notifications_eq (state : mantle_shell_state) :
    state.notifications = queue state ++ state.notifications.drop state.notification_count :=
  (List.take_append_drop _ _).symm

/-- `dismiss` of an id that is not queued changes nothing. -/
theorem mantle_shell_state_dismiss.absent {state : mantle_shell_state} (hg : Good state) {id : UInt32}
    (h : (fifo state).holds id = false) : mantle_shell_state_dismiss state id = .ok (-1, state) := by
  have hno : ∀ n ∈ queue state, n.id ≠ id := by
    intro n hn
    simpa using List.any_eq_false.mp h n hn
  rw [mantle_shell_state_dismiss, ← queue_length hg]
  exact dismiss_loop.absent [] (queue state) _ (notifications_eq state) hno

/-- `dismiss` of a queued id takes out this notification and no other. -/
theorem mantle_shell_state_dismiss.present {state : mantle_shell_state} (hg : Good state) {id : UInt32}
    (h : (fifo state).holds id = true) :
    ∃ cells count, mantle_shell_state_dismiss state id =
        .ok (0, { state with notifications := cells, notification_count := count }) ∧
      cells.length = MANTLE_SHELL_MAX_NOTIFICATIONS ∧ count ≤ MANTLE_SHELL_MAX_NOTIFICATIONS ∧
      cells.take count = ((fifo state).remove id).queued := by
  -- the first notification with the id
  obtain ⟨n, hfirst⟩ := Option.isSome_iff_exists.mp
    (List.find?_isSome.mpr (List.any_eq_true.mp h))
  obtain ⟨hid, before, after, hqueue, hbefore⟩ := List.find?_eq_some_iff_append.mp hfirst
  have hid' : n.id = id := by simpa using hid
  have hno : ∀ m ∈ before, m.id ≠ id := fun m hm => by simpa using hbefore m hm
  -- and the only one, since the ids increase
  have hafter : ∀ m ∈ after, m.id ≠ id := by
    intro m hm heq
    have hsorted := hg.increasing
    rw [show queue state = before ++ n :: after from hqueue] at hsorted
    have hlt := List.rel_of_pairwise_cons (List.pairwise_append.mp hsorted).2.1 hm
    rw [hid', heq] at hlt
    exact absurd hlt (UInt32.lt_irrefl id)
  have hcells := notifications_eq state
  have hcount := queue_length hg
  rw [show queue state = before ++ n :: after from hqueue] at hcells hcount
  obtain ⟨cells, hloop, hlength, htake⟩ :=
    dismiss_loop.present [] before after _ n hcells hcount.symm hno hid'
  refine ⟨cells, state.notification_count - 1, ?_, hlength.trans hg.cells,
    (Nat.sub_le _ _).trans hg.count, ?_⟩
  · rw [mantle_shell_state_dismiss, ← hloop]
    congr 1
    rw [← hcount]
    simp
    omega
  · have hkept : before.filter (·.id ≠ id) = before ∧ after.filter (·.id ≠ id) = after := by
      simp only [List.filter_eq_self, decide_eq_true_eq]
      exact ⟨hno, hafter⟩
    rw [htake, Fifo.remove, fifo, show queue state = before ++ n :: after from hqueue]
    simp only [List.filter_append, List.filter_cons, hid', hkept]
    simp

/-! ## The law -/

/-- The state with other cells, which hold the queue of `f`. -/
theorem good_cells {state : mantle_shell_state} (hg : Good state)
    {cells : List mantle_shell_notification} {count : Nat} {f : Fifo}
    (hcells : cells.length = MANTLE_SHELL_MAX_NOTIFICATIONS)
    (hcount : count ≤ MANTLE_SHELL_MAX_NOTIFICATIONS) (hqueue : cells.take count = f.queued)
    (hincreasing : f.queued.Pairwise (·.id < ·.id)) (hnonzero : ∀ n ∈ f.queued, n.id ≠ 0)
    (hbelow : ∀ n ∈ f.queued, n.id < f.next) :
    Good { state with
      notifications := cells, notification_count := count, next_notification_id := f.next } := by
  rw [← hqueue] at hincreasing hnonzero hbelow
  exact ⟨hg.workspace, hg.battery, hcells, hcount, hincreasing, hnonzero, hbelow⟩

theorem mem_append_queued {f : Fifo} {title body : Option Bytes} {n : mantle_shell_notification}
    (h : n ∈ (f.append title body).queued) :
    n ∈ f.queued ∨ n = new_notification f.next title body := by
  rw [Fifo.append, List.mem_append, List.mem_singleton] at h
  rcases h with h | h
  · split at h
    · exact .inl (List.mem_of_mem_tail h)
    · exact .inl h
  · exact .inr h

theorem append_increasing {f : Fifo} (title body : Option Bytes)
    (hincreasing : f.queued.Pairwise (·.id < ·.id)) (hbelow : ∀ n ∈ f.queued, n.id < f.next) :
    (f.append title body).queued.Pairwise (·.id < ·.id) := by
  rw [Fifo.append, List.pairwise_append]
  refine ⟨?_, List.pairwise_singleton _ _, ?_⟩
  · split
    · exact hincreasing.tail
    · exact hincreasing
  · intro a ha b hb
    rw [List.mem_singleton.mp hb]
    split at ha
    · exact hbelow a (List.mem_of_mem_tail ha)
    · exact hbelow a ha

theorem good_notify {state : mantle_shell_state} (hg : Good state) (title body : Option Bytes)
    (hnext : state.next_notification_id ≠ 0) (hroom : state.next_notification_id.toNat + 1 < 2 ^ 32) :
    ∃ state', mantle_shell_state_notify state title body = .ok (state.next_notification_id, state') ∧
      Good state' ∧ fifo state' = (fifo state).append title body := by
  obtain ⟨cells, count, hrun, hcells, hcount, hqueue⟩ := mantle_shell_state_notify.spec hg title body
  have hlater : state.next_notification_id < state.next_notification_id + 1 := by
    rw [UInt32.lt_iff_toNat_lt, UInt32.toNat_add, Nat.mod_eq_of_lt (by simpa using hroom)]
    simp
  refine ⟨_, hrun, good_cells hg hcells hcount hqueue (append_increasing title body hg.increasing hg.below)
    ?_ ?_, ?_⟩
  · intro n hn
    rcases mem_append_queued hn with hn | rfl
    · exact hg.nonzero n hn
    · exact hnext
  · intro n hn
    rcases mem_append_queued hn with hn | rfl
    · exact UInt32.lt_trans (hg.below n hn) hlater
    · exact hlater
  · rw [fifo, queue, hqueue]
    rfl

theorem good_dismiss {state : mantle_shell_state} (hg : Good state) (id : UInt32) :
    ∃ state', mantle_shell_state_dismiss state id =
        .ok (if (fifo state).holds id then 0 else -1, state') ∧
      Good state' ∧ fifo state' = (fifo state).remove id := by
  cases hholds : (fifo state).holds id with
  | true =>
    obtain ⟨cells, count, hrun, hcells, hcount, hqueue⟩ := mantle_shell_state_dismiss.present hg hholds
    have hsub : ((fifo state).remove id).queued.Sublist (queue state) := List.filter_sublist
    refine ⟨_, hrun, good_cells hg hcells hcount hqueue (hg.increasing.sublist hsub)
      (fun n hn => hg.nonzero n (hsub.subset hn)) (fun n hn => hg.below n (hsub.subset hn)), ?_⟩
    rw [fifo, queue, hqueue]
    rfl
  | false =>
    refine ⟨state, mantle_shell_state_dismiss.absent hg hholds, hg, ?_⟩
    have hkept : (queue state).filter (·.id ≠ id) = queue state := by
      rw [List.filter_eq_self]
      intro n hn
      simpa using List.any_eq_false.mp hholds n hn
    rw [Fifo.remove, fifo, hkept]

/-- One call keeps the state good, and does to the queue what the bounded queue does. -/
theorem Call.run_spec {state : mantle_shell_state} (hg : Good state) (call : Call)
    (hnext : state.next_notification_id ≠ 0)
    (hroom : call.notifies = true → state.next_notification_id.toNat + 1 < 2 ^ 32) :
    ∃ result state', call.run state = .ok (result, state') ∧ Good state' ∧
      fifo state' = (fifo state).call call ∧ (fifo state).answer call result := by
  cases call with
  | set_workspace workspace =>
    refine ⟨some (mantle_shell_state_set_workspace state workspace).1,
      (mantle_shell_state_set_workspace state workspace).2, rfl, ?_, ?_, trivial⟩
    · unfold mantle_shell_state_set_workspace
      split
      · exact hg
      · rename_i hvalid
        rw [not_or, UInt32.not_lt] at hvalid
        have hpos : 1 ≤ workspace := by
          rw [UInt32.le_iff_toNat_le]
          have : workspace.toNat ≠ 0 := fun h => hvalid.1 (UInt32.toNat_inj.mp h)
          simp
          omega
        exact { hg with workspace := ⟨hpos, hvalid.2, hg.workspace.2.2⟩ }
    · unfold mantle_shell_state_set_workspace
      split <;> rfl
  | set_network online => exact ⟨_, _, rfl, { hg with }, rfl, trivial⟩
  | set_audio_muted muted => exact ⟨_, _, rfl, { hg with }, rfl, trivial⟩
  | set_battery percent =>
    refine ⟨_, _, rfl, { hg with battery := ?_ }, rfl, trivial⟩
    simp only [mantle_shell_state_set_battery]
    split
    · decide
    · split <;> omega
  | notify title body =>
    obtain ⟨state', hrun, hgood, hfifo⟩ := good_notify hg title body hnext (hroom rfl)
    exact ⟨_, state', by rw [Call.run, hrun]; rfl, hgood, hfifo, rfl⟩
  | dismiss id =>
    obtain ⟨state', hrun, hgood, hfifo⟩ := good_dismiss hg id
    exact ⟨_, state', by rw [Call.run, hrun]; rfl, hgood, hfifo, rfl⟩

/-- The number of the next notification grows with each `notify`, and with no other call. -/
theorem Fifo.call_next (f : Fifo) (call : Call) (hroom : f.next.toNat + 1 < 2 ^ 32) :
    (f.call call).next.toNat = f.next.toNat + if call.notifies then 1 else 0 := by
  cases call with
  | notify title body =>
    simp only [Fifo.call, Fifo.append, Call.notifies, if_true, UInt32.toNat_add]
    exact Nat.mod_eq_of_lt (by simpa using hroom)
  | set_workspace _ => rfl
  | set_network _ => rfl
  | set_audio_muted _ => rfl
  | set_battery _ => rfl
  | dismiss _ => rfl

/-- From any good state, while the numbers do not run out. -/
theorem run_spec {state : mantle_shell_state} (hg : Good state) (calls : List Call)
    (hpos : 0 < state.next_notification_id.toNat)
    (hroom : state.next_notification_id.toNat + calls.countP Call.notifies < 2 ^ 32) :
    ∃ results state', run state calls = .ok (results, state') ∧ Good state' ∧
      fifo state' = calls.foldl Fifo.call (fifo state) ∧ (fifo state).answers calls results := by
  induction calls generalizing state with
  | nil => exact ⟨[], state, rfl, hg, rfl, rfl⟩
  | cons call calls ih =>
    rw [List.countP_cons] at hroom
    have hnext : state.next_notification_id ≠ 0 := by
      intro h
      rw [h] at hpos
      exact absurd hpos (by decide)
    obtain ⟨result, state1, hcall, hgood, hfifo, hanswer⟩ := call.run_spec hg hnext fun hnotify => by
      rw [if_pos hnotify] at hroom
      omega
    have hnumber : state1.next_notification_id.toNat =
        state.next_notification_id.toNat + if call.notifies then 1 else 0 := by
      rw [show state1.next_notification_id = ((fifo state).call call).next by rw [← hfifo]; rfl]
      cases hn : call.notifies with
      | true =>
        rw [if_pos hn] at hroom
        rw [(fifo state).call_next call (by simp only [fifo]; omega), hn]
        rfl
      | false => cases call <;> first | rfl | cases hn
    obtain ⟨results, state2, hrun, hgood2, hfifo2, hanswers⟩ := ih hgood (by omega) (by omega)
    refine ⟨result :: results, state2, ?_, hgood2, ?_, result, results, rfl, hanswer, ?_⟩
    · rw [run, hcall, ok_bind]
      dsimp only
      rw [hrun]
      rfl
    · rw [List.foldl_cons, ← hfifo, hfifo2]
    · rw [← hfifo]
      exact hanswers

/-- Any sequence of calls with fewer than 2^32 - 1 notifications runs inside of its array, keeps
the state good, and is one of the bounded queue: the queue is the same and so is what `notify`
and `dismiss` return, and a `dismiss` that fails changes nothing. -/
theorem the_shell_state_is_a_bounded_queue (calls : List Call)
    (hcalls : calls.countP Call.notifies < 2 ^ 32 - 1) :
    ∃ results state, run mantle_shell_state_init calls = .ok (results, state) ∧
      Good state ∧ (queue state).length = state.notification_count ∧
      fifo state = calls.foldl Fifo.call ⟨[], 1⟩ ∧ Fifo.answers ⟨[], 1⟩ calls results ∧
      ∀ id, (fifo state).holds id = false → mantle_shell_state_dismiss state id = .ok (-1, state) := by
  have hfirst : mantle_shell_state_init.next_notification_id.toNat = 1 := rfl
  obtain ⟨results, state, hrun, hgood, hfifo, hanswers⟩ :=
    run_spec good_init calls (by rw [hfirst]; decide) (by rw [hfirst]; omega)
  exact ⟨results, state, hrun, hgood, queue_length hgood, hfifo, hanswers,
    fun id => mantle_shell_state_dismiss.absent hgood⟩

theorem a_dismissed_notification_leaves_the_queue :
    ([Call.notify none none, .dismiss 1] : List Call).countP Call.notifies < 2 ^ 32 - 1 ∧
    ∃ results state, run mantle_shell_state_init [.notify none none, .dismiss 1] = .ok (results, state) ∧
      results = [some 1, some 0] ∧ queue state = [] := by
  have hcalls : ([Call.notify none none, .dismiss 1] : List Call).countP Call.notifies < 2 ^ 32 - 1 := by
    decide
  obtain ⟨results, state, hrun, -, -, hfifo, hanswers, -⟩ :=
    the_shell_state_is_a_bounded_queue [.notify none none, .dismiss 1] hcalls
  refine ⟨hcalls, results, state, hrun, ?_, congrArg Fifo.queued hfifo⟩
  obtain ⟨r1, rest, rfl, h1, r2, rest2, rfl, h2, rfl⟩ := hanswers
  rw [h1, h2]
  rfl

end mantle.ui
