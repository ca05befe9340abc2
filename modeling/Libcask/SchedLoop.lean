import Libcask.SchedProgress

/-! # The scheduler loop

`Sched.lean` lets the scheduler take one event after the other, and dispatch a task at any time.  This is
the loop itself: `schedule` with `RR_picknext` and `event_wait`, access by access, with the variables
`prev_task` (the phase of the thread) and `ls`, the batch of events that one `epoll_wait` returns, and the
timeout of the next one.  No other thread puts tasks on the run queue (`ActiveWakeups.lean` has those), and the
tasks close only sockets that nobody waits for (`closesIdle`).

* `loop_refines`: every state of the loop is one of the thread that `Sched.lean` describes, and the loop
  itself never gets stuck: no event finds its record gone, and the list head is never taken for a task.
* `loop_sleeps_idle`: `epoll_wait` is called with a timeout only when no task of the thread can run. -/

namespace Libcask.Sched.Loop

/-! ### The loop -/

/-- Where the thread is in its loop. -/
inductive Pc where
  /-- `switch(prev_task->status)`. -/
  | handle
  /-- `RR_picknext`: `ls = rq->run_list.prev`. -/
  | readLast
  | epollWait (ls : Node Head Tid)
  /-- `event_wait`: the events that are still to be handled, and how many there were. -/
  | events (rest : List (Fd × Events)) (num : ℕ) (ls : Node Head Tid)
  /-- `while(list_empty(ls))`. -/
  | test (ls : Node Head Tid)
  /-- Behind `sched_rq_picknext`. -/
  | dequeue (t : Tid)
  | task
deriving DecidableEq, Repr

/-- The thread with its place in the loop and `ep->timeout`. -/
structure St where
  st : Sched.St
  pc : Pc
  timeout : ℕ

/-- The run list as the loop sees it. -/
def St.last (l : St) : Node Head Tid := listPrev l.st.q.links (.head .runList)

/-- The body of the loop in `event_wait`. -/
def handleEvent (s : Sched.St) (fd : Fd) (e : Events) : Option Sched.St :=
  match s.io.ifd fd with
  | none => none
  | some r =>
      let io := (s.io.setInner fd { r with error := eventsToError e }).deleteEvents fd
      match r.task with
      | none => some { s with io := io }
      | some u => some { s with io := io, q := s.q.coResume u }

/-- `sched_rq_dequeue` of the task that was picked, and the switch to it. -/
def dispatch (s : Sched.St) (t : Tid) : Sched.St :=
  { s with q := { (s.q.schedRqDequeue t).setStatus t .runnable with phase := .running t } }

/-- The next access of the loop outside of `epoll_wait` and of the tasks. -/
def sched (l : St) : Option St :=
  match l.pc with
  | .handle => (Sched.step l.st .handlePrev).map fun s => { l with st := s, pc := .readLast }
  | .readLast => some { l with pc := .epollWait l.last }
  | .events ((fd, e) :: rest) num ls =>
      (handleEvent l.st fd e).map fun s => { l with st := s, pc := .events rest num ls }
  | .events [] num ls =>
      some { l with
        timeout := if num = 0 ∧ listEmpty l.st.q.links ls then 1000 * 60 else 0
        pc := .test l.last }
  | .test ls =>
      if listEmpty l.st.q.links ls then some { l with pc := .epollWait ls }
      else
        match ls with
        | .head _ => none
        | .elem t => some { l with pc := .dequeue t }
  | .dequeue t => some { l with st := dispatch l.st t, pc := .task }
  | .epollWait _ | .task => none

/-- `sched->epoll->maxevents`. -/
def maxevents : ℕ := 1024

/-- `epoll_wait` returns the events `es`, of different descriptors of the epoll set; an error ends the
process. -/
def epollWait (l : St) (es : List (Fd × Events)) : Option St :=
  match l.pc with
  | .epollWait ls =>
      if es.length ≤ maxevents ∧ (es.map Prod.fst).Nodup ∧ ∀ p ∈ es, l.st.io.epoll p.1 ≠ none then
        some { l with pc := .events es es.length ls }
      else none
  | _ => none

inductive Act where
  | sched
  | epollWait (es : List (Fd × Events))
  /-- What the running task does. -/
  | task (a : CloseAct)
deriving DecidableEq, Repr

def step (l : St) : Act → Option St
  | .sched => sched l
  | .epollWait es => epollWait l es
  | .task a =>
      if l.pc = .task then
        (closeStep l.st a).map fun s =>
          { l with st := s, pc := match s.q.phase with | .handle _ => .handle | _ => .task }
      else none

/-- The thread enters `schedule`; `prev_task` is `NULL`. -/
def start (n : ℕ) (count : ℕ → ℕ) : St where
  st := Sched.start n count
  pc := .readLast
  timeout := 0

def system : TS St Act where
  init l := ∃ n count, l = start n count
  step := step

/-- No task closes a socket that a task waits for. -/
def closesIdle (l : St) : Act → Bool
  | .task a => Sched.closesIdle l.st a
  | .sched | .epollWait _ => true

/-! ### What holds at every place of the loop -/

/-- What holds at the place of the thread in its loop. -/
def St.Ok (l : St) : Prop :=
  match l.pc with
  | .handle => (∃ t, l.st.q.phase = .handle t) ∧ l.timeout = 0
  | .readLast => l.st.q.phase = .loop ∧ l.timeout = 0
  | .epollWait ls | .test ls =>
      l.st.q.phase = .loop ∧ ls = l.last ∧ (l.timeout ≠ 0 → listEmpty l.st.q.links ls = true)
  | .events rest num ls =>
      l.st.q.phase = .loop ∧ (rest.map Prod.fst).Nodup ∧ (∀ p ∈ rest, l.st.io.epoll p.1 ≠ none) ∧
        (num = 0 → rest = [] ∧ ls = l.last)
  | .dequeue t => l.st.q.phase = .loop ∧ l.timeout = 0 ∧ rrPicknext .runList l.st.q.links = some t
  | .task => (∃ t, l.st.q.phase = .running t) ∧ l.timeout = 0

variable {l l' : St} {a : Act}

/-- As long as its descriptor is in the epoll set, an event is handled as `Sched.lean` says. -/
theorem handleEvent_eq {s : Sched.St} {fd : Fd} (hfd : s.io.epoll fd ≠ none) (e : Events) :
    handleEvent s fd e = s.eventWait fd e := by
  unfold handleEvent St.eventWait
  refine Eq.trans ?_ (if_neg hfd).symm
  cases s.io.ifd fd with
  | none => rfl
  | some r =>
      obtain ⟨task, timeout, error⟩ := r
      cases task <;> rfl

/-- The task that was picked is the one that a dispatch takes. -/
theorem dispatch_eq {s : Sched.St} {t : Tid} (hp : s.q.phase = .loop)
    (ht : rrPicknext .runList s.q.links = some t) : Sched.step s .dispatch = some (dispatch s t) := by
  unfold Sched.step Queues.dispatch
  rw [hp, ht]
  rfl

/-- What the steps of the loop do to the thread. -/
theorem step_refines (hok : l.Ok) (e : step l a = some l') :
    l'.st = l.st ∨ ∃ b, (Loop.closesIdle l a = true → Sched.closesIdle l.st b = true) ∧
      closeStep l.st b = some l'.st := by
  unfold St.Ok at hok
  cases a with
  | sched =>
      have e' : sched l = some l' := e
      unfold sched at e'
      cases hpc : l.pc with
      | handle =>
          simp only [hpc] at e'
          obtain ⟨s, hs, rfl⟩ := Option.map_eq_some_iff.mp e'
          exact .inr ⟨.act .handlePrev, fun _ => rfl, hs⟩
      | readLast =>
          simp only [hpc] at e'
          obtain rfl := Option.some.inj e'
          exact .inl rfl
      | events rest num ls =>
          rw [hpc] at hok
          cases rest with
          | nil =>
              simp only [hpc] at e'
              obtain rfl := Option.some.inj e'
              exact .inl rfl
          | cons p rest =>
              obtain ⟨fd, ev⟩ := p
              simp only [hpc] at e'
              obtain ⟨s, hs, rfl⟩ := Option.map_eq_some_iff.mp e'
              rw [handleEvent_eq (hok.2.2.1 (fd, ev) List.mem_cons_self)] at hs
              refine .inr ⟨.act (.event fd ev), fun _ => rfl, ?_⟩
              show Sched.step l.st (.event fd ev) = some s
              unfold Sched.step
              rw [hok.1]
              exact hs
      | test ls =>
          simp only [hpc] at e'
          split_ifs at e'
          · obtain rfl := Option.some.inj e'
            exact .inl rfl
          · cases ls with
            | head h => cases e'
            | elem t =>
                obtain rfl := Option.some.inj e'
                exact .inl rfl
      | dequeue t =>
          rw [hpc] at hok
          simp only [hpc] at e'
          obtain rfl := Option.some.inj e'
          exact .inr ⟨.act .dispatch, fun _ => rfl, dispatch_eq hok.1 hok.2.2⟩
      | epollWait ls | task => simp [hpc] at e'
  | epollWait es =>
      have e' : epollWait l es = some l' := e
      unfold epollWait at e'
      split at e'
      · obtain ⟨-, e'⟩ := Option.ite_none_right_eq_some.mp e'
        obtain rfl := Option.some.inj e'
        exact .inl rfl
      · cases e'
  | task b =>
      obtain ⟨-, e⟩ := Option.ite_none_right_eq_some.mp e
      obtain ⟨s, hs, rfl⟩ := Option.map_eq_some_iff.mp e
      exact .inr ⟨b, id, hs⟩

/-- Whether the list of a head is empty, as the test of `RR_picknext` sees it. -/
theorem listEmpty_last {H E : Type} [DecidableEq H] [DecidableEq E] {L : Links (Node H E)}
    {v : View H E} (hR : Rings L v) (h : H) :
    listEmpty L (L.prev (.head h)) = true ↔ v h = [] := by
  have hflip : listEmpty L (L.prev (.head h)) = true ↔
      listEmpty L.flip (L.flip.next (.head h)) = true := by
    rw [listEmpty_iff, listEmpty_iff]
    exact and_comm
  rw [hflip, hR.flip.next_head_cursor, listEmpty_cursor hR.flip, List.isEmpty_iff, List.reverse_eq_nil_iff]

theorem handlePrev_phase {s s' : Sched.St} {t : Tid} (hp : s.q.phase = .handle t)
    (e : Sched.step s .handlePrev = some s') : s'.q.phase = .loop := by
  unfold Sched.step at e
  rw [hp] at e
  obtain rfl := Option.some.inj e
  show (s.q.handlePrev t).phase = .loop
  unfold Queues.handlePrev
  split <;> rfl

/-- The running task goes on, or switches to the scheduler. -/
theorem closeStep_phase {s s' : Sched.St} {b : CloseAct} {t : Tid} (hsafe : Safe s)
    (hp : s.q.phase = .running t) (e : closeStep s b = some s') :
    s'.q.phase = .running t ∨ s'.q.phase = .handle t := by
  obtain ⟨v, hf⟩ := hsafe.formed
  cases b with
  | act b =>
      obtain ⟨v', hq⟩ := (step_moves hf hp e).queues
      exact hq.phase.imp And.left And.left
  | close n =>
      unfold closeStep at e
      rw [hp] at e
      obtain ⟨-, e⟩ := Option.ite_none_right_eq_some.mp e
      obtain rfl := Option.some.inj e
      exact .inl hp

theorem ok_step (hsafe : Safe l.st) (hok : l.Ok) (e : step l a = some l') : l'.Ok := by
  unfold St.Ok at hok
  cases a with
  | sched =>
      have e' : sched l = some l' := e
      unfold sched at e'
      cases hpc : l.pc with
      | handle =>
          rw [hpc] at hok
          simp only [hpc] at e'
          obtain ⟨s, hs, rfl⟩ := Option.map_eq_some_iff.mp e'
          obtain ⟨⟨t, hp⟩, ht⟩ := hok
          exact ⟨handlePrev_phase hp hs, ht⟩
      | readLast =>
          rw [hpc] at hok
          simp only [hpc] at e'
          obtain rfl := Option.some.inj e'
          exact ⟨hok.1, rfl, fun h => absurd hok.2 h⟩
      | events rest num ls =>
          rw [hpc] at hok
          obtain ⟨hp, hnd, hep, hnum⟩ := hok
          cases rest with
          | nil =>
              simp only [hpc] at e'
              obtain rfl := Option.some.inj e'
              refine ⟨hp, rfl, fun ht => ?_⟩
              dsimp only at ht
              split_ifs at ht with h0
              · rw [← (hnum h0.1).2]
                exact h0.2
              · exact absurd rfl ht
          | cons p rest =>
              obtain ⟨fd, ev⟩ := p
              simp only [hpc] at e'
              obtain ⟨s, hs, rfl⟩ := Option.map_eq_some_iff.mp e'
              rw [handleEvent_eq (hep (fd, ev) List.mem_cons_self)] at hs
              obtain ⟨-, r, -, rfl⟩ := eventWait_eq hs
              obtain ⟨hnot, hnd⟩ := List.nodup_cons.mp hnd
              refine ⟨?_, hnd, fun p hm => ?_, fun h0 => absurd (hnum h0).1 (List.cons_ne_nil _ _)⟩
              · show (r.task.elim l.st.q l.st.q.coResume).phase = .loop
                cases r.task <;> exact hp
              · -- only the descriptor of this event has left the epoll set
                have hne : p.1 ≠ fd := fun hc => hnot (List.mem_map.mpr ⟨p, hm, hc⟩)
                show Function.update l.st.io.epoll fd none p.1 ≠ none
                rw [Function.update_of_ne hne]
                exact hep p (List.mem_cons_of_mem _ hm)
      | test ls =>
          rw [hpc] at hok
          simp only [hpc] at e'
          split_ifs at e' with hempty
          · obtain rfl := Option.some.inj e'
            exact ⟨hok.1, hok.2.1, hok.2.2⟩
          · cases ls with
            | head h => cases e'
            | elem t =>
                obtain rfl := Option.some.inj e'
                obtain ⟨hp, hls, hidle⟩ := hok
                refine ⟨hp, by_contra fun ht => hempty (hidle ht), ?_⟩
                show listPeek l.st.q.links l.last = some t
                rw [← hls, listPeek, if_neg hempty]
                rfl
      | dequeue t =>
          rw [hpc] at hok
          simp only [hpc] at e'
          obtain rfl := Option.some.inj e'
          exact ⟨⟨t, rfl⟩, hok.2.1⟩
      | epollWait ls | task => simp [hpc] at e'
  | epollWait es =>
      have e' : epollWait l es = some l' := e
      unfold epollWait at e'
      cases hpc : l.pc with
      | epollWait ls =>
          rw [hpc] at hok
          simp only [hpc] at e'
          obtain ⟨⟨-, hnd, hep⟩, e'⟩ := Option.ite_none_right_eq_some.mp e'
          obtain rfl := Option.some.inj e'
          exact ⟨hok.1, hnd, hep, fun h0 => ⟨List.length_eq_zero_iff.mp h0, hok.2.1⟩⟩
      | handle | readLast | events rest num ls | test ls | dequeue t | task => simp [hpc] at e'
  | task b =>
      obtain ⟨hpc, e⟩ := Option.ite_none_right_eq_some.mp e
      obtain ⟨s, hs, rfl⟩ := Option.map_eq_some_iff.mp e
      rw [hpc] at hok
      obtain ⟨⟨t, hp⟩, ht⟩ := hok
      unfold St.Ok
      dsimp only
      rcases closeStep_phase hsafe hp hs with h | h
      · rw [h]
        exact ⟨⟨t, rfl⟩, ht⟩
      · rw [h]
        exact ⟨⟨t, rfl⟩, ht⟩

/-! ### The loop refines the thread -/

/-- The thread of a state of the loop, and its place in the loop. -/
theorem reach_ok (hr : system.ReachVia (fun l a => closesIdle l a = true) l) :
    l.Ok ∧ closing.ReachVia (fun s a => Sched.closesIdle s a = true) l.st := by
  induction hr with
  | init h =>
      obtain ⟨n, count, rfl⟩ := h
      exact ⟨⟨(Queues.start_frame (n + 2)).1, rfl⟩, .init ⟨n, count, rfl⟩⟩
  | step _ ha e ih =>
      obtain ⟨hok, hs⟩ := ih
      refine ⟨ok_step (safe_of_closing hs) hok e, ?_⟩
      rcases step_refines hok e with h | ⟨b, hb, h⟩
      · rwa [h]
      · exact hs.step (hb ha) h

/-- Outside of `epoll_wait` and of the tasks the loop takes its next step. -/
theorem sched_total (hsafe : Safe l.st) (hok : l.Ok) (htask : l.pc ≠ .task)
    (hwait : ∀ ls, l.pc ≠ .epollWait ls) : ∃ l', sched l = some l' := by
  unfold St.Ok at hok
  unfold sched
  cases hpc : l.pc with
  | task => exact absurd hpc htask
  | epollWait ls => exact absurd hpc (hwait ls)
  | readLast | dequeue t => exact ⟨_, rfl⟩
  | handle =>
      rw [hpc] at hok
      obtain ⟨⟨t, hp⟩, -⟩ := hok
      have hs : Sched.step l.st .handlePrev = some { l.st with q := l.st.q.handlePrev t } := by
        unfold Sched.step
        rw [hp]
      dsimp only
      rw [hs]
      exact ⟨_, rfl⟩
  | events rest num ls =>
      rw [hpc] at hok
      obtain ⟨hp, -, hep, -⟩ := hok
      cases rest with
      | nil => exact ⟨_, rfl⟩
      | cons p rest =>
          obtain ⟨fd, ev⟩ := p
          have hfd := hep (fd, ev) List.mem_cons_self
          obtain ⟨-, s', e⟩ := hsafe.event hp hfd ev
          dsimp only
          rw [handleEvent_eq hfd, (step_event e).2]
          exact ⟨_, rfl⟩
  | test ls =>
      rw [hpc] at hok
      obtain ⟨-, rfl, -⟩ := hok
      obtain ⟨v, hf⟩ := hsafe.formed
      dsimp only
      split_ifs with hempty
      · exact ⟨_, rfl⟩
      · -- the last node of the run list is a task
        have hne : v .runList ≠ [] := fun h => hempty ((listEmpty_last hf.listed.rings _).mpr h)
        obtain ⟨t, ht⟩ := Option.ne_none_iff_exists'.mp (mt List.getLast?_eq_none_iff.mp hne)
        have hlast : l.last = .elem t := by
          show l.st.q.links.prev (.head .runList) = .elem t
          rw [hf.listed.rings.prev_head, ht]
          rfl
        rw [hlast]
        exact ⟨_, rfl⟩

/-- Every state of the loop is one of the thread, and outside of `epoll_wait` and of the tasks the loop
takes its next step. -/
theorem loop_refines (hr : system.ReachVia (fun l a => closesIdle l a = true) l) :
    closing.ReachVia (fun s a => Sched.closesIdle s a = true) l.st ∧
      (l.pc ≠ .task → (∀ ls, l.pc ≠ .epollWait ls) → ∃ l', step l .sched = some l') := by
  obtain ⟨hok, hs⟩ := reach_ok hr
  exact ⟨hs, sched_total (safe_of_closing hs) hok⟩

/-- `epoll_wait` is called with a timeout only when the run queue is empty. -/
theorem loop_sleeps_idle (hr : system.ReachVia (fun l a => closesIdle l a = true) l) {ls : Node Head Tid}
    (hpc : l.pc = .epollWait ls) (ht : l.timeout ≠ 0) : l.st.runQueue = [] := by
  obtain ⟨hok, hs⟩ := reach_ok hr
  obtain ⟨v, hf⟩ := (safe_of_closing hs).formed
  unfold St.Ok at hok
  rw [hpc] at hok
  obtain ⟨-, rfl, hidle⟩ := hok
  rw [hf.runQueue_eq]
  exact (listEmpty_last hf.listed.rings _).mp (hidle ht)

/-- One round of the loop: `epoll_wait` returns the events, which are handled, and a task is
dispatched. -/
def round (es : List (Fd × Events)) : List Act :=
  .sched :: .epollWait es :: List.replicate (es.length + 3) .sched

/-- The timeout task waits for its timer, the active task for a semaphore, and nothing happens. -/
def fallAsleep : List Act :=
  round [] ++ [.task (.act (.timeoutRead .again true)), .sched] ++ round [] ++
    [.task (.act (.user (.semWait 0))), .sched, .sched, .epollWait [], .sched, .sched]

/-- The timer of the wheel fires. -/
def wakeUp : List Act := fallAsleep ++ [.epollWait [(.wheelTimer, { epollin := true })]]

/-- The loop handles the event. -/
theorem loop_refines_timer : ∃ l l' : St, l.pc = .events [(.wheelTimer, { epollin := true })] 1
    (.head .runList) ∧ step l .sched = some l' := by
  have hrun := TS.ReachVia.exists_of_run (M := system) (s := start 0 fun _ => 0)
    (fun l a => closesIdle l a = true) wakeUp
    (fun l => decide (l.pc = .events [(.wheelTimer, { epollin := true })] 1 (.head .runList)))
    ⟨0, _, rfl⟩ (by decide +kernel) (by decide +kernel)
  obtain ⟨l, hl, hP⟩ := hrun
  have hpc := of_decide_eq_true hP
  obtain ⟨l', e⟩ := (loop_refines hl).2 (by rw [hpc]; exact Pc.noConfusion)
    (fun _ => by rw [hpc]; exact Pc.noConfusion)
  exact ⟨l, l', hpc, e⟩

theorem loop_sleeps_idle_one_minute : ∃ l : St, l.pc = .epollWait (.head .runList) ∧
    l.timeout = 60000 ∧ l.st.runQueue = [] := by
  have hrun := TS.ReachVia.exists_of_run (M := system) (s := start 0 fun _ => 0)
    (fun l a => closesIdle l a = true) fallAsleep
    (fun l => decide (l.pc = .epollWait (.head .runList) ∧ l.timeout = 60000))
    ⟨0, _, rfl⟩ (by decide +kernel) (by decide +kernel)
  obtain ⟨l, hl, hP⟩ := hrun
  obtain ⟨hpc, ht⟩ := of_decide_eq_true hP
  exact ⟨l, hpc, ht, loop_sleeps_idle hl hpc (by rw [ht]; decide)⟩

end Libcask.Sched.Loop
