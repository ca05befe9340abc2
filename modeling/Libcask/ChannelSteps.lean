import Libcask.Channel

/-! # What a step of a channel user does

On plain lists: `Core` collects what holds of the lists and the tasks at every moment, also while a
task is inside the mutex.  `Blk s me p s'` lists all that a task can do from the moment it has
locked the mutex until it blocks or returns (`goOn_blk`: it never panics), `Enter` the ways to get
there, and `Quiet` the steps that do not concern the channel.  `step_cases` says that every step is
one of these; all later invariants are derived from it. -/

namespace Libcask.Chan

variable {α : Type}

/-- The condition a `co_cond_wait` call waits on. -/
def Wait.head : Wait α → Head
  | .nobufferSend _ _ | .bufferSend _ => .notFull
  | .nobufferRecv | .bufferRecv => .notEmpty

/-- Calls made on a buffered channel. -/
def Wait.buffered : Wait α → Bool
  | .nobufferSend _ _ | .nobufferRecv => false
  | .bufferSend _ | .bufferRecv => true

def Point.buffered : Point α → Bool
  | .sendStart _ => false
  | .loop w => w.buffered

/-- The task waits, or has been woken and not run since, in a `co_cond_wait` call that meets `P`. -/
def Ctl.waits (P : Wait α → Bool) : Ctl α → Bool
  | .cond w => P w
  | _ => false

/-- The channel on plain lists. -/
abbrev VSt (α : Type) := St (View Head Tid) α

namespace VSt

/-- The tasks that have control or will get it without being woken. -/
def awake (s : VSt α) : List Tid := s.lists .runList ++ s.current.toList

/-- How many of them stand in a `co_cond_wait` call that meets `P`. -/
def awakeCount (s : VSt α) (P : Wait α → Bool) : ℕ := s.awake.countP fun t => (s.ctl t).waits P

/-- The mutex is released, with nobody waiting for it. -/
def unlocked (s : VSt α) : VSt α := { s with lock := none }

/-- The task `me`, inside the mutex, goes to sleep in the wait `w`. -/
def sleep (s : VSt α) (me : Tid) (w : Wait α) : VSt α :=
  coSyncYield { s with lock := none, lists := s.lists.addBefore w.head me } me (.cond w)

/-- The task `me`, inside the mutex, pops a message, wakes two senders and returns. -/
def nobufferPop (s : VSt α) (me : Tid) : VSt α :=
  callReturn (unlocked (coCondSignal (coCondSignal (chanPopMsg s me) .notFull) .notFull)) me

end VSt

/-- What holds of the lists and the tasks at every moment. -/
structure Core (s : VSt α) : Prop where
  ok : s.lists.Ok
  mutexWait : s.lists .mutexWait = []
  current : ∀ t, s.current = some t → s.lists.Free t
  onWait : ∀ h t, h ≠ .runList → t ∈ s.lists h → ∃ w, s.ctl t = .cond w ∧ w.head = h
  waiting : ∀ t w, s.ctl t = .cond w → t ∈ s.awake ∨ t ∈ s.lists w.head
  notMutex : ∀ t p, s.ctl t ≠ .mutex p
  kind : ∀ t w, s.ctl t = .cond w → (w.buffered = true ↔ s.nelems ≠ 0)
  finished : ∀ t, s.ctl t = .finished → s.lists.Free t
  fresh : ∀ t, s.created ≤ t → s.ctl t = .finished

theorem Wait.head_ne_runList (w : Wait α) : w.head ≠ .runList := by
  cases w <;> simp [Wait.head]

theorem Wait.head_ne_mutexWait (w : Wait α) : w.head ≠ .mutexWait := by
  cases w <;> simp [Wait.head]

/-! ### Signals -/

section signal
variable {s : VSt α} {h : Head}

theorem wakeFirst_view (hok : s.lists.Ok) (hne : h ≠ .runList) (h' : Head) :
    (coCondSignal s h).lists h' =
      if h' = .runList then (s.lists h).take 1 ++ s.lists .runList
      else if h' = h then (s.lists h).drop 1 else s.lists h' := by
  show wakeFirst .runList h s.lists h' = _
  cases hl : s.lists h with
  | nil =>
      rw [View.wakeFirst_nil hl]
      by_cases h1 : h' = .runList
      · simp [h1]
      · by_cases h2 : h' = h
        · simp [h2, hl, hne]
        · simp [h1, h2]
  | cons t r =>
      rw [View.wakeFirst_eq hok hl hne]
      by_cases h1 : h' = .runList
      · simp [h1]
      · by_cases h2 : h' = h
        · simp [h2, hne]
        · simp [h1, h2]

theorem signal_lists (hok : s.lists.Ok) (hne : h ≠ .runList) :
    (coCondSignal s h).lists h = (s.lists h).drop 1 := by
  rw [wakeFirst_view hok hne]
  simp [hne]

theorem signal_lists_of_ne (hok : s.lists.Ok) (hne : h ≠ .runList) {h' : Head}
    (h1 : h' ≠ .runList) (h2 : h' ≠ h) : (coCondSignal s h).lists h' = s.lists h' := by
  rw [wakeFirst_view hok hne]
  simp [h1, h2]

theorem signal_awake (hok : s.lists.Ok) (hne : h ≠ .runList) :
    VSt.awake (coCondSignal s h) = (s.lists h).take 1 ++ s.awake := by
  unfold VSt.awake
  rw [wakeFirst_view hok hne, if_pos rfl, List.append_assoc]
  rfl

theorem mem_signal_lists (hok : s.lists.Ok) (hne : h ≠ .runList) {h' : Head} {t : Tid}
    (h1 : h' ≠ .runList) (ht : t ∈ (coCondSignal s h).lists h') : t ∈ s.lists h' := by
  by_cases h2 : h' = h
  · subst h2
    rw [signal_lists hok hne] at ht
    exact List.mem_of_mem_drop ht
  · rwa [signal_lists_of_ne hok hne h1 h2] at ht

/-- A signal wakes the first waiter and nobody else. -/
theorem signal_count (hok : s.lists.Ok) (hne : h ≠ .runList) (P : Wait α → Bool) :
    VSt.awakeCount (coCondSignal s h) P =
      ((s.lists h).take 1).countP (fun t => (s.ctl t).waits P) + s.awakeCount P := by
  unfold VSt.awakeCount
  rw [signal_awake hok hne, List.countP_append]
  rfl

theorem Core.signal (hc : Core s) (hne : h ≠ .runList) : Core (coCondSignal s h) where
  ok := hc.ok.wakeFirst .runList h
  mutexWait := by
    apply List.eq_nil_iff_forall_not_mem.mpr
    intro t ht
    have := mem_signal_lists hc.ok hne (by decide) ht
    simp [hc.mutexWait] at this
  current t ht := (hc.current t ht).wakeFirst hc.ok .runList h
  onWait h' t h1 ht := hc.onWait h' t h1 (mem_signal_lists hc.ok hne h1 ht)
  waiting t w hw := by
    rw [signal_awake hc.ok hne, List.mem_append]
    rcases hc.waiting t w hw with ha | ha
    · exact .inl (.inr ha)
    · by_cases h2 : w.head = h
      · rw [← List.take_append_drop 1 (s.lists w.head), List.mem_append, h2] at ha
        rw [h2, signal_lists hc.ok hne]
        exact ha.imp .inl id
      · rw [signal_lists_of_ne hc.ok hne w.head_ne_runList h2]
        exact .inr ha
  notMutex := hc.notMutex
  kind := hc.kind
  finished t ht := (hc.finished t ht).wakeFirst hc.ok .runList h
  fresh := hc.fresh

end signal

/-! ### Pushing and popping -/

theorem Core.push {s : VSt α} (hc : Core s) (m : Msg α) : Core (chanPushMsg s m) :=
  ⟨hc.ok, hc.mutexWait, hc.current, hc.onWait, hc.waiting, hc.notMutex, hc.kind, hc.finished,
    hc.fresh⟩

theorem Core.pop {s : VSt α} (hc : Core s) (me : Tid) : Core (chanPopMsg s me) :=
  ⟨hc.ok, hc.mutexWait, hc.current, hc.onWait, hc.waiting, hc.notMutex, hc.kind, hc.finished,
    hc.fresh⟩

theorem Core.setLock {s : VSt α} (hc : Core s) (o : Option Tid) : Core { s with lock := o } :=
  ⟨hc.ok, hc.mutexWait, hc.current, hc.onWait, hc.waiting, hc.notMutex, hc.kind, hc.finished,
    hc.fresh⟩

/-! ### The end of a block: sleep or return -/

section finish
variable {s : VSt α} {me : Tid}

/-- The running task is not on the run queue. -/
theorem Core.not_mem_runList (hc : Core s) (hcur : s.current = some me) :
    me ∉ s.lists .runList := hc.current me hcur .runList

theorem mem_awake {s : VSt α} {t : Tid} :
    t ∈ s.awake ↔ t ∈ s.lists .runList ∨ s.current = some t := by
  simp [VSt.awake]

theorem sleep_lists (w : Wait α) (h : Head) :
    (s.sleep me w).lists h = if h = w.head then s.lists h ++ [me] else s.lists h := by
  show s.lists.addBefore w.head me h = _
  by_cases hh : h = w.head
  · subst hh
    simp [View.addBefore]
  · simp [View.addBefore, hh]

theorem mem_sleep_lists {w : Wait α} {h : Head} {t : Tid} :
    t ∈ (s.sleep me w).lists h ↔ (t = me ∧ h = w.head) ∨ t ∈ s.lists h := View.mem_addBefore

theorem sleep_awake (w : Wait α) : (s.sleep me w).awake = s.lists .runList := by
  unfold VSt.awake
  rw [sleep_lists, if_neg w.head_ne_runList.symm]
  simp [VSt.sleep, coSyncYield]

theorem sleep_ctl (s : VSt α) (me : Tid) (w : Wait α) :
    (s.sleep me w).ctl = Function.update s.ctl me (.cond w) := rfl

theorem Core.mem_sleep_awake (hc : Core s) (hcur : s.current = some me) (w : Wait α) {t : Tid} :
    t ∈ (s.sleep me w).awake ↔ t ∈ s.awake ∧ t ≠ me := by
  rw [sleep_awake, mem_awake, hcur]
  constructor
  · intro ht
    exact ⟨.inl ht, fun hc' => hc.not_mem_runList hcur (hc' ▸ ht)⟩
  · rintro ⟨ht | ht, hne⟩
    · exact ht
    · exact absurd (Option.some.inj ht).symm hne

/-- In the run queue, a change of the running task's own state is not seen. -/
theorem Core.countP_update (hc : Core s) (hcur : s.current = some me) (c : Ctl α)
    (P : Wait α → Bool) :
    (s.lists .runList).countP (fun t => (Function.update s.ctl me c t).waits P) =
      (s.lists .runList).countP fun t => (s.ctl t).waits P := by
  apply List.countP_congr
  intro t ht
  rw [Function.update_of_ne (ne_of_mem_of_not_mem ht (hc.not_mem_runList hcur))]

theorem Core.return_count (hc : Core s) (hcur : s.current = some me) (P : Wait α → Bool) :
    s.awakeCount P =
      VSt.awakeCount (callReturn s me) P + if (s.ctl me).waits P then 1 else 0 := by
  have hawake : VSt.awake (callReturn s me) = s.lists .runList ++ [me] := by
    simp [VSt.awake, callReturn, hcur]
  unfold VSt.awakeCount
  rw [hawake, VSt.awake, hcur, List.countP_append, List.countP_append]
  show _ = (s.lists .runList).countP (fun t => (Function.update s.ctl me .idle t).waits P) + _ + _
  rw [hc.countP_update hcur]
  simp [List.countP_singleton, Chan.callReturn, show Ctl.waits P .idle = false from rfl]

theorem Core.sleep_count (hc : Core s) (hcur : s.current = some me) (w : Wait α)
    (P : Wait α → Bool) :
    s.awakeCount P = (s.sleep me w).awakeCount P + if (s.ctl me).waits P then 1 else 0 := by
  unfold VSt.awakeCount
  rw [sleep_awake, sleep_ctl, hc.countP_update hcur, VSt.awake, hcur, List.countP_append]
  simp [List.countP_singleton]

/-- A task that exists has a number below `created`. -/
theorem Core.lt_created (hc : Core s) (hf : s.ctl me ≠ .finished) : me < s.created := by
  by_contra hle
  exact hf (hc.fresh me (not_lt.mp hle))

theorem Core.sleep (hc : Core s) (hcur : s.current = some me) {w : Wait α}
    (hk : w.buffered = true ↔ s.nelems ≠ 0) (hf : s.ctl me ≠ .finished) :
    Core (s.sleep me w) where
  ok := hc.ok.addBefore (hc.current me hcur)
  mutexWait := by
    rw [sleep_lists, if_neg w.head_ne_mutexWait.symm]
    exact hc.mutexWait
  current t ht := by cases ht
  onWait h t hne ht := by
    by_cases htm : t = me
    · subst htm
      refine ⟨w, Function.update_self .., ?_⟩
      rcases mem_sleep_lists.mp ht with ⟨-, hh⟩ | hm
      · exact hh.symm
      · exact absurd hm (hc.current t hcur h)
    · rw [sleep_ctl, Function.update_of_ne htm]
      rcases mem_sleep_lists.mp ht with ⟨hc', -⟩ | hm
      · exact absurd hc' htm
      · exact hc.onWait h t hne hm
  waiting t w' hw := by
    rw [hc.mem_sleep_awake hcur]
    by_cases htm : t = me
    · subst htm
      obtain rfl : w = w' := by simpa [sleep_ctl] using hw
      exact .inr (mem_sleep_lists.mpr (.inl ⟨rfl, rfl⟩))
    · rw [sleep_ctl, Function.update_of_ne htm] at hw
      exact (hc.waiting t w' hw).imp (⟨·, htm⟩) fun hm => mem_sleep_lists.mpr (.inr hm)
  notMutex t p := by
    by_cases htm : t = me
    · simp [sleep_ctl, htm]
    · rw [sleep_ctl, Function.update_of_ne htm]
      exact hc.notMutex t p
  kind t w' hw := by
    by_cases htm : t = me
    · obtain rfl : w = w' := by simpa [sleep_ctl, htm] using hw
      exact hk
    · rw [sleep_ctl, Function.update_of_ne htm] at hw
      exact hc.kind t w' hw
  finished t ht h hm := by
    have htm : t ≠ me := by
      intro hc'
      simp [sleep_ctl, hc'] at ht
    rw [sleep_ctl, Function.update_of_ne htm] at ht
    rcases mem_sleep_lists.mp hm with ⟨hc', -⟩ | hm
    · exact htm hc'
    · exact hc.finished t ht h hm
  fresh t ht := by
    have htm : t ≠ me := ((hc.lt_created hf).trans_le ht).ne'
    rw [sleep_ctl, Function.update_of_ne htm]
    exact hc.fresh t ht

end finish

/-! ### Steps that do not concern the channel -/

/-- Nothing happens to the channel and to the tasks that stand in one of its calls; only the lock
word, and the number of calls made, can change. -/
structure Quiet (s s' : VSt α) : Prop where
  msgs : s'.msgs = s.msgs
  nelems : s'.nelems = s.nelems
  pushed : s'.pushed = s.pushed
  popped : s'.popped = s.popped
  returned : s'.returned = s.returned
  calls : s.calls ≤ s'.calls
  lists : ∀ h, h ≠ .runList → s'.lists h = s.lists h
  ctl : ∀ t w, s'.ctl t = .cond w ↔ s.ctl t = .cond w
  awake : ∀ t w, s.ctl t = .cond w → (t ∈ s'.awake ↔ t ∈ s.awake)

namespace Quiet

variable {s s' s'' : VSt α}

theorem trans (h1 : Quiet s s') (h2 : Quiet s' s'') : Quiet s s'' where
  msgs := h2.msgs.trans h1.msgs
  nelems := h2.nelems.trans h1.nelems
  pushed := h2.pushed.trans h1.pushed
  popped := h2.popped.trans h1.popped
  returned := h2.returned.trans h1.returned
  calls := h1.calls.trans h2.calls
  lists h hne := (h2.lists h hne).trans (h1.lists h hne)
  ctl t w := (h2.ctl t w).trans (h1.ctl t w)
  awake t w hw := (h2.awake t w ((h1.ctl t w).mpr hw)).trans (h1.awake t w hw)

end Quiet

section quiet
variable {s : VSt α} {t : Tid}

/-- A task that is on no wait list changes to `c`, which is no wait. -/
theorem Core.setCtl (hc : Core s) {c : Ctl α} {n : ℕ} (ht : ∀ h, h ≠ .runList → t ∉ s.lists h)
    (hcw : ∀ w, c ≠ .cond w) (hcm : ∀ p, c ≠ .mutex p) (hfin : c = .finished → s.lists.Free t)
    (hn : s.created ≤ n) (htn : t < n) :
    Core { s with ctl := Function.update s.ctl t c, created := n } := by
  have hctl : ∀ {u}, u ≠ t → Function.update s.ctl t c u = s.ctl u :=
    fun hu => Function.update_of_ne hu _ _
  have hwait : ∀ {u w}, Function.update s.ctl t c u = .cond w → u ≠ t := by
    intro u w hw hu
    rw [hu, Function.update_self] at hw
    exact hcw w hw
  refine ⟨hc.ok, hc.mutexWait, hc.current, fun h u hne hu => ?_, fun u w hw => ?_, fun u p => ?_,
    fun u w hw => ?_, fun u hu => ?_, fun u hu => ?_⟩
  · have hut : u ≠ t := fun hc' => ht h hne (hc' ▸ hu)
    simpa [hctl hut] using hc.onWait h u hne hu
  · exact hc.waiting u w (by rwa [← hctl (hwait hw)])
  · by_cases hut : u = t
    · simp [hut, hcm]
    · simpa [hctl hut] using hc.notMutex u p
  · exact hc.kind u w (by rwa [← hctl (hwait hw)])
  · by_cases hut : u = t
    · subst hut
      exact hfin (by simpa using hu)
    · exact hc.finished u (by simpa [hctl hut] using hu)
  · have hut : u ≠ t := (htn.trans_le hu).ne'
    simpa [hctl hut] using hc.fresh u (hn.trans hu)

theorem Core.callReturn (hc : Core s) (hcur : s.current = some t) (hf : s.ctl t ≠ .finished) :
    Core (callReturn s t) :=
  hc.setCtl (fun h _ => hc.current t hcur h) (by simp) (by simp) (by simp) le_rfl
    (hc.lt_created hf)

/-- The same without a wait before either. -/
theorem Quiet.setCtl {c : Ctl α} {n : ℕ} (ht : ∀ w, s.ctl t ≠ .cond w) (hcw : ∀ w, c ≠ .cond w) :
    Quiet s { s with ctl := Function.update s.ctl t c, created := n } := by
  refine ⟨rfl, rfl, rfl, rfl, rfl, le_rfl, fun _ _ => rfl, fun u w => ?_, fun _ _ _ => Iff.rfl⟩
  by_cases hu : u = t
  · subst hu
    simp [hcw, ht]
  · simp [Function.update_of_ne hu]

theorem Core.not_mem_of_not_cond (hc : Core s) (ht : ∀ w, s.ctl t ≠ .cond w) (h : Head)
    (hne : h ≠ .runList) : t ∉ s.lists h := by
  intro hm
  obtain ⟨w, hw, -⟩ := hc.onWait h t hne hm
  exact ht w hw

/-- A task that stands in no wait, and is not running, is put on the run queue. -/
theorem Core.resume (hc : Core s) (ht : ∀ w, s.ctl t ≠ .cond w) (hf : s.ctl t ≠ .finished)
    (hcur : s.current ≠ some t) : Core (coResume s t) ∧ Quiet s (coResume s t) := by
  have hmem : ∀ h u, u ∈ (coResume s t).lists h ↔
      (u = t ∧ h = .runList) ∨ (u ≠ t ∧ u ∈ s.lists h) := fun h u => View.mem_rrEnqueue hc.ok
  have hlists : ∀ h, h ≠ .runList → (coResume s t).lists h = s.lists h := by
    intro h hne
    show View.addAfter (s.lists.delete t) .runList t h = _
    rw [View.addAfter, Function.update_of_ne hne, View.delete]
    exact List.erase_of_not_mem (hc.not_mem_of_not_cond ht h hne)
  have hawake : ∀ u w, s.ctl u = .cond w → (u ∈ VSt.awake (coResume s t) ↔ u ∈ s.awake) := by
    intro u w hw
    have hne : u ≠ t := fun hc' => ht w (hc' ▸ hw)
    rw [mem_awake, mem_awake, hmem]
    simp [hne, coResume]
  refine ⟨⟨hc.ok.rrEnqueue .runList t, ?_, fun u hu h hm => ?_, fun h u hne hu => ?_,
    fun u w hw => ?_, hc.notMutex, hc.kind, fun u hu h hm => ?_, hc.fresh⟩,
    ⟨rfl, rfl, rfl, rfl, rfl, le_rfl, hlists, fun _ _ => Iff.rfl, hawake⟩⟩
  · rw [hlists _ (by decide)]
    exact hc.mutexWait
  · rcases (hmem h u).mp hm with ⟨hut, -⟩ | ⟨-, hm⟩
    · exact hcur (hut ▸ hu)
    · exact hc.current u hu h hm
  · rw [hlists h hne] at hu
    exact hc.onWait h u hne hu
  · rw [hawake u w hw, hlists _ w.head_ne_runList]
    exact hc.waiting u w hw
  · rcases (hmem h u).mp hm with ⟨hut, -⟩ | ⟨-, hm⟩
    · exact hf (hut ▸ hu)
    · exact hc.finished u hu h hm

/-- The running task, which stands in no wait, gives up control. -/
theorem Core.release (hc : Core s) (hcur : s.current = some t) (ht : ∀ w, s.ctl t ≠ .cond w) :
    Core { s with current := none } ∧ Quiet s { s with current := none } := by
  have hawake : ∀ u w, s.ctl u = .cond w →
      (u ∈ VSt.awake { s with current := none } ↔ u ∈ s.awake) := by
    intro u w hw
    have hne : t ≠ u := fun hc' => ht w (hc' ▸ hw)
    rw [mem_awake, mem_awake, hcur]
    simp [hne]
  refine ⟨⟨hc.ok, hc.mutexWait, fun _ hu => (nomatch hu), hc.onWait, fun u w hw => ?_, hc.notMutex,
    hc.kind, hc.finished, hc.fresh⟩, ⟨rfl, rfl, rfl, rfl, rfl, le_rfl, fun _ _ => rfl, fun _ _ => Iff.rfl, hawake⟩⟩
  rw [hawake u w hw]
  exact hc.waiting u w hw

/-- Dispatching the last task of the run queue leaves the list of awake tasks as it is. -/
theorem Core.dispatch (hc : Core s) (hcur : s.current = none)
    (hpick : (s.lists .runList).getLast? = some t) :
    Core { s with lists := rrDequeue s.lists t, current := some t } ∧
      Quiet s { s with lists := rrDequeue s.lists t, current := some t } := by
  obtain ⟨r, hr⟩ := List.getLast?_eq_some_iff.mp hpick
  have hnd := hc.ok.nodup .runList
  have hmem : t ∈ s.lists .runList := List.mem_of_getLast? hpick
  have hdel : (s.lists .runList).erase t = r := by
    rw [hr] at hnd ⊢
    have : t ∉ r := fun hm => (List.nodup_append.mp hnd).2.2 t hm t (by simp) rfl
    rw [List.erase_append_right _ this]
    simp
  have hlists : ∀ h, h ≠ .runList → s.lists.delete t h = s.lists h := by
    intro h hne
    exact List.erase_of_not_mem fun hm => hne (hc.ok.disjoint hm hmem)
  have hawake : VSt.awake { s with lists := rrDequeue s.lists t, current := some t } = s.awake := by
    show (s.lists .runList).erase t ++ [t] = s.lists .runList ++ s.current.toList
    rw [hdel, hcur, hr]
    simp
  refine ⟨⟨hc.ok.delete t, ?_, fun u hu => ?_, fun h u hne hu => ?_, fun u w hw => ?_, hc.notMutex,
    hc.kind, fun u hu h hm => ?_, hc.fresh⟩,
    ⟨rfl, rfl, rfl, rfl, rfl, le_rfl, hlists, fun _ _ => Iff.rfl, fun _ _ _ => by rw [hawake]⟩⟩
  · show s.lists.delete t .mutexWait = []
    rw [hlists _ (by decide)]
    exact hc.mutexWait
  · obtain rfl : t = u := Option.some.inj hu
    exact View.free_delete hc.ok t
  · exact hc.onWait h u hne (List.mem_of_mem_erase hu)
  · rw [hawake]
    show _ ∨ u ∈ s.lists.delete t w.head
    rw [hlists _ w.head_ne_runList]
    exact hc.waiting u w hw
  · exact hc.finished u hu h (List.mem_of_mem_erase hm)

end quiet

/-! ### Inside the mutex -/

/-- What the task `me` can do from the moment it has locked the mutex, with the rest `p` of its
call, until it blocks or returns. -/
inductive Blk (s : VSt α) (me : Tid) : Point α → VSt α → Prop
  | sendWait {p : Point α} {m : Msg α} (hp : p = .sendStart m ∨ p = .loop (.nobufferSend m false))
      (hq : s.msgs.isEmpty = false) : Blk s me p (s.sleep me (.nobufferSend m false))
  | sendPush {p : Point α} {m : Msg α} (hp : p = .sendStart m ∨ p = .loop (.nobufferSend m false))
      (hq : s.msgs.isEmpty = true) :
      Blk s me p (VSt.sleep (coCondSignal (chanPushMsg s m) .notEmpty) me (.nobufferSend m true))
  | sendDone {m : Msg α} :
      Blk s me (.loop (.nobufferSend m true)) (sendReturn s.unlocked me m)
  | recvWait {w : Wait α} (hw : w = .nobufferRecv ∨ w = .bufferRecv)
      (hq : s.msgs.isEmpty = true) : Blk s me (.loop w) (s.sleep me w)
  | nobufferPop (hq : s.msgs.isEmpty = false) :
      Blk s me (.loop .nobufferRecv) (s.nobufferPop me)
  | bufferSendWait {m : Msg α} (hq : chanMsgsFull s = true) :
      Blk s me (.loop (.bufferSend m)) (s.sleep me (.bufferSend m))
  | bufferPush {m : Msg α} (hq : chanMsgsFull s = false) :
      Blk s me (.loop (.bufferSend m))
        (sendReturn (VSt.unlocked (coCondSignal (chanPushMsg s m) .notEmpty)) me m)
  | bufferPop (hq : s.msgs.isEmpty = false) :
      Blk s me (.loop .bufferRecv)
        (callReturn (VSt.unlocked (coCondSignal (chanPopMsg s me) .notFull)) me)

section block
variable {s : VSt α} {me : Tid}

/-- The unlock finds nobody waiting for the mutex. -/
theorem coMutexUnlock_eq (hl : s.lock = some me) (hw : s.lists .mutexWait = []) :
    coMutexUnlock s me = .ok s.unlocked := by
  have hwake : wakeFirst .runList .mutexWait s.lists = s.lists := View.wakeFirst_nil hw
  simp [coMutexUnlock, hl, coMutexLocked, mutexWakeupTask, hwake, VSt.unlocked]

theorem coCondWait_eq (hl : s.lock = some me) (hw : s.lists .mutexWait = []) (w : Wait α) :
    coCondWait s w.head me w = .ok (s.sleep me w) := by
  have hm : s.lists.addBefore w.head me .mutexWait = [] := by
    rw [View.addBefore, Function.update_of_ne w.head_ne_mutexWait.symm]
    exact hw
  have hu := coMutexUnlock_eq (s := { s with lists := s.lists.addBefore w.head me }) hl hm
  simp only [coCondWait, coMutexLocked, hl, ListOps.addBefore] at hu ⊢
  rw [hu]
  rfl

/-- A push leaves the queue not empty, whatever its size field was. -/
theorem isEmpty_pushBack {d : Deque (Msg α)} (h : d.isEmpty = true) (m : Msg α) :
    (d.pushBack m).isEmpty = false := by
  simp only [Deque.isEmpty, decide_eq_true_eq, decide_eq_false_iff_not, Deque.size, Deque.size_eq,
    toInt32_eq_zero_iff, Deque.toList_pushBack, List.length_append, List.length_singleton] at h ⊢
  omega

/-- The body of the `do` loop, which a task reaches with its message not pushed yet. -/
theorem nobufferSendDo_blk (hc : Core s) (hl : s.lock = some me) {p : Point α} {m : Msg α}
    (hp : p = .sendStart m ∨ p = .loop (.nobufferSend m false)) :
    ∃ s', nobufferSendDo s me m = .ok s' ∧ Blk s me p s' := by
  cases he : s.msgs.isEmpty with
  | false =>
      refine ⟨_, ?_, .sendWait hp he⟩
      simp only [nobufferSendDo, chanMsgsEmpty, he, Bool.false_eq_true, if_false]
      exact coCondWait_eq hl hc.mutexWait (.nobufferSend m false)
  | true =>
      have hpush := (hc.push m).signal (h := .notEmpty) (by decide)
      have hl' : (coCondSignal (chanPushMsg s m) .notEmpty).lock = some me := hl
      have hne : chanMsgsEmpty (coCondSignal (chanPushMsg s m) .notEmpty) = false :=
        isEmpty_pushBack he _
      refine ⟨_, ?_, .sendPush hp he⟩
      rw [nobufferSendDo, chanMsgsEmpty, he, if_pos rfl, nobufferSendSent, hne]
      exact coCondWait_eq hl' hpush.mutexWait (.nobufferSend m true)

theorem nobufferSendWoken_blk (hc : Core s) (hl : s.lock = some me) (m : Msg α) (sent : Bool) :
    ∃ s', nobufferSendWoken s me m sent = .ok s' ∧
      Blk s me (.loop (.nobufferSend m sent)) s' := by
  cases sent with
  | true =>
      refine ⟨_, ?_, .sendDone⟩
      rw [nobufferSendWoken, if_pos rfl, coMutexUnlock_eq hl hc.mutexWait]
      rfl
  | false =>
      obtain ⟨s', h1, h2⟩ := nobufferSendDo_blk hc hl (m := m) (.inr rfl)
      refine ⟨s', ?_, h2⟩
      rw [← h1]
      cases he : s.msgs.isEmpty with
      | true => simp [nobufferSendWoken, chanMsgsEmpty, he]
      | false => simp [nobufferSendWoken, nobufferSendDo, chanMsgsEmpty, he]

theorem nobufferRecvWhile_blk (hc : Core s) (hl : s.lock = some me) :
    ∃ s', nobufferRecvWhile s me = .ok s' ∧ Blk s me (.loop .nobufferRecv) s' := by
  cases he : s.msgs.isEmpty with
  | true =>
      refine ⟨_, ?_, .recvWait (.inl rfl) he⟩
      rw [nobufferRecvWhile, chanMsgsEmpty, he]
      exact coCondWait_eq hl hc.mutexWait .nobufferRecv
  | false =>
      have hpop := ((hc.pop me).signal (h := .notFull) (by decide)).signal (h := .notFull)
        (by decide)
      have hl' : (coCondSignal (coCondSignal (chanPopMsg s me) .notFull) .notFull).lock = some me :=
        hl
      refine ⟨_, ?_, .nobufferPop he⟩
      rw [nobufferRecvWhile, chanMsgsEmpty, he, if_neg Bool.false_ne_true]
      dsimp only
      rw [coMutexUnlock_eq hl' hpop.mutexWait]
      rfl

theorem bufferSendWhile_blk (hc : Core s) (hl : s.lock = some me) (m : Msg α) :
    ∃ s', bufferSendWhile s me m = .ok s' ∧ Blk s me (.loop (.bufferSend m)) s' := by
  cases he : chanMsgsFull s with
  | true =>
      refine ⟨_, ?_, .bufferSendWait he⟩
      rw [bufferSendWhile, he]
      exact coCondWait_eq hl hc.mutexWait (.bufferSend m)
  | false =>
      have hpush := (hc.push m).signal (h := .notEmpty) (by decide)
      have hl' : (coCondSignal (chanPushMsg s m) .notEmpty).lock = some me := hl
      refine ⟨_, ?_, .bufferPush he⟩
      rw [bufferSendWhile, he, if_neg Bool.false_ne_true]
      dsimp only
      rw [coMutexUnlock_eq hl' hpush.mutexWait]
      rfl

theorem bufferRecvWhile_blk (hc : Core s) (hl : s.lock = some me) :
    ∃ s', bufferRecvWhile s me = .ok s' ∧ Blk s me (.loop .bufferRecv) s' := by
  cases he : s.msgs.isEmpty with
  | true =>
      refine ⟨_, ?_, .recvWait (.inr rfl) he⟩
      rw [bufferRecvWhile, chanMsgsEmpty, he]
      exact coCondWait_eq hl hc.mutexWait .bufferRecv
  | false =>
      have hpop := (hc.pop me).signal (h := .notFull) (by decide)
      have hl' : (coCondSignal (chanPopMsg s me) .notFull).lock = some me := hl
      refine ⟨_, ?_, .bufferPop he⟩
      rw [bufferRecvWhile, chanMsgsEmpty, he, if_neg Bool.false_ne_true]
      dsimp only
      rw [coMutexUnlock_eq hl' hpop.mutexWait]
      rfl

/-- Inside the mutex a task never panics, and does one of the things listed in `Blk`. -/
theorem goOn_blk (hc : Core s) (hl : s.lock = some me) :
    ∀ p : Point α, ∃ s', goOn s me p = .ok s' ∧ Blk s me p s'
  | .sendStart _ => nobufferSendDo_blk hc hl (.inl rfl)
  | .loop (.nobufferSend m sent) => nobufferSendWoken_blk hc hl m sent
  | .loop .nobufferRecv => nobufferRecvWhile_blk hc hl
  | .loop (.bufferSend m) => bufferSendWhile_blk hc hl m
  | .loop .bufferRecv => bufferRecvWhile_blk hc hl

end block

/-! ### Steps -/

/-- The points at which a call can lock the mutex for the first time. -/
def Point.starts : Point α → Bool
  | .loop (.nobufferSend _ _) => false
  | _ => true

/-- The task `me` has locked the mutex, with the rest `p` of its call before it. -/
structure Inside (s : VSt α) (me : Tid) (p : Point α) : Prop where
  core : Core s
  lock : s.lock = some me
  current : s.current = some me
  kind : p.buffered = true ↔ s.nelems ≠ 0
  ctl : (p.starts = true ∧ s.ctl me = .idle) ∨ ∃ w, p = .loop w ∧ s.ctl me = .cond w

/-- The ways to get inside the mutex: a dispatched task that was woken, a call of `chan_send` and
a call of `chan_recv`. -/
inductive Enter (s : VSt α) : Act α → VSt α → Tid → Point α → Prop
  | woken {me : Tid} {w : Wait α} (hcur : s.current = none)
      (hpick : (s.lists .runList).getLast? = some me) (hctl : s.ctl me = .cond w) :
      Enter s .dispatch
        { s with lists := rrDequeue s.lists me, current := some me, lock := some me } me (.loop w)
  | send {me : Tid} {d : Option α} (hcur : s.current = some me) (hidle : s.ctl me = .idle) :
      Enter s (.send d) { s with calls := s.calls + 1, lock := some me } me
        (if s.nelems = 0 then .sendStart ⟨s.calls, d, false⟩
          else .loop (.bufferSend ⟨s.calls, d, false⟩))
  | recv {me : Tid} (hcur : s.current = some me) (hidle : s.ctl me = .idle) :
      Enter s .recv { s with lock := some me } me
        (.loop (if s.nelems = 0 then .nobufferRecv else .bufferRecv))

section steps
variable {s s₁ s' : VSt α} {me : Tid} {p : Point α} {a : Act α}

theorem Inside.not_finished (h : Inside s me p) : s.ctl me ≠ .finished := by
  rcases h.ctl with ⟨-, hi⟩ | ⟨w, -, hw⟩
  · simp [hi]
  · simp [hw]

theorem Enter.inside (hc : Core s) (h : Enter s a s₁ me p) : Quiet s s₁ ∧ Inside s₁ me p := by
  cases h with
  | @woken _ w hcur hpick hctl =>
      obtain ⟨hc', hq⟩ := hc.dispatch hcur hpick
      exact ⟨⟨hq.msgs, hq.nelems, hq.pushed, hq.popped, hq.returned, hq.calls, hq.lists, hq.ctl,
        hq.awake⟩, hc'.setLock _, rfl, rfl, hc.kind me w hctl, .inr ⟨w, rfl, hctl⟩⟩
  | send hcur hidle =>
      refine ⟨⟨rfl, rfl, rfl, rfl, rfl, Nat.le_succ _, fun _ _ => rfl, fun _ _ => Iff.rfl,
        fun _ _ _ => Iff.rfl⟩, ⟨hc.ok, hc.mutexWait, hc.current, hc.onWait, hc.waiting, hc.notMutex,
        hc.kind, hc.finished, hc.fresh⟩, rfl, hcur, ?_, .inl ⟨?_, hidle⟩⟩
      · by_cases h0 : s.nelems = 0 <;> simp [h0, Point.buffered, Wait.buffered]
      · by_cases h0 : s.nelems = 0 <;> simp [h0, Point.starts]
  | recv hcur hidle =>
      refine ⟨⟨rfl, rfl, rfl, rfl, rfl, le_rfl, fun _ _ => rfl, fun _ _ => Iff.rfl,
        fun _ _ _ => Iff.rfl⟩, hc.setLock _, rfl, hcur, ?_, .inl ⟨?_, hidle⟩⟩
      · by_cases h0 : s.nelems = 0 <;> simp [h0, Point.buffered, Wait.buffered]
      · by_cases h0 : s.nelems = 0 <;> simp [h0, Point.starts]

theorem Core.unlocked (hc : Core s) : Core s.unlocked := hc.setLock none

/-- What a task does inside the mutex keeps the lists in order and leaves the mutex free. -/
theorem Blk.core (hi : Inside s me p) (hb : Blk s me p s') : Core s' ∧ s'.lock = none := by
  have hc := hi.core
  have hk := hi.kind
  have hf := hi.not_finished
  cases hb with
  | sendWait hp hq =>
      refine ⟨hc.sleep hi.current ?_ hf, rfl⟩
      rcases hp with rfl | rfl <;> exact hk
  | sendPush hp hq =>
      refine ⟨((hc.push _).signal (by decide)).sleep hi.current ?_ hf, rfl⟩
      rcases hp with rfl | rfl <;> exact hk
  | sendDone =>
      have hr := hc.unlocked.callReturn (t := me) hi.current hf
      exact ⟨⟨hr.ok, hr.mutexWait, hr.current, hr.onWait, hr.waiting, hr.notMutex, hr.kind,
        hr.finished, hr.fresh⟩, rfl⟩
  | recvWait hw hq => exact ⟨hc.sleep hi.current hk hf, rfl⟩
  | nobufferPop hq =>
      have hs := ((hc.pop me).signal (h := .notFull) (by decide)).signal (h := .notFull) (by decide)
      exact ⟨hs.unlocked.callReturn hi.current hf, rfl⟩
  | bufferSendWait hq => exact ⟨hc.sleep hi.current hk hf, rfl⟩
  | @bufferPush m hq =>
      have hs := (hc.push m).signal (h := .notEmpty) (by decide)
      have hr := hs.unlocked.callReturn (t := me) hi.current hf
      exact ⟨⟨hr.ok, hr.mutexWait, hr.current, hr.onWait, hr.waiting, hr.notMutex, hr.kind,
        hr.finished, hr.fresh⟩, rfl⟩
  | bufferPop hq =>
      have hs := (hc.pop me).signal (h := .notFull) (by decide)
      exact ⟨hs.unlocked.callReturn hi.current hf, rfl⟩

/-- The call that a task makes on getting inside the mutex. -/
theorem coMutexLock_eq (hl : s.lock = none) (p : Point α) :
    coMutexLock s me p = goOn { s with lock := some me } me p := by
  simp [coMutexLock, lockLoop, hl]

theorem dispatch_cases (hc : Core s) (hl : s.lock = none) (hcur : s.current = none)
    (hpick : (s.lists .runList).getLast? = some me) :
    ∃ s', dispatch s me = .ok s' ∧
      ((Core s' ∧ s'.lock = none ∧ Quiet s s') ∨ ∃ s₁ p, Enter s .dispatch s₁ me p ∧ Blk s₁ me p s') := by
  obtain ⟨hc', hq⟩ := hc.dispatch hcur hpick
  have hret : ∀ {c}, s.ctl me = c → (∀ w, c ≠ .cond w) → c ≠ .finished →
      Core (callReturn { s with lists := rrDequeue s.lists me, current := some me } me) ∧
        s.lock = none ∧ Quiet s (callReturn { s with lists := rrDequeue s.lists me, current := some me } me) := by
    intro c hctl hw hf
    have hw' : ∀ w, s.ctl me ≠ .cond w := fun w => hctl ▸ hw w
    exact ⟨hc'.callReturn rfl (hctl ▸ hf), hl, hq.trans (Quiet.setCtl hw' (by simp))⟩
  cases hctl : s.ctl me with
  | idle =>
      refine ⟨_, ?_, .inl (hret hctl (by simp) (by simp))⟩
      simp [dispatch, hctl]
  | elsewhere =>
      refine ⟨_, ?_, .inl (hret hctl (by simp) (by simp))⟩
      simp [dispatch, hctl]
  | cond w =>
      have he : Enter s .dispatch _ me (.loop w) := .woken hcur hpick hctl
      obtain ⟨-, hin⟩ := he.inside hc
      obtain ⟨s', h1, h2⟩ := goOn_blk hin.core rfl (.loop w)
      refine ⟨s', ?_, .inr ⟨_, _, he, h2⟩⟩
      rw [← h1]
      simp only [dispatch, hctl]
      exact coMutexLock_eq (by exact hl) _
  | mutex p => exact absurd hctl (hc.notMutex me p)
  | finished => exact absurd (List.mem_of_getLast? hpick) (hc.finished me hctl .runList)

/-- A task in its own code gives up control and stands at `c`. -/
theorem Core.syncYield (hc : Core s) (hcur : s.current = some me) (hidle : s.ctl me = .idle)
    {c : Ctl α} (hcw : ∀ w, c ≠ .cond w) (hcm : ∀ p, c ≠ .mutex p) :
    Core (coSyncYield s me c) ∧ Quiet s (coSyncYield s me c) := by
  have hset : Core { s with ctl := Function.update s.ctl me c } :=
    hc.setCtl (fun h _ => hc.current me hcur h) hcw hcm (fun _ => hc.current me hcur) le_rfl
      (hc.lt_created (by simp [hidle]))
  have hq : Quiet s { s with ctl := Function.update s.ctl me c } :=
    Quiet.setCtl (by simp [hidle]) hcw
  obtain ⟨h1, h2⟩ := hset.release (t := me) hcur (by simpa using hcw)
  exact ⟨h1, hq.trans h2⟩

theorem Core.create (hc : Core s) (hne : ∀ t, s.current = some t → s.ctl t ≠ .finished) :
    Core (coCreate s) ∧ Quiet s (coCreate s) := by
  have hfin := hc.fresh s.created le_rfl
  have hset : Core { s with ctl := Function.update s.ctl s.created .idle, created := s.created + 1 } :=
    hc.setCtl (fun h _ => hc.finished _ hfin h) (by simp) (by simp) (by simp) (Nat.le_succ _)
      (Nat.lt_succ_self _)
  have hq : Quiet s
      { s with ctl := Function.update s.ctl s.created .idle, created := s.created + 1 } :=
    Quiet.setCtl (by simp [hfin]) (by simp)
  have hcur : s.current ≠ some s.created := fun h => hne _ h hfin
  obtain ⟨h1, h2⟩ := hset.resume (t := s.created) (by simp) (by simp) hcur
  exact ⟨h1, hq.trans h2⟩

/-- Every action of a task in its own code succeeds. -/
theorem userAct_cases (hc : Core s) (hl : s.lock = none) (hcur : s.current = some me)
    (hidle : s.ctl me = .idle) (ha : a ≠ .dispatch) (ha' : ∀ t, a ≠ .wake t) :
    ∃ s', userAct s me a = .ok s' ∧
      ((Core s' ∧ s'.lock = none ∧ Quiet s s') ∨
        ∃ s₁ p, Enter s a s₁ me p ∧ Blk s₁ me p s') := by
  cases a with
  | dispatch => exact absurd rfl ha
  | wake t => exact absurd rfl (ha' t)
  | send d =>
      have he : Enter s (.send d) _ me _ := .send hcur hidle
      obtain ⟨-, hin⟩ := he.inside hc
      obtain ⟨s', h1, h2⟩ := goOn_blk hin.core rfl _
      refine ⟨s', ?_, .inr ⟨_, _, he, h2⟩⟩
      rw [← h1]
      by_cases h0 : s.nelems = 0
      · simp [userAct, chanSend, chanBuffered, chanNobufferSend, h0, coMutexLock, lockLoop, hl]
      · simp [userAct, chanSend, chanBuffered, chanBufferSend, h0, coMutexLock, lockLoop, hl]
  | recv =>
      have he : Enter s .recv _ me _ := .recv hcur hidle
      obtain ⟨-, hin⟩ := he.inside hc
      obtain ⟨s', h1, h2⟩ := goOn_blk hin.core rfl _
      refine ⟨s', ?_, .inr ⟨_, _, he, h2⟩⟩
      rw [← h1]
      by_cases h0 : s.nelems = 0
      · simp [userAct, chanRecv, chanBuffered, chanNobufferRecv, h0, coMutexLock, lockLoop, hl]
      · simp [userAct, chanRecv, chanBuffered, chanBufferRecv, h0, coMutexLock, lockLoop, hl]
  | yield =>
      obtain ⟨h1, h2⟩ := hc.syncYield hcur hidle (c := .idle) (by simp) (by simp)
      obtain ⟨h3, h4⟩ := h1.resume (t := me) (by simp [coSyncYield]) (by simp [coSyncYield])
        (by simp [coSyncYield])
      exact ⟨_, rfl, .inl ⟨h3, hl, h2.trans h4⟩⟩
  | block =>
      obtain ⟨h1, h2⟩ := hc.syncYield hcur hidle (c := .elsewhere) (by simp) (by simp)
      exact ⟨_, rfl, .inl ⟨h1, hl, h2⟩⟩
  | create =>
      have hne : ∀ t, s.current = some t → s.ctl t ≠ .finished := by
        intro t ht
        obtain rfl : me = t := Option.some.inj (hcur.symm.trans ht)
        simp [hidle]
      obtain ⟨h1, h2⟩ := hc.create hne
      exact ⟨_, rfl, .inl ⟨h1, hl, h2⟩⟩
  | exit =>
      obtain ⟨h1, h2⟩ := hc.syncYield hcur hidle (c := .finished) (by simp) (by simp)
      exact ⟨_, rfl, .inl ⟨h1, hl, h2⟩⟩

/-- Every step is quiet, or is what a task does inside the mutex. -/
theorem step_cases (hc : Core s) (hl : s.lock = none) (h : step s a = some s') :
    (Core s' ∧ s'.lock = none ∧ Quiet s s') ∨
      ∃ s₁ me p, Enter s a s₁ me p ∧ Blk s₁ me p s' := by
  unfold step at h
  cases hcur : s.current with
  | none =>
      rw [hcur] at h
      cases a with
      | dispatch =>
          obtain ⟨t, hpick, ht⟩ := Option.bind_eq_some_iff.mp h
          obtain ⟨s₂, h1, h2⟩ := dispatch_cases hc hl hcur hpick
          rw [h1] at ht
          obtain rfl : s₂ = s' := Option.some.inj ht
          exact h2.imp_right fun ⟨s₁, p, he⟩ => ⟨s₁, t, p, he⟩
      | wake t =>
          dsimp only at h
          split at h
          · rename_i hctl
            obtain rfl : coResume s t = s' := Option.some.inj h
            obtain ⟨h1, h2⟩ := hc.resume (t := t) (by simp [hctl]) (by simp [hctl]) (by simp [hcur])
            exact .inl ⟨h1, hl, h2⟩
          · cases h
      | send _ | recv | yield | block | create | exit => cases h
  | some me =>
      rw [hcur] at h
      dsimp only at h
      split at h
      · rename_i hidle
        by_cases ha : a = .dispatch ∨ ∃ t, a = .wake t
        · rcases ha with rfl | ⟨t, rfl⟩ <;> cases h
        · push Not at ha
          obtain ⟨s₂, h1, h2⟩ := userAct_cases hc hl hcur hidle ha.1 ha.2
          rw [h1] at h
          obtain rfl : s₂ = s' := Option.some.inj h
          exact h2.imp_right fun ⟨s₁, p, he⟩ => ⟨s₁, me, p, he⟩
      · cases h

/-- What holds between two steps: the lists are in order and the mutex is free. -/
structure Rest (s : VSt α) : Prop where
  core : Core s
  lock : s.lock = none

theorem Rest.start (nelems elemSize : ℕ) :
    ∀ n, Rest (start nelems elemSize n : VSt α) ∧ (start nelems elemSize n : VSt α).current = none
  | 0 => by
      refine ⟨⟨⟨⟨fun _ => List.nodup_nil, fun h => nomatch h⟩, rfl, fun _ h => (nomatch h),
        fun _ _ _ h => (nomatch h), fun _ _ h => (nomatch h), fun _ _ h => (nomatch h),
        fun _ _ h => (nomatch h), fun _ _ _ => List.not_mem_nil, fun _ _ => rfl⟩, rfl⟩, rfl⟩
  | n + 1 => by
      obtain ⟨hr, hcur⟩ := Rest.start nelems elemSize n
      obtain ⟨h1, -⟩ := hr.core.create (by simp [hcur])
      exact ⟨⟨h1, hr.lock⟩, hcur⟩

theorem Rest.step (hr : Rest s) (h : step s a = some s') : Rest s' := by
  rcases step_cases hr.core hr.lock h with ⟨hc, hl, -⟩ | ⟨s₁, me, p, he, hb⟩
  · exact ⟨hc, hl⟩
  · obtain ⟨hc, hl⟩ := hb.core (he.inside hr.core).2
    exact ⟨hc, hl⟩

end steps

theorem Ctl.waits_eq_true {P : Wait α → Bool} {c : Ctl α} (h : c.waits P = true) :
    ∃ w, c = .cond w ∧ P w = true := by
  cases c with
  | cond w => exact ⟨w, rfl, h⟩
  | idle | elsewhere | mutex p | finished => cases h

theorem Core.awake_nodup {s : VSt α} (hc : Core s) : s.awake.Nodup := by
  unfold VSt.awake
  cases hcur : s.current with
  | none => simpa using hc.ok.nodup .runList
  | some t =>
      have hnot : t ∉ s.lists .runList := hc.not_mem_runList hcur
      simp only [Option.toList_some, List.nodup_append, List.nodup_singleton, true_and]
      refine ⟨hc.ok.nodup .runList, fun u hu v hv => ?_⟩
      rw [List.mem_singleton.mp hv]
      exact ne_of_mem_of_not_mem hu hnot

/-- A quiet step changes no count of awake tasks. -/
theorem Quiet.count {s s' : VSt α} (hq : Quiet s s') (hc : Core s) (hc' : Core s')
    (P : Wait α → Bool) : s'.awakeCount P = s.awakeCount P := by
  unfold VSt.awakeCount
  rw [List.countP_eq_length_filter, List.countP_eq_length_filter]
  apply List.Perm.length_eq
  apply (List.perm_ext_iff_of_nodup (hc'.awake_nodup.filter _) (hc.awake_nodup.filter _)).mpr
  intro t
  rw [List.mem_filter, List.mem_filter]
  constructor
  · rintro ⟨ht, hw⟩
    obtain ⟨w, hctl, hP⟩ := Ctl.waits_eq_true hw
    have hctl' := (hq.ctl t w).mp hctl
    exact ⟨(hq.awake t w hctl').mp ht, by simpa [hctl', Ctl.waits] using hP⟩
  · rintro ⟨ht, hw⟩
    obtain ⟨w, hctl, hP⟩ := Ctl.waits_eq_true hw
    exact ⟨(hq.awake t w hctl).mpr ht, by simpa [(hq.ctl t w).mpr hctl, Ctl.waits] using hP⟩

/-! ### Induction over runs -/

section reach
variable {nelems elemSize : ℕ} {ok : VSt α → Act α → Prop}

theorem Rest.of_reach {s : VSt α}
    (h : (system (View Head Tid) α nelems elemSize).ReachVia ok s) : Rest s := by
  refine h.invariant ?_ fun s a s' hr _ hs => hr.step hs
  rintro s ⟨n, rfl⟩
  exact (Rest.start nelems elemSize n).1

/-- An invariant of the channel holds of a new channel, and is kept by quiet steps and by what a
task does inside the mutex. -/
theorem invariant_of_blocks {I : VSt α → Prop} (h0 : I (chanOpen nelems elemSize))
    (hquiet : ∀ s s', Core s → Core s' → Quiet s s' → I s → I s')
    (hblk : ∀ s a s₁ me p s', I s → I s₁ → ok s a → Enter s a s₁ me p → Quiet s s₁ →
      Inside s₁ me p → Blk s₁ me p s' → I s')
    {s : VSt α} (h : (system (View Head Tid) α nelems elemSize).ReachVia ok s) : I s := by
  have hstart : ∀ n, I (start nelems elemSize n) := by
    intro n
    induction n with
    | zero => exact h0
    | succ n ih =>
        obtain ⟨hr, hcur⟩ := Rest.start (α := α) nelems elemSize n
        obtain ⟨h1, h2⟩ := hr.core.create (by simp [hcur])
        exact hquiet _ _ hr.core h1 h2 ih
  refine h.invariant_of (fun _ hr => Rest.of_reach hr) ?_ ?_
  · rintro s ⟨n, rfl⟩
    exact hstart n
  · intro s a s' hr hi ha hs
    rcases step_cases hr.core hr.lock hs with ⟨hc, -, hq⟩ | ⟨s₁, me, p, he, hb⟩
    · exact hquiet s s' hr.core hc hq hi
    · obtain ⟨hq, hin⟩ := he.inside hr.core
      exact hblk s a s₁ me p s' hi (hquiet s s₁ hr.core hin.core hq hi) ha he hq hin hb

end reach

end Libcask.Chan
