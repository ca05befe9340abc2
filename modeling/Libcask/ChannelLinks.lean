import Libcask.ChannelSteps

/-! # Channels on links

The code of `Channel.lean` on the `run_link` fields and on plain lists takes the same steps with
the same results, as long as the links hold the lists (`lockstep`): every task that is linked on a
wait list was on no list before, which is what `Core` says of the running task. -/

namespace Libcask

/-- Two computations fail with the same error or give related results. -/
inductive Agree {ε σ τ : Type} (R : σ → τ → Prop) : Except ε σ → Except ε τ → Prop
  | error (e : ε) : Agree R (.error e) (.error e)
  | ok {a : σ} {b : τ} (h : R a b) : Agree R (.ok a) (.ok b)

namespace Agree

variable {ε σ τ σ' τ' : Type} {R : σ → τ → Prop} {S : σ' → τ' → Prop}

theorem bind {x : Except ε σ} {y : Except ε τ} {f : σ → Except ε σ'} {g : τ → Except ε τ'}
    (h : Agree R x y) (hf : ∀ a b, R a b → Agree S (f a) (g b)) :
    Agree S (x >>= f) (y >>= g) := by
  cases h with
  | error e => exact .error e
  | ok h => exact hf _ _ h

theorem toOption {x : Except ε σ} {y : Except ε τ} (h : Agree R x y) :
    Option.Rel R x.toOption y.toOption := by
  cases h with
  | error e => exact .none
  | ok h => exact .some h

end Agree

namespace Chan

variable {α : Type}

/-- The channel on the link fields of the tasks. -/
abbrev LSt (α : Type) := St (Links (Node Head Tid)) α

/-- The links hold the lists; everything else is the same. -/
inductive Holds : LSt α → VSt α → Prop
  | mk (d : Data α) {l : Links (Node Head Tid)} {v : View Head Tid} (hR : Rings l v) :
      Holds ⟨d, l⟩ ⟨d, v⟩

section functions
variable {c : LSt α} {s : VSt α} {me : Tid}

theorem Holds.rings (h : Holds c s) : Rings c.lists s.lists := by
  cases h
  assumption

theorem Holds.data (h : Holds c s) : c.toData = s.toData := by
  cases h
  rfl

theorem holds_coResume (h : Holds c s) (t : Tid) : Holds (coResume c t) (coResume s t) := by
  cases h with
  | mk d hR => exact .mk d (rings_rrEnqueue hR .runList t)

theorem holds_coSyncYield (h : Holds c s) (k : Ctl α) :
    Holds (coSyncYield c me k) (coSyncYield s me k) := by
  cases h with
  | mk d hR => exact .mk { d with ctl := Function.update d.ctl me k, current := none } hR

theorem holds_coCondSignal (h : Holds c s) (x : Head) :
    Holds (coCondSignal c x) (coCondSignal s x) := by
  cases h with
  | mk d hR => exact .mk d (rings_wakeFirst hR .runList x)

theorem holds_chanPushMsg (h : Holds c s) (m : Msg α) :
    Holds (chanPushMsg c m) (chanPushMsg s m) := by
  cases h with
  | mk d hR => exact .mk _ hR

theorem holds_chanPopMsg (h : Holds c s) : Holds (chanPopMsg c me) (chanPopMsg s me) := by
  cases h with
  | mk d hR => exact .mk _ hR

theorem holds_callReturn (h : Holds c s) : Holds (callReturn c me) (callReturn s me) := by
  cases h with
  | mk d hR => exact .mk { d with ctl := Function.update d.ctl me .idle } hR

theorem holds_sendReturn (h : Holds c s) (m : Msg α) :
    Holds (sendReturn c me m) (sendReturn s me m) := by
  cases h with
  | mk d hR => exact .mk _ hR

theorem holds_mutexWakeupTask (h : Holds c s) :
    Holds (mutexWakeupTask c) (mutexWakeupTask s) := by
  cases h with
  | mk d hR =>
      by_cases hl : d.lock.isSome = true
      · simpa [mutexWakeupTask, coMutexLocked, hl] using Holds.mk d hR
      · simpa [mutexWakeupTask, coMutexLocked, hl] using
          Holds.mk d (rings_wakeFirst hR .runList .mutexWait)

theorem agree_coMutexUnlock (h : Holds c s) :
    Agree Holds (coMutexUnlock c me) (coMutexUnlock s me) := by
  cases h with
  | mk d hR =>
      unfold coMutexUnlock coMutexLocked
      dsimp only
      split_ifs
      · exact .error _
      · exact .ok (.mk d hR)
      · exact .ok (holds_mutexWakeupTask (.mk { d with lock := none } hR))

theorem agree_coCondWait (h : Holds c s) (hf : s.lists.Free me) (x : Head) (w : Wait α) :
    Agree Holds (coCondWait c x me w) (coCondWait s x me w) := by
  cases h with
  | mk d hR =>
      have hadd := Holds.mk d (rings_addBefore (h := x) hR hf)
      unfold coCondWait coMutexLocked
      dsimp only
      split_ifs
      · exact .error _
      · exact (agree_coMutexUnlock hadd).bind fun _ _ h' => .ok (holds_coSyncYield h' _)

/-- The queue tests read only what the two sides share. -/
theorem chanMsgsEmpty_eq (h : Holds c s) : chanMsgsEmpty c = chanMsgsEmpty s := by
  cases h
  rfl

theorem chanMsgsFull_eq (h : Holds c s) : chanMsgsFull c = chanMsgsFull s := by
  cases h
  rfl

theorem free_signal (h : Holds c s) (hf : s.lists.Free me) (x : Head) :
    (coCondSignal s x).lists.Free me := hf.wakeFirst h.rings.ok .runList x

theorem agree_unlock_sendReturn (h : Holds c s) (m : Msg α) :
    Agree Holds (coMutexUnlock c me >>= fun c => pure (sendReturn c me m))
      (coMutexUnlock s me >>= fun s => pure (sendReturn s me m)) :=
  (agree_coMutexUnlock h).bind fun _ _ h' => .ok (holds_sendReturn h' m)

theorem agree_unlock_callReturn (h : Holds c s) :
    Agree Holds (coMutexUnlock c me >>= fun c => pure (callReturn c me))
      (coMutexUnlock s me >>= fun s => pure (callReturn s me)) :=
  (agree_coMutexUnlock h).bind fun _ _ h' => .ok (holds_callReturn h')

theorem agree_nobufferSendDo (h : Holds c s) (hf : s.lists.Free me) (m : Msg α) :
    Agree Holds (nobufferSendDo c me m) (nobufferSendDo s me m) := by
  have hpush := holds_coCondSignal (holds_chanPushMsg h m) .notEmpty
  unfold nobufferSendDo nobufferSendSent
  rw [chanMsgsEmpty_eq h, chanMsgsEmpty_eq hpush]
  split_ifs
  · exact agree_coCondWait hpush (free_signal (holds_chanPushMsg h m) hf _) _ _
  · exact agree_unlock_sendReturn hpush m
  · exact agree_coCondWait h hf _ _

theorem agree_nobufferSendWoken (h : Holds c s) (hf : s.lists.Free me) (m : Msg α) (sent : Bool) :
    Agree Holds (nobufferSendWoken c me m sent) (nobufferSendWoken s me m sent) := by
  unfold nobufferSendWoken
  rw [chanMsgsEmpty_eq h]
  split_ifs
  · exact agree_unlock_sendReturn h m
  · exact agree_coCondWait h hf _ _
  · exact agree_nobufferSendDo h hf m

theorem agree_nobufferRecvWhile (h : Holds c s) (hf : s.lists.Free me) :
    Agree Holds (nobufferRecvWhile c me) (nobufferRecvWhile s me) := by
  unfold nobufferRecvWhile
  rw [chanMsgsEmpty_eq h]
  split_ifs
  · exact agree_coCondWait h hf _ _
  · exact agree_unlock_callReturn
      (holds_coCondSignal (holds_coCondSignal (holds_chanPopMsg h) _) _)

theorem agree_bufferSendWhile (h : Holds c s) (hf : s.lists.Free me) (m : Msg α) :
    Agree Holds (bufferSendWhile c me m) (bufferSendWhile s me m) := by
  unfold bufferSendWhile
  rw [chanMsgsFull_eq h]
  split_ifs
  · exact agree_coCondWait h hf _ _
  · exact agree_unlock_sendReturn (holds_coCondSignal (holds_chanPushMsg h m) _) m

theorem agree_bufferRecvWhile (h : Holds c s) (hf : s.lists.Free me) :
    Agree Holds (bufferRecvWhile c me) (bufferRecvWhile s me) := by
  unfold bufferRecvWhile
  rw [chanMsgsEmpty_eq h]
  split_ifs
  · exact agree_coCondWait h hf _ _
  · exact agree_unlock_callReturn (holds_coCondSignal (holds_chanPopMsg h) _)

theorem agree_goOn (h : Holds c s) (hf : s.lists.Free me) :
    ∀ p : Point α, Agree Holds (goOn c me p) (goOn s me p)
  | .sendStart m => agree_nobufferSendDo h hf m
  | .loop (.nobufferSend m sent) => agree_nobufferSendWoken h hf m sent
  | .loop .nobufferRecv => agree_nobufferRecvWhile h hf
  | .loop (.bufferSend m) => agree_bufferSendWhile h hf m
  | .loop .bufferRecv => agree_bufferRecvWhile h hf

theorem agree_lockLoop (h : Holds c s) (hf : s.lists.Free me) (p : Point α) :
    Agree Holds (lockLoop c me p) (lockLoop s me p) := by
  cases h with
  | mk d hR =>
      unfold lockLoop
      cases hl : d.lock with
      | none => exact agree_goOn (.mk { d with lock := some me } hR) hf p
      | some u => exact .ok (holds_coSyncYield (.mk d (rings_addBefore hR hf)) _)

theorem agree_coMutexLock (h : Holds c s) (hf : s.lists.Free me) (p : Point α) :
    Agree Holds (coMutexLock c me p) (coMutexLock s me p) := by
  unfold coMutexLock
  rw [h.data]
  split_ifs
  · exact .error _
  · exact agree_lockLoop h hf p

theorem agree_chanSend (h : Holds c s) (hf : s.lists.Free me) (data : Option α) :
    Agree Holds (chanSend c me data) (chanSend s me data) := by
  cases h with
  | mk d hR =>
      unfold chanSend chanBuffered
      dsimp only
      split_ifs
      · exact agree_coMutexLock (.mk { d with calls := d.calls + 1 } hR) hf _
      · exact agree_coMutexLock (.mk { d with calls := d.calls + 1 } hR) hf _

theorem agree_chanRecv (h : Holds c s) (hf : s.lists.Free me) :
    Agree Holds (chanRecv c me) (chanRecv s me) := by
  cases h with
  | mk d hR =>
      unfold chanRecv chanBuffered
      dsimp only
      split_ifs
      · exact agree_coMutexLock (.mk d hR) hf _
      · exact agree_coMutexLock (.mk d hR) hf _

theorem holds_coCreate (h : Holds c s) : Holds (coCreate c) (coCreate s) := by
  cases h with
  | mk d hR =>
      exact holds_coResume
        (.mk { d with ctl := Function.update d.ctl d.created .idle, created := d.created + 1 } hR) _

theorem agree_dispatch (h : Holds c s) (t : Tid) :
    Agree Holds (dispatch c t) (dispatch s t) := by
  cases h with
  | mk d hR =>
      have hd := Holds.mk { d with current := some t } (rings_rrDequeue hR t)
      have hf : (rrDequeue _ t : View Head Tid).Free t := View.free_delete hR.ok t
      unfold dispatch
      dsimp only
      cases d.ctl t with
      | idle => exact .ok (holds_callReturn hd)
      | elsewhere => exact .ok (holds_callReturn hd)
      | cond w => exact agree_coMutexLock hd hf _
      | mutex p => exact agree_lockLoop hd hf p
      | finished => exact .error _

theorem agree_userAct (h : Holds c s) (hf : s.lists.Free me) :
    ∀ a : Act α, Agree Holds (userAct c me a) (userAct s me a)
  | .send data => agree_chanSend h hf data
  | .recv => agree_chanRecv h hf
  | .yield => .ok (holds_coResume (holds_coSyncYield h _) me)
  | .block => .ok (holds_coSyncYield h _)
  | .create => .ok (holds_coCreate h)
  | .exit => .ok (holds_coSyncYield h _)
  | .dispatch => .error _
  | .wake _ => .error _

theorem rel_step (h : Holds c s) (hc : Core s) (a : Act α) :
    Option.Rel Holds (step c a) (step s a) := by
  cases h with
  | @mk d l v hR =>
      have h := Holds.mk d hR
      unfold step
      dsimp only
      cases hcur : d.current with
      | none =>
          cases a with
          | dispatch =>
              dsimp only
              rw [rrPicknext_eq hR]
              cases rrPicknext Head.runList v with
              | none => exact .none
              | some t => exact (agree_dispatch h t).toOption
          | wake t =>
              dsimp only
              cases d.ctl t with
              | elsewhere => exact .some (holds_coResume h t)
              | idle | cond _ | mutex _ | finished => exact .none
          | send _ | recv | yield | block | create | exit => exact .none
      | some me =>
          dsimp only
          cases d.ctl me with
          | idle => exact (agree_userAct h (hc.current me hcur) a).toOption
          | elsewhere | cond _ | mutex _ | finished => exact .none

theorem holds_start (nelems elemSize : ℕ) :
    ∀ n, Holds (start nelems elemSize n : LSt α) (start nelems elemSize n : VSt α)
  | 0 => .mk _ rings_empty
  | n + 1 => holds_coCreate (holds_start nelems elemSize n)

end functions

/-! ### Runs -/

/-- The relation between the two sides along a run. -/
structure Sim (c : LSt α) (s : VSt α) : Prop where
  holds : Holds c s
  rest : Rest s

/-- On links and on plain lists the channel takes the same steps. -/
theorem lockstep (α : Type) (nelems elemSize : ℕ) (ok : VSt α → Act α → Prop) :
    TS.Lockstep (system (Links (Node Head Tid)) α nelems elemSize)
      (system (View Head Tid) α nelems elemSize) ok Sim where
  init := by
    rintro c ⟨n, rfl⟩
    exact ⟨_, ⟨n, rfl⟩, holds_start nelems elemSize n, (Rest.start nelems elemSize n).1⟩
  init_back := by
    rintro s ⟨n, rfl⟩
    exact ⟨_, ⟨n, rfl⟩, holds_start nelems elemSize n, (Rest.start nelems elemSize n).1⟩
  step := by
    intro c s a _ hsim _
    have hrel : Option.Rel Holds (step c a) (step s a) := rel_step hsim.holds hsim.rest.core a
    show Option.Rel Sim (step c a) (step s a)
    generalize hx : step c a = x at hrel ⊢
    generalize hy : step s a = y at hrel ⊢
    cases hrel with
    | none => exact .none
    | some h => exact .some ⟨h, hsim.rest.step hy⟩

end Chan

end Libcask
