import Libcask.Parking
import Libcask.Semaphore

/-! # What the semaphore admits

* `Ledger` is what a semaphore keeps account of: its counter, the permits given out and put in, and
  the decrements of tasks that were not, or not yet, given a permit.  `Ledger.Step` is the abstract
  account of one shared access, and `step_ledger` says that every access of the code is one of them.
* `never_overadmits`: there are never more acquisitions than permits.
* `permit_lost`: a post can leave a permit unused while a task sleeps, since `co_sem_post` wakes a
  waiter only if the counter is still negative after its increment.  `no_lost_permit` is what
  remains: in runs in which no task posts while the counter is negative, nobody sleeps next to an
  unused permit. -/

namespace Libcask.Sem

/-! ### The wait list -/

namespace Pc

variable {T : Type}

/-- What the task is doing with the wait list. -/
def role : Pc T → Role T
  | .waitCheck | .waitGrant | .waitAdd => .inside
  | .tryCheck | .tryGrant | .tryInc | .tryFail => .inside
  | .postCheck | .postSkip | .postTake => .inside
  | .waitUnlock => .linked
  | .asleep => .asleep
  | .postUnlock o => .taking o
  | .postResume u => .resuming u
  | .idle | .waitDec | .waitLock | .tryDec | .tryLock | .postInc | .postLock | .finished => .out

/-- On its way out with a permit, or on its way to put one in. -/
def spoken : Pc T → ℕ
  | .waitGrant | .tryGrant | .postInc => 1
  | _ => 0

/-- A decrement of the counter that was not, or not yet, given a permit. -/
def debt : Pc T → ℕ
  | .waitLock | .waitCheck | .waitAdd | .waitUnlock | .asleep => 1
  | .tryLock | .tryCheck | .tryInc => 1
  | _ => 0

end Pc

def St.lot {T : Type} (s : St T) : Lot T := ⟨s.waitLock, s.waitList, Pc.role ∘ s.pc⟩

section lot
variable {T : Type} [DecidableEq T] {s s' : St T} {t : T} {a : Act T} {p : Pc T}

theorem lot_goto :
    (s.goto t p).lot = { s.lot with role := Function.update s.lot.role t p.role } := by
  unfold St.lot St.goto
  rw [Function.comp_update]

theorem lot_stay (h : p.role = (s.pc t).role) : (s.goto t p).lot = s.lot := by
  have e : Function.update s.lot.role t p.role = s.lot.role := by
    rw [h]
    exact Function.update_eq_self t s.lot.role
  rw [lot_goto, e]

theorem lot_spinLock (h : s.spinLock t p = some s') (hout : (s.pc t).role = .out)
    (hin : p.role = .inside) : s.lot.Step s'.lot := by
  unfold St.spinLock at h
  split at h
  · rename_i hfree
    obtain rfl := Option.some.inj h
    rw [lot_goto, hin]
    exact .lock t hfree hout
  · cases h

/-- Every shared access is a move of the task around the wait list. -/
theorem run_lot (h : run s t = some s') : s.lot.Step s'.lot := by
  have hrole : s.lot.role t = (s.pc t).role := rfl
  unfold run at h
  cases hpc : s.pc t with
  | idle | finished | asleep => simp [hpc] at h
  | waitDec | tryDec =>
      rw [hpc] at h
      obtain rfl := Option.some.inj h
      split_ifs
      · rw [lot_stay (by rw [St.dec, hpc]; rfl)]
        exact .stay
      · rw [St.acquire, lot_stay (by rw [St.dec, hpc]; rfl)]
        exact .stay
  | waitLock | tryLock | postLock =>
      rw [hpc] at h
      exact lot_spinLock h (by rw [hpc]; rfl) rfl
  | waitCheck | tryCheck | postCheck =>
      rw [hpc] at h
      obtain rfl := Option.some.inj h
      rw [lot_stay (by rw [hpc]; split_ifs <;> rfl)]
      exact .stay
  | waitGrant | tryGrant | tryFail | postSkip =>
      rw [hpc] at h
      obtain rfl := Option.some.inj h
      first | rw [lot_goto] | rw [St.acquire, lot_goto]
      exact .unlock t (.inl (by rw [hrole, hpc]; rfl))
  | waitAdd =>
      rw [hpc] at h
      obtain rfl := Option.some.inj h
      rw [lot_goto]
      exact .link t (by rw [hrole, hpc]; rfl)
  | waitUnlock =>
      rw [hpc] at h
      obtain rfl := Option.some.inj h
      rw [lot_goto]
      exact .sleep t (by rw [hrole, hpc]; rfl)
  | tryInc =>
      rw [hpc] at h
      obtain rfl := Option.some.inj h
      rw [lot_stay (by rw [St.inc, hpc]; rfl)]
      exact .stay
  | postInc =>
      rw [hpc] at h
      obtain rfl := Option.some.inj h
      rw [lot_stay (by rw [St.inc, hpc]; split_ifs <;> rfl)]
      exact .stay
  | postTake =>
      rw [hpc] at h
      obtain rfl := Option.some.inj h
      rw [lot_goto]
      exact .take t (by rw [hrole, hpc]; rfl)
  | postUnlock o =>
      rw [hpc] at h
      cases o with
      | none =>
          obtain rfl := Option.some.inj h
          rw [lot_goto]
          exact .unlock t (.inr (by rw [hrole, hpc]; rfl))
      | some u =>
          obtain rfl := Option.some.inj h
          rw [lot_goto]
          exact .handOver t u (by rw [hrole, hpc]; rfl)
  | postResume u =>
      rw [hpc] at h
      obtain rfl := Option.some.inj h
      rw [lot_goto, lot_goto]
      exact .resume t u (by rw [hrole, hpc]; rfl)

theorem step_lot (h : step s a = some s') : s.lot.Step s'.lot := by
  cases a with
  | call t c =>
      obtain ⟨hpc, h⟩ := Option.ite_none_right_eq_some.mp h
      obtain rfl := Option.some.inj h
      cases c with
      | wait | tryWait | exit | post =>
          unfold enter
          rw [lot_stay (by rw [hpc]; rfl)]
          exact .stay
  | run t => exact run_lot h

omit [DecidableEq T] in
theorem role_asleep (h : s.lot.role t = .asleep) : s.pc t = .asleep := by
  have h' : (s.pc t).role = .asleep := h
  cases hpc : s.pc t <;> rw [hpc] at h' <;> first | rfl | cases h'

end lot

/-! ### The account of a semaphore -/

/-- What a semaphore keeps account of.  `spoken` are the permits on their way out or in, `debt` the
decrements of tasks that were not given a permit yet, `woken` those of tasks that slept and, when
they were woken, made another one. -/
structure Ledger where
  sem : ℤ
  count : ℕ
  posts : ℕ
  acquired : ℕ
  spoken : ℕ
  debt : ℕ
  woken : ℕ

namespace Ledger

/-- One shared access, as an entry in the account.  The flag marks the increment of a post. -/
inductive Step (l : Ledger) : Bool → Ledger → Prop
  | silent : Step l false l
  /-- A call of `co_sem_post`, before its increment. -/
  | begin : Step l false { l with posts := l.posts + 1, spoken := l.spoken + 1 }
  | post (h : 0 < l.spoken) :
      Step l true { l with sem := l.sem + 1, spoken := l.spoken - 1 }
  /-- A decrement that leaves the counter negative. -/
  | blocked (h : l.sem - 1 < 0) : Step l false { l with sem := l.sem - 1, debt := l.debt + 1 }
  | granted (h : 0 ≤ l.sem - 1) :
      Step l false { l with sem := l.sem - 1, acquired := l.acquired + 1 }
  /-- The recheck under the lock finds the counter not negative. -/
  | rechecked (h : 0 < l.debt) (hs : 0 ≤ l.sem) :
      Step l false { l with debt := l.debt - 1, spoken := l.spoken + 1 }
  | returned (h : 0 < l.spoken) :
      Step l false { l with spoken := l.spoken - 1, acquired := l.acquired + 1 }
  | wake (h : 0 < l.debt) : Step l false { l with debt := l.debt - 1, woken := l.woken + 1 }
  /-- `co_sem_try_wait` takes its decrement back. -/
  | back (h : 0 < l.debt) : Step l false { l with sem := l.sem + 1, debt := l.debt - 1 }

/-- The counter is what is left of the permits, less the decrements that were not served; and the
permits given out do not exceed those put in. -/
structure Balanced (l : Ledger) : Prop where
  sum : l.sem + l.acquired + l.spoken + l.debt + l.woken = l.count + l.posts
  le : l.acquired + l.spoken ≤ l.count + l.posts

/-- While a decrement is not served, all permits are given out. -/
def Exhausted (l : Ledger) : Prop :=
  0 < l.debt + l.woken → l.acquired + l.spoken = l.count + l.posts

theorem Balanced.step {l l' : Ledger} {b : Bool} (hl : l.Balanced) (h : l.Step b l') :
    l'.Balanced := by
  obtain ⟨h1, h2⟩ := hl
  cases h with
  | silent => exact ⟨h1, h2⟩
  | begin => constructor <;> dsimp only <;> omega
  | post h => constructor <;> dsimp only <;> omega
  | blocked h => constructor <;> dsimp only <;> omega
  | granted h => constructor <;> dsimp only <;> omega
  | rechecked h hs => constructor <;> dsimp only <;> omega
  | returned h => constructor <;> dsimp only <;> omega
  | wake h => constructor <;> dsimp only <;> omega
  | back h => constructor <;> dsimp only <;> omega

/-- Nobody sleeps next to a permit, as long as no post finds the counter negative. -/
theorem Exhausted.step {l l' : Ledger} {b : Bool} (hb : l.Balanced) (he : l.Exhausted)
    (h : l.Step b l') (hpost : b = true → 0 ≤ l.sem) : l'.Exhausted := by
  obtain ⟨h1, h2⟩ := hb
  unfold Exhausted at he ⊢
  cases h with
  | silent => exact he
  | begin =>
      dsimp only
      omega
  | post h =>
      -- the counter is not negative, so every decrement has been served
      have hs := hpost rfl
      dsimp only
      omega
  | blocked h =>
      -- a decrement fails only when nothing is left
      dsimp only
      omega
  | granted h =>
      dsimp only
      omega
  | rechecked h hs =>
      dsimp only
      omega
  | returned h =>
      dsimp only
      omega
  | wake h =>
      dsimp only
      omega
  | back h =>
      dsimp only
      omega

end Ledger

/-- The account of the state of a semaphore. -/
def St.ledger {T : Type} [Fintype T] (s : St T) : Ledger where
  sem := s.sem
  count := s.count
  posts := s.posts
  acquired := s.acquired
  spoken := tally Pc.spoken s.pc
  debt := tally Pc.debt s.pc
  woken := s.woken

/-- The next access does not take the counter `v` out of the range of an `int`. -/
def Pc.inRange {T : Type} (v : ℤ) : Pc T → Bool
  | .waitDec | .tryDec => -2 ^ 31 < v
  | .tryInc | .postInc => v + 1 < 2 ^ 31
  | _ => true

def noWrap {T : Type} (s : St T) : Act T → Bool
  | .call _ _ => true
  | .run t => (s.pc t).inRange s.sem

/-- The next access is the increment of a post. -/
def Pc.posts {T : Type} : Pc T → Bool
  | .postInc => true
  | _ => false

def isPost {T : Type} (s : St T) : Act T → Bool
  | .call _ _ => false
  | .run t => (s.pc t).posts

section ledger
variable {T : Type} [Fintype T] [DecidableEq T] {s s' : St T} {t : T} {a : Act T} {p : Pc T}

/-- The account after the move of one task. -/
theorem ledger_move (hpc : s'.pc = Function.update s.pc t p) (hc : s'.count = s.count) :
    s'.ledger = { s.ledger with
      sem := s'.sem
      posts := s'.posts
      acquired := s'.acquired
      woken := s'.woken
      spoken := s.ledger.spoken + p.spoken - (s.pc t).spoken
      debt := s.ledger.debt + p.debt - (s.pc t).debt } := by
  have h1 := tally_update (f := Pc.spoken) (p := s.pc) t p
  have h2 := tally_update (f := Pc.debt) (p := s.pc) t p
  unfold St.ledger
  rw [hpc, hc]
  congr 1 <;> dsimp only <;> omega

/-- A move between two states that count the same. -/
theorem ledger_goto (hsp : p.spoken = (s.pc t).spoken) (hdb : p.debt = (s.pc t).debt) :
    (s.goto t p).ledger = s.ledger := by
  have e : (s.goto t p).ledger = _ := ledger_move rfl rfl
  rw [e, hsp, hdb, Nat.add_sub_cancel, Nat.add_sub_cancel]
  rfl

omit [DecidableEq T] in
theorem spoken_pos (h : (s.pc t).spoken = 1) : 0 < s.ledger.spoken := by
  have := le_tally (f := Pc.spoken) (p := s.pc) t
  rw [h] at this
  exact this

omit [DecidableEq T] in
theorem debt_pos (h : (s.pc t).debt = 1) : 0 < s.ledger.debt := by
  have := le_tally (f := Pc.debt) (p := s.pc) t
  rw [h] at this
  exact this

omit [Fintype T] [DecidableEq T] in
theorem dec_sem (hr : IsInt32 s.sem) (h : -2 ^ 31 < s.sem) : s.dec.sem = s.sem - 1 :=
  toInt32_of_isInt32 ⟨by omega, by have := hr.2; omega⟩

omit [Fintype T] [DecidableEq T] in
theorem inc_sem (hr : IsInt32 s.sem) (h : s.sem + 1 < 2 ^ 31) : s.inc.sem = s.sem + 1 :=
  toInt32_of_isInt32 ⟨by have := hr.1; omega, h⟩

/-- A decrement of the counter at the start of `co_sem_wait` or `co_sem_try_wait`. -/
theorem ledger_dec (hr : IsInt32 s.sem) (hw : -2 ^ 31 < s.sem)
    (hsp : (s.pc t).spoken = 0) (hdb : (s.pc t).debt = 0) (hp : p.spoken = 0) (hp' : p.debt = 1) :
    s.ledger.Step false
      (if s.dec.sem < 0 then s.dec.goto t p else s.dec.acquire t).ledger := by
  have hd := dec_sem hr hw
  split_ifs with hneg
  · have e : (s.dec.goto t p).ledger = _ := ledger_move (s := s) rfl rfl
    rw [e, hsp, hdb, hp, hp']
    have hsem : (s.dec.goto t p).sem = s.ledger.sem - 1 := hd
    rw [hsem]
    exact .blocked (hsem ▸ hneg)
  · have e : (s.dec.acquire t).ledger = _ := ledger_move (s := s) (p := .idle) rfl rfl
    rw [e, hsp, hdb]
    have hsem : (s.dec.acquire t).sem = s.ledger.sem - 1 := hd
    rw [hsem]
    exact .granted (by rw [← hsem]; exact not_lt.mp hneg)

/-- The recheck under the lock. -/
theorem ledger_check (hsp : (s.pc t).spoken = 0) (hdb : (s.pc t).debt = 1)
    {q : Pc T} (hp : p.spoken = 1) (hp' : p.debt = 0) (hq : q.spoken = 0) (hq' : q.debt = 1) :
    s.ledger.Step false (s.goto t (if s.sem ≥ 0 then p else q)).ledger := by
  split_ifs with h
  · have e : (s.goto t p).ledger = _ := ledger_move rfl rfl
    rw [e, hsp, hdb, hp, hp']
    exact .rechecked (debt_pos hdb) h
  · rw [ledger_goto (by rw [hq, hsp]) (by rw [hq', hdb])]
    exact .silent

/-- The return with a permit, after the recheck. -/
theorem ledger_grant (hsp : (s.pc t).spoken = 1) (hdb : (s.pc t).debt = 0) :
    s.ledger.Step false (s.spinUnlock.acquire t).ledger := by
  have e : (s.spinUnlock.acquire t).ledger = _ := ledger_move (s := s) (p := .idle) rfl rfl
  rw [e, hsp, hdb]
  exact .returned (spoken_pos hsp)

theorem ledger_spinLock (h : s.spinLock t p = some s') (hsp : p.spoken = (s.pc t).spoken)
    (hdb : p.debt = (s.pc t).debt) : s.ledger.Step false s'.ledger := by
  unfold St.spinLock at h
  split at h
  · obtain rfl := Option.some.inj h
    rw [ledger_goto (by exact hsp) (by exact hdb)]
    exact .silent
  · cases h

/-- Every shared access is an entry in the account. -/
theorem run_ledger (hs : s.lot.Ok) (hr : IsInt32 s.sem)
    (hw : (s.pc t).inRange s.sem = true) (h : run s t = some s') :
    s.ledger.Step (s.pc t).posts s'.ledger := by
  unfold run at h
  cases hpc : s.pc t with
  | idle | finished | asleep => simp [hpc] at h
  | waitDec | tryDec =>
      rw [hpc] at h hw
      obtain rfl := Option.some.inj h
      exact ledger_dec hr (of_decide_eq_true hw) (by rw [hpc]; rfl) (by rw [hpc]; rfl) rfl rfl
  | waitLock | tryLock | postLock =>
      rw [hpc] at h
      exact ledger_spinLock h (by rw [hpc]; rfl) (by rw [hpc]; rfl)
  | waitCheck | tryCheck =>
      rw [hpc] at h
      obtain rfl := Option.some.inj h
      exact ledger_check (by rw [hpc]; rfl) (by rw [hpc]; rfl) rfl rfl rfl rfl
  | waitGrant | tryGrant =>
      rw [hpc] at h
      obtain rfl := Option.some.inj h
      exact ledger_grant (by rw [hpc]; rfl) (by rw [hpc]; rfl)
  | waitAdd =>
      rw [hpc] at h
      obtain rfl := Option.some.inj h
      rw [ledger_goto (by rw [St.addWaiter, hpc]; rfl) (by rw [St.addWaiter, hpc]; rfl)]
      exact .silent
  | waitUnlock =>
      rw [hpc] at h
      obtain rfl := Option.some.inj h
      rw [ledger_goto (by rw [St.spinUnlock, hpc]; rfl) (by rw [St.spinUnlock, hpc]; rfl)]
      exact .silent
  | tryInc =>
      rw [hpc] at h hw
      obtain rfl := Option.some.inj h
      have e : (s.inc.goto t .tryFail).ledger = _ := ledger_move (s := s) rfl rfl
      have hsem : (s.inc.goto t .tryFail).sem = s.ledger.sem + 1 := inc_sem hr (of_decide_eq_true hw)
      rw [e, hpc, hsem]
      exact .back (debt_pos (by rw [hpc]; rfl))
  | tryFail | postSkip =>
      rw [hpc] at h
      obtain rfl := Option.some.inj h
      rw [ledger_goto (by rw [St.spinUnlock, hpc]; rfl) (by rw [St.spinUnlock, hpc]; rfl)]
      exact .silent
  | postInc =>
      rw [hpc] at h hw
      obtain rfl := Option.some.inj h
      have hsem : s.inc.sem = s.ledger.sem + 1 := inc_sem hr (of_decide_eq_true hw)
      have hpos := spoken_pos (by rw [hpc]; rfl)
      have hkind : ∀ {q : Pc T}, q.spoken = 0 → q.debt = 0 →
          s.ledger.Step true (s.inc.goto t q).ledger := by
        intro q h1 h2
        have e : (s.inc.goto t q).ledger = _ := ledger_move (s := s) rfl rfl
        have hsem' : (s.inc.goto t q).sem = s.ledger.sem + 1 := hsem
        rw [e, hpc, h1, h2, hsem']
        exact .post hpos
      split_ifs
      · exact hkind rfl rfl
      · exact hkind rfl rfl
  | postCheck =>
      rw [hpc] at h
      obtain rfl := Option.some.inj h
      split_ifs
      · rw [ledger_goto (by rw [hpc]; rfl) (by rw [hpc]; rfl)]
        exact .silent
      · rw [ledger_goto (by rw [hpc]; rfl) (by rw [hpc]; rfl)]
        exact .silent
  | postTake =>
      rw [hpc] at h
      obtain rfl := Option.some.inj h
      rw [ledger_goto (by rw [St.dropWaiter, hpc]; rfl) (by rw [St.dropWaiter, hpc]; rfl)]
      exact .silent
  | postUnlock o =>
      have e : ∀ {q : Pc T}, q.spoken = 0 → q.debt = 0 →
          (s.spinUnlock.goto t q).ledger = s.ledger := by
        intro q h1 h2
        exact ledger_goto (s := s.spinUnlock) (by rw [h1, St.spinUnlock, hpc]; rfl)
          (by rw [h2, St.spinUnlock, hpc]; rfl)
      cases o with
      | none =>
          rw [hpc] at h
          obtain rfl := Option.some.inj h
          rw [e rfl rfl]
          exact .silent
      | some u =>
          rw [hpc] at h
          obtain rfl := Option.some.inj h
          rw [e rfl rfl]
          exact .silent
  | postResume u =>
      rw [hpc] at h
      obtain rfl := Option.some.inj h
      have hrole : s.lot.role t = .resuming u := by
        show (s.pc t).role = _
        rw [hpc]
        rfl
      obtain ⟨hasleep, -, hut⟩ := hs.resuming hrole
      have hu := role_asleep hasleep
      -- the waiter moves, and then the task that posts
      have hpc' : ({ s with woken := s.woken + 1 }.goto u .waitDec).pc t = .postResume u :=
        (Function.update_of_ne hut.symm _ _).trans hpc
      have e : ({ s with woken := s.woken + 1 }.goto u .waitDec).ledger = _ :=
        ledger_move (s := s) rfl rfl
      rw [ledger_goto (by rw [hpc']; rfl) (by rw [hpc']; rfl), e, hu]
      exact .wake (debt_pos (by rw [hu]; rfl))

theorem step_ledger (hs : s.lot.Ok) (hr : IsInt32 s.sem) (hw : noWrap s a = true)
    (h : step s a = some s') : s.ledger.Step (isPost s a) s'.ledger := by
  cases a with
  | call t c =>
      obtain ⟨hpc, h⟩ := Option.ite_none_right_eq_some.mp h
      obtain rfl := Option.some.inj h
      have e : ∀ {q : Pc T}, q.spoken = 0 → q.debt = 0 → (s.goto t q).ledger = s.ledger :=
        fun h1 h2 => ledger_goto (by rw [h1, hpc]; rfl) (by rw [h2, hpc]; rfl)
      cases c with
      | wait | tryWait | exit =>
          unfold enter
          rw [e rfl rfl]
          exact .silent
      | post =>
          have e' : (enter s t .post).ledger = _ := ledger_move (s := s) (p := .postInc) rfl rfl
          rw [e', hpc]
          exact .begin
  | run t => exact run_ledger hs hr hw h

/-! ### Runs -/

omit [Fintype T] in
/-- The counter is always a value of its type. -/
theorem isInt32_run (hr : IsInt32 s.sem) (h : run s t = some s') : IsInt32 s'.sem := by
  have hd : IsInt32 s.dec.sem := isInt32_toInt32 _
  have hi : IsInt32 s.inc.sem := isInt32_toInt32 _
  unfold run at h
  cases hpc : s.pc t with
  | idle | finished | asleep => simp [hpc] at h
  | waitDec | tryDec =>
      rw [hpc] at h
      obtain rfl := Option.some.inj h
      split_ifs <;> exact hd
  | tryInc | postInc =>
      rw [hpc] at h
      obtain rfl := Option.some.inj h
      exact hi
  | waitLock | tryLock | postLock =>
      rw [hpc] at h
      cases hl : s.waitLock with
      | none =>
          obtain rfl : _ = s' := Option.some.inj (by simpa [St.spinLock, hl] using h)
          exact hr
      | some u => simp [St.spinLock, hl] at h
  | waitCheck | waitGrant | waitAdd | waitUnlock | tryCheck | tryGrant | tryFail | postCheck |
    postSkip | postTake | postResume u =>
      rw [hpc] at h
      obtain rfl := Option.some.inj h
      exact hr
  | postUnlock o =>
      rw [hpc] at h
      cases o with
      | none | some u =>
          obtain rfl := Option.some.inj h
          exact hr

omit [Fintype T] in
theorem isInt32_step (hr : IsInt32 s.sem) (h : step s a = some s') : IsInt32 s'.sem := by
  cases a with
  | call t c =>
      obtain rfl := Option.some.inj (Option.ite_none_right_eq_some.mp h).2
      cases c <;> exact hr
  | run t => exact isInt32_run hr h

/-- What holds along every run in which the counter does not wrap. -/
structure Sound (s : St T) : Prop where
  lot : s.lot.Ok
  range : IsInt32 s.sem
  balanced : s.ledger.Balanced

omit [DecidableEq T] in
theorem Sound.init {count : ℕ} (hc : count < 2 ^ 31) : Sound (coSemInit count : St T) := by
  have hrange : IsInt32 (count : ℤ) := ⟨by omega, by omega⟩
  have hsem : (coSemInit count : St T).sem = count := by
    unfold coSemInit
    dsimp only
    rw [toInt32_of_isInt32 hrange]
  have hspoken : tally Pc.spoken (coSemInit count : St T).pc = 0 := tally_eq_zero fun _ => rfl
  have hdebt : tally Pc.debt (coSemInit count : St T).pc = 0 := tally_eq_zero fun _ => rfl
  have hledger : (coSemInit count : St T).ledger = ⟨count, count, 0, 0, 0, 0, 0⟩ := by
    unfold St.ledger
    rw [hsem, hspoken, hdebt]
    rfl
  refine ⟨Lot.Ok.init, hsem ▸ hrange, ?_⟩
  rw [hledger]
  constructor <;> simp

theorem Sound.step (hs : Sound s) (hw : noWrap s a = true) (h : step s a = some s') : Sound s' :=
  ⟨hs.lot.step (step_lot h), isInt32_step hs.range h,
    hs.balanced.step (step_ledger hs.lot hs.range hw h)⟩

theorem step_count (hs : Sound s) (hw : noWrap s a = true) (h : step s a = some s') :
    s'.count = s.count := by
  have hl := step_ledger hs.lot hs.range hw h
  have : s'.ledger.count = s.ledger.count := by
    generalize s'.ledger = l', isPost s a = b at hl ⊢
    cases hl <;> rfl
  exact this

theorem Sound.of_reach {count : ℕ} (hc : count < 2 ^ 31) {ok : St T → Act T → Prop}
    (hok : ∀ s a, ok s a → noWrap s a = true) (h : (system T count).ReachVia ok s) :
    Sound s ∧ s.count = count := by
  refine h.invariant (I := fun s => Sound s ∧ s.count = count) ?_ ?_
  · rintro s rfl
    exact ⟨Sound.init hc, rfl⟩
  · intro s a s' ⟨hs, hcount⟩ ha h
    exact ⟨hs.step (hok s a ha) h, (step_count hs (hok s a ha) h).trans hcount⟩

/-- A semaphore never admits more tasks than its count and the posts begun allow. -/
theorem never_overadmits {count : ℕ} (hc : count < 2 ^ 31)
    (h : (system T count).ReachVia (fun s a => noWrap s a = true) s) :
    s.acquired ≤ count + s.posts := by
  obtain ⟨hs, hcount⟩ := Sound.of_reach hc (fun _ _ h => h) h
  have hle : s.acquired + tally Pc.spoken s.pc ≤ s.count + s.posts := hs.balanced.le
  omega

end ledger

/-- Two tasks, one permit and one post: both acquisitions are admitted, the second by the recheck
under the lock. -/
theorem never_overadmits_recheck :
    ∃ s : St (Fin 2), s.acquired = 2 ∧ s.posts = 1 ∧ s.acquired ≤ 1 + s.posts := by
  have hrun := TS.ReachVia.exists_of_run (M := system (Fin 2) 1) (s := coSemInit 1)
    (fun s a => noWrap s a = true)
    [.call 0 .wait, .run 0, .call 0 .post, .call 1 .wait, .run 1, .run 0, .run 1, .run 1, .run 1]
    (fun s => decide (s.acquired = 2 ∧ s.posts = 1)) rfl (by decide +kernel) (by decide +kernel)
  obtain ⟨s, hs, hP⟩ := hrun
  obtain ⟨h1, h2⟩ := of_decide_eq_true hP
  exact ⟨s, h1, h2, never_overadmits (by decide) hs⟩

/-! ### Lost permits -/

section permits
variable {T : Type} [Fintype T] [DecidableEq T] {s : St T}

/-- Every task has exited or is asleep on the wait list. -/
def Quiescent (s : St T) : Prop :=
  ∀ t, s.pc t = .finished ∨ (s.pc t = .asleep ∧ t ∈ s.waitList)

instance (s : St T) : Decidable (Quiescent s) := inferInstanceAs (Decidable (∀ _, _))

/-- When nothing can run and a task is asleep, all permits have been given out. -/
def NoLostPermit (count : ℕ) (s : St T) : Prop :=
  Quiescent s → (∃ t ∈ s.waitList, s.pc t = .asleep) → s.acquired = count + s.posts

theorem exhausted_of_reach {count : ℕ} (hc : count < 2 ^ 31)
    (h : (system T count).ReachVia
      (fun s a => noWrap s a = true ∧ (isPost s a = true → 0 ≤ s.sem)) s) :
    s.ledger.Exhausted := by
  refine h.invariant_of (J := Sound) (I := fun s => s.ledger.Exhausted)
    (fun s hr => (Sound.of_reach hc (fun _ _ h => h.1) hr).1) ?_ ?_
  · rintro s rfl hd
    have hz : (coSemInit count : St T).ledger.debt = 0 := tally_eq_zero fun _ => rfl
    have hz' : (coSemInit count : St T).ledger.woken = 0 := rfl
    omega
  · intro s a s' hs he ha h
    exact he.step hs.balanced (step_ledger hs.lot hs.range ha.1 h) ha.2

/-- No permit is lost, in runs in which no post does its increment while the counter is negative. -/
theorem no_lost_permit {count : ℕ} (hc : count < 2 ^ 31)
    (h : (system T count).ReachVia
      (fun s a => noWrap s a = true ∧ (isPost s a = true → 0 ≤ s.sem)) s) :
    NoLostPermit count s := by
  obtain ⟨hs, hcount⟩ := Sound.of_reach hc (fun _ _ h => h.1) h
  rintro hq ⟨t, -, ht⟩
  have hspoken : tally Pc.spoken s.pc = 0 := by
    apply tally_eq_zero
    intro i
    rcases hq i with h | ⟨h, -⟩
    · rw [h]
      rfl
    · rw [h]
      rfl
  have hex : s.acquired + tally Pc.spoken s.pc = s.count + s.posts :=
    exhausted_of_reach hc h (Nat.add_pos_left (debt_pos (t := t) (by rw [ht]; rfl)) _)
  omega

end permits

/-- One permit and two waiters: the second one sleeps and the permit is given out. -/
theorem no_lost_permit_two_waiters :
    ∃ s : St (Fin 2), NoLostPermit 1 s ∧ Quiescent s ∧ 1 ∈ s.waitList := by
  have hrun := TS.ReachVia.exists_of_run (M := system (Fin 2) 1) (s := coSemInit 1)
    (fun s a => noWrap s a = true ∧ (isPost s a = true → 0 ≤ s.sem))
    [.call 0 .wait, .run 0, .call 0 .exit, .call 1 .wait, .run 1, .run 1, .run 1, .run 1, .run 1]
    (fun s => decide (Quiescent s ∧ 1 ∈ s.waitList)) rfl (by decide +kernel) (by decide +kernel)
  obtain ⟨s, hs, hP⟩ := hrun
  exact ⟨s, no_lost_permit (by decide) hs, of_decide_eq_true hP⟩

/-- A waiter sleeps on a semaphore with no permits; the post that follows brings the counter from
`-1` to `0` and wakes nobody. -/
theorem permit_lost :
    ¬∀ (n count : ℕ) (s : St (Fin n)), (system (Fin n) count).Reachable s → NoLostPermit count s := by
  have hrun := TS.Reachable.exists_of_run (M := system (Fin 2) 0) (s := coSemInit 0)
    [.call 0 .wait, .run 0, .run 0, .run 0, .run 0, .run 0, .call 1 .post, .run 1, .call 1 .exit]
    (fun s => decide (Quiescent s ∧ s.pc 0 = .asleep ∧ 0 ∈ s.waitList ∧ s.acquired = 0 ∧
      s.posts = 1)) rfl (by decide +kernel)
  obtain ⟨s, hs, hP⟩ := hrun
  obtain ⟨hq, hpc, hmem, ha, hp⟩ := of_decide_eq_true hP
  intro h
  have := h 2 0 s hs hq ⟨0, hmem, hpc⟩
  omega

end Libcask.Sem
