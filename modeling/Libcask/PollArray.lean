import Libcask.Sched

/-! # The array that `co_poll` gives back

`poll` leaves `fd` and `events` of every entry alone, sets `revents` of every entry, and returns the
number of entries with a non-zero `revents` (`PollContract`).  The second loop of `co_poll` also
copies the entries it counts to the front of the array, over entries that are not counted, and counts
every entry whose descriptor has an error other than `IENONE`, a timeout alone included; and when the
poll's own timer has fired it sets `IETIMEOUT` on a descriptor without an event, so that it counts a
second entry with the same descriptor.

`compacted` is what such a loop makes of any list, and `compacted_eq_iff` says when it changes
nothing; `coPollCollect_eq` says that the loop of `co_poll` is one. -/

namespace Libcask.Sched

/-! ### Copying the counted entries to the front -/

section Compacted

variable {α : Type*}

/-- The list after the counted entries were copied, one after the other, to its front. -/
def compacted (l : List (α × Bool)) : List α :=
  (l.filter Prod.snd).map Prod.fst ++ (l.map Prod.fst).drop (l.countP Prod.snd)

@[simp] theorem compacted_nil : compacted ([] : List (α × Bool)) = [] := rfl

theorem compacted_pass (l : List (α × Bool)) (q : α) :
    compacted (l ++ [(q, false)]) = compacted l ++ [q] := by
  have hle : l.countP Prod.snd ≤ (l.map Prod.fst).length := by
    rw [List.length_map]
    exact List.countP_le_length
  simp [compacted, List.filter_append, List.countP_append, List.drop_append_of_le_length hle]

theorem compacted_count (l : List (α × Bool)) (q : α) :
    (compacted l ++ [q]).set (l.countP Prod.snd) q = compacted (l ++ [(q, true)]) := by
  have hle : l.countP Prod.snd ≤ (l.map Prod.fst).length := by
    rw [List.length_map]
    exact List.countP_le_length
  have hlen : ((l.filter Prod.snd).map Prod.fst).length = l.countP Prod.snd := by
    rw [List.length_map, List.countP_eq_length_filter]
  have hdrop : ((l.map Prod.fst).drop (l.countP Prod.snd) ++ [q]).set 0 q
      = q :: ((l.map Prod.fst) ++ [q]).drop (l.countP Prod.snd + 1) := by
    rw [← List.drop_append_of_le_length hle, ← List.tail_drop]
    cases h : (l.map Prod.fst ++ [q]).drop (l.countP Prod.snd) with
    | nil =>
        have := List.drop_eq_nil_iff.mp h
        rw [List.length_append, List.length_singleton] at this
        omega
    | cons a as => rfl
  unfold compacted
  rw [List.append_assoc, List.set_append_right _ _ hlen.le, hlen, Nat.sub_self, hdrop]
  simp [List.filter_append, List.countP_append]

theorem compacted_cons_true (l : List (α × Bool)) (q : α) :
    compacted ((q, true) :: l) = q :: compacted l := by
  simp [compacted]

/-- Nothing is copied over another entry if and only if no counted entry stands behind one that is
not counted. -/
theorem compacted_eq_map_iff (nz : α → Bool) (l : List (α × Bool)) (hnz : ∀ x ∈ l, x.2 = nz x.1) :
    compacted l = l.map Prod.fst ↔ l.Pairwise fun x y => y.2 = true → x.2 = true := by
  induction l with
  | nil => simp
  | cons x l ih =>
      have ih := ih fun y hy => hnz y (List.mem_cons_of_mem _ hy)
      obtain ⟨q, b⟩ := x
      cases b with
      | true =>
          rw [compacted_cons_true, List.map_cons, List.cons_inj_right, ih, List.pairwise_cons]
          simp
      | false =>
          have hfilter : ((q, false) :: l).filter Prod.snd = l.filter Prod.snd := by simp
          have hcount : ((q, false) :: l).countP Prod.snd = l.countP Prod.snd := by simp
          cases hl : l.filter Prod.snd with
          | nil =>
              have hnone := List.filter_eq_nil_iff.mp hl
              have hzero : l.countP Prod.snd = 0 := by rw [List.countP_eq_length_filter, hl]; rfl
              refine iff_of_true ?_ (List.pairwise_cons.mpr ⟨fun y hy h => absurd h (hnone y hy), ?_⟩)
              · rw [compacted, hfilter, hcount, hl, hzero]
                rfl
              · exact List.pairwise_of_forall_mem_list fun _ _ y hy h => absurd h (hnone y hy)
          | cons z zs =>
              -- `z` is copied to where `q` was, and `q` does not have the property that `z` has
              have hz : z ∈ l.filter Prod.snd := hl ▸ List.mem_cons_self
              obtain ⟨hzl, hz2⟩ := List.mem_filter.mp hz
              refine iff_of_false (fun h => ?_) fun h =>
                Bool.false_ne_true ((List.pairwise_cons.mp h).1 z hzl hz2)
              rw [compacted, hfilter, hl, List.map_cons, List.map_cons, List.cons_append,
                List.cons.injEq] at h
              have hq := hnz (q, false) List.mem_cons_self
              rw [hnz z (List.mem_cons_of_mem _ hzl), h.1, ← hq] at hz2
              exact Bool.false_ne_true hz2

/-- When every entry with a property is counted, then only those are counted if and only if their
number is right. -/
theorem countP_eq_countP_iff (p q : α → Bool) (l : List α) (h : ∀ x ∈ l, p x = true → q x = true) :
    l.countP q = l.countP p ↔ ∀ x ∈ l, q x = true → p x = true := by
  induction l with
  | nil => simp
  | cons x l ih =>
      have hl : ∀ y ∈ l, p y = true → q y = true := fun y hy => h y (List.mem_cons_of_mem _ hy)
      have hle := List.countP_mono_left hl
      have hx := h x List.mem_cons_self
      rw [List.forall_mem_cons, ← ih hl, List.countP_cons, List.countP_cons]
      by_cases hp : p x = true
      · simp [hp, hx hp]
      · by_cases hq : q x = true
        · simp only [hp, hq, if_true]
          simp
          omega
        · simp [hp, hq]

/-- When at least every entry with a property is counted: nothing is copied over another entry and
just those entries are counted, if and only if every counted entry has the property and none of them
stands behind one that is not counted. -/
theorem compacted_eq_iff (nz : α → Bool) (l : List (α × Bool))
    (hnz : ∀ x ∈ l, nz x.1 = true → x.2 = true) :
    (compacted l = l.map Prod.fst ∧ l.countP Prod.snd = (l.map Prod.fst).countP nz) ↔
      (∀ x ∈ l, x.2 = true → nz x.1 = true) ∧ l.Pairwise fun x y => y.2 = true → x.2 = true := by
  rw [List.countP_map, countP_eq_countP_iff (nz ∘ Prod.fst) Prod.snd l hnz, and_comm]
  refine and_congr_right fun h => compacted_eq_map_iff nz l fun x hx => ?_
  exact Bool.eq_iff_iff.mpr ⟨h x hx, hnz x hx⟩

end Compacted

/-! ### The second loop of `co_poll` -/

/-- The error recorded for a descriptor, `IENONE` if it is not tracked. -/
def Io.recorded (io : Io) (n : ℕ) : IError := (io.ifd (.sock n)).elim ieNone InnerFd.error

/-- The entry with the events recorded for its descriptor. -/
def pollEntry (err : ℕ → IError) (p : PollFd) : PollFd :=
  { p with revents := Io.errorToEvents (err p.fd) }

/-- The error the loop finds for a descriptor when it has passed those of `seen`; `expired` says that
the poll's own timer has fired. -/
def noted (expired : Bool) (err : ℕ → IError) (seen : List ℕ) (n : ℕ) : IError :=
  if err n = ieNone ∧ expired = true ∧ n ∈ seen then { ieNone with timeout := true } else err n

/-- The entries as the loop writes them, with what it counts. -/
def reported (expired : Bool) (err : ℕ → IError) : List ℕ → List PollFd → List (PollFd × Bool)
  | _, [] => []
  | seen, p :: rest =>
      (pollEntry err p, decide (noted expired err seen p.fd ≠ ieNone)) ::
        reported expired err (p.fd :: seen) rest

section Collect

variable {expired : Bool} {err : ℕ → IError} {seen : List ℕ} {n m : ℕ}

theorem errorToEvents_noted :
    Io.errorToEvents (noted expired err seen n) = Io.errorToEvents (err n) := by
  unfold noted
  split
  · rename_i h
    rw [h.1]
    rfl
  · rfl

theorem noted_eq_none_iff : noted expired err seen n = ieNone ↔
    err n = ieNone ∧ ¬(expired = true ∧ n ∈ seen) := by
  unfold noted
  split
  · rename_i h
    exact iff_of_false (by decide) fun h' => h'.2 h.2
  · rename_i h
    exact ⟨fun h' => ⟨h', fun hs => h ⟨h', hs⟩⟩, And.left⟩

theorem noted_cons_of_ne (h : n ≠ m) :
    noted expired err (m :: seen) n = noted expired err seen n := by
  simp [noted, h]

theorem noted_cons_self (h : noted expired err seen n ≠ ieNone) :
    noted expired err (n :: seen) n = noted expired err seen n := by
  by_cases he : err n = ieNone
  · have hs : expired = true ∧ n ∈ seen := by
      by_contra hs
      exact h (noted_eq_none_iff.mpr ⟨he, hs⟩)
    simp [noted, hs]
  · simp [noted, he]

/-- The descriptors of the entries are tracked, with the errors that the loop has left. -/
def Noted (io : Io) (expired : Bool) (err : ℕ → IError) (seen : List ℕ) (fds : List PollFd) : Prop :=
  ∀ p ∈ fds, ∃ r, io.ifd (.sock p.fd) = some r ∧ r.error = noted expired err seen p.fd

/-- The loop passes an entry and leaves its record alone. -/
theorem Noted.pass {io io' : Io} {p : PollFd} {rest : List PollFd}
    (h : Noted io expired err seen (p :: rest)) (hifd : io'.ifd = io.ifd)
    (hp : noted expired err (p.fd :: seen) p.fd = noted expired err seen p.fd) :
    Noted io' expired err (p.fd :: seen) rest := by
  intro q hq
  obtain ⟨r, hr, he⟩ := h q (List.mem_cons_of_mem _ hq)
  refine ⟨r, hifd ▸ hr, ?_⟩
  by_cases hqp : q.fd = p.fd
  · rw [he, hqp, hp]
  · rw [he, noted_cons_of_ne hqp]

/-- The loop passes an entry and sets `IETIMEOUT` in its record. -/
theorem Noted.expire {io io' : Io} {p : PollFd} {r : InnerFd} {rest : List PollFd}
    (h : Noted io true err seen (p :: rest)) (hp : err p.fd = ieNone) (hifd : io'.ifd = io.ifd) :
    Noted (io'.setInner (.sock p.fd) { r with error := { ieNone with timeout := true } }) true err
      (p.fd :: seen) rest := by
  intro q hq
  by_cases hqp : q.fd = p.fd
  · refine ⟨{ r with error := { ieNone with timeout := true } }, ?_, ?_⟩
    · rw [hqp]
      exact Function.update_self ..
    · simp [noted, hqp, hp]
  · obtain ⟨r', hr', he⟩ := h q (List.mem_cons_of_mem _ hq)
    refine ⟨r', ?_, by rw [he, noted_cons_of_ne hqp]⟩
    have hne : Fd.sock q.fd ≠ Fd.sock p.fd := fun e => hqp (Fd.sock.inj e)
    exact (Function.update_of_ne hne _ _).trans (hifd ▸ hr')

/-- The loop copies what it counts to the front of the array. -/
theorem coPollCollect_eq (timed fired : Bool) (err : ℕ → IError) : ∀ (rest : List PollFd) (io : Io)
    (prior : List (PollFd × Bool)) (seen : List ℕ), Noted io (timed && fired) err seen rest →
    ∃ io', io.coPollCollect timed fired (compacted prior) (prior.countP Prod.snd) rest =
      some (io', compacted (prior ++ reported (timed && fired) err seen rest),
        (prior ++ reported (timed && fired) err seen rest).countP Prod.snd)
  | [], io, prior, _, _ => ⟨io, by simp [Io.coPollCollect, reported]⟩
  | p :: rest, io, prior, seen, h => by
      obtain ⟨r, hr, he⟩ := h p List.mem_cons_self
      have hq : pollEntry err p = { p with revents := Io.errorToEvents r.error } := by
        rw [he, errorToEvents_noted]
        rfl
      let io₁ := (if timed then io else io.wheelDeleteElement (.sock p.fd)).deleteEvents (.sock p.fd)
      have hifd : io₁.ifd = io.ifd := by
        cases timed <;> rfl
      by_cases hnone : r.error = ieNone
      · have hn : noted (timed && fired) err seen p.fd = ieNone := he ▸ hnone
        let io₂ := if timed && fired then
            io₁.setInner (.sock p.fd) { r with error := { ieNone with timeout := true } } else io₁
        have h₂ : Noted io₂ (timed && fired) err (p.fd :: seen) rest := by
          cases hx : timed && fired with
          | true =>
              rw [hx] at h hn
              simpa only [io₂, hx, if_true] using h.expire (r := r) (noted_eq_none_iff.mp hn).1 hifd
          | false =>
              rw [hx] at h
              simpa only [io₂, hx, if_false, Bool.false_eq_true] using h.pass hifd (by simp [noted])
        obtain ⟨io', hio'⟩ := coPollCollect_eq timed fired err rest io₂
          (prior ++ [(pollEntry err p, false)]) (p.fd :: seen) h₂
        have hcount : (prior ++ [(pollEntry err p, false)]).countP Prod.snd = prior.countP Prod.snd := by
          simp
        have hempty : { p with revents := {} } = pollEntry err p := by
          rw [hq, hnone]
          rfl
        rw [compacted_pass, hcount, List.append_assoc] at hio'
        refine ⟨io', ?_⟩
        simp only [Io.coPollCollect, hr, hnone, if_true, reported, ne_eq, hn, not_true_eq_false,
          decide_false, hempty]
        exact hio'
      · have hn : noted (timed && fired) err seen p.fd ≠ ieNone := he ▸ hnone
        obtain ⟨io', hio'⟩ := coPollCollect_eq timed fired err rest io₁
          (prior ++ [(pollEntry err p, true)]) (p.fd :: seen) (h.pass hifd (noted_cons_self hn))
        have hcount : (prior ++ [(pollEntry err p, true)]).countP Prod.snd
            = prior.countP Prod.snd + 1 := by
          simp
        rw [← compacted_count, hcount, List.append_assoc] at hio'
        refine ⟨io', ?_⟩
        simp only [Io.coPollCollect, hr, if_neg hnone, reported, ne_eq, hn, not_false_eq_true,
          decide_true, ← hq]
        exact hio'

/-! ### When the array is as `poll` leaves it -/

/-- The entry has an event. -/
def ready (p : PollFd) : Bool := decide (p.revents ≠ {})

/-- The entries keep `fd` and `events`, `revents` holds what was recorded for the descriptor, and `n`
is the number of entries with a non-zero `revents`. -/
structure PollContract (err : ℕ → IError) (fds array : List PollFd) (n : ℕ) : Prop where
  array_eq : array = fds.map (pollEntry err)
  count : n = array.countP ready

/-- Every recorded error has an event in it, the entries with one stand before those without, and
when the poll's own timer has fired, no descriptor without an event is in the array twice. -/
structure Undisturbed (expired : Bool) (err : ℕ → IError) (fds : List PollFd) : Prop where
  events : ∀ p ∈ fds, err p.fd ≠ ieNone → Io.errorToEvents (err p.fd) ≠ {}
  front : fds.Pairwise fun p q => err q.fd ≠ ieNone → err p.fd ≠ ieNone
  once : expired = true → fds.Pairwise fun p q => p.fd = q.fd → err p.fd ≠ ieNone

instance (err : ℕ → IError) (fds array : List PollFd) (n : ℕ) :
    Decidable (PollContract err fds array n) :=
  decidable_of_iff (array = fds.map (pollEntry err) ∧ n = array.countP ready)
    ⟨fun h => ⟨h.1, h.2⟩, fun h => ⟨h.1, h.2⟩⟩

instance (expired : Bool) (err : ℕ → IError) (fds : List PollFd) :
    Decidable (Undisturbed expired err fds) :=
  decidable_of_iff ((∀ p ∈ fds, err p.fd ≠ ieNone → Io.errorToEvents (err p.fd) ≠ {}) ∧
    (fds.Pairwise fun p q => err q.fd ≠ ieNone → err p.fd ≠ ieNone) ∧
    (expired = true → fds.Pairwise fun p q => p.fd = q.fd → err p.fd ≠ ieNone))
    ⟨fun h => ⟨h.1, h.2.1, h.2.2⟩, fun h => ⟨h.1, h.2, h.3⟩⟩

theorem map_reported : ∀ (fds : List PollFd) (seen : List ℕ),
    (reported expired err seen fds).map Prod.fst = fds.map (pollEntry err)
  | [], _ => rfl
  | _ :: fds, seen => by rw [reported, List.map_cons, List.map_cons, map_reported fds]

theorem mem_reported {fds : List PollFd} {x : PollFd × Bool}
    (h : x ∈ reported expired err seen fds) :
    ∃ p ∈ fds, x.1 = pollEntry err p ∧ (err p.fd ≠ ieNone → x.2 = true) := by
  induction fds generalizing seen with
  | nil => cases h
  | cons p fds ih =>
      rcases List.mem_cons.mp h with rfl | h
      · exact ⟨p, List.mem_cons_self, rfl, fun he => decide_eq_true fun hn =>
          he (noted_eq_none_iff.mp hn).1⟩
      · obtain ⟨q, hq, hx⟩ := ih h
        exact ⟨q, List.mem_cons_of_mem _ hq, hx⟩

theorem exists_reported {fds : List PollFd} {p : PollFd} (h : p ∈ fds) (he : err p.fd ≠ ieNone) :
    ∃ x ∈ reported expired err seen fds, x.2 = true := by
  induction fds generalizing seen with
  | nil => cases h
  | cons q fds ih =>
      rcases List.mem_cons.mp h with rfl | h
      · exact ⟨_, List.mem_cons_self, decide_eq_true fun hn => he (noted_eq_none_iff.mp hn).1⟩
      · obtain ⟨x, hx, hx2⟩ := ih h
        exact ⟨x, List.mem_cons_of_mem _ hx, hx2⟩

theorem recorded_of_events {e : IError} (h : Io.errorToEvents e ≠ {}) : e ≠ ieNone := by
  rintro rfl
  exact h rfl

/-- What `compacted_eq_iff` asks for of the entries as the loop writes them, from any point of the
loop on. -/
theorem reported_undisturbed_iff : ∀ (fds : List PollFd) (seen : List ℕ),
    ((∀ x ∈ reported expired err seen fds, x.2 = true → ready x.1 = true) ∧
      (reported expired err seen fds).Pairwise fun x y => y.2 = true → x.2 = true) ↔
    Undisturbed expired err fds ∧
      (expired = true → ∀ p ∈ fds, p.fd ∈ seen → err p.fd ≠ ieNone)
  | [], _ => by
      refine iff_of_true ⟨by simp [reported], List.Pairwise.nil⟩ ⟨⟨?_, ?_, ?_⟩, by simp⟩
      · simp
      · exact List.Pairwise.nil
      · exact fun _ => List.Pairwise.nil
  | p :: fds, seen => by
      have ih := reported_undisturbed_iff fds (p.fd :: seen)
      rw [reported, List.forall_mem_cons, List.pairwise_cons]
      constructor
      · rintro ⟨⟨hp, hall⟩, hfront, hpw⟩
        obtain ⟨hu, hseen⟩ := ih.mp ⟨hall, hpw⟩
        have hcounted : noted expired err seen p.fd ≠ ieNone → err p.fd ≠ ieNone := fun h =>
          recorded_of_events (of_decide_eq_true (hp (decide_eq_true h)))
        refine ⟨⟨?_, ?_, ?_⟩, ?_⟩
        · refine List.forall_mem_cons.mpr ⟨fun he => ?_, hu.events⟩
          exact of_decide_eq_true (hp (decide_eq_true fun hn => he (noted_eq_none_iff.mp hn).1))
        · refine List.pairwise_cons.mpr ⟨fun q hq he => ?_, hu.front⟩
          obtain ⟨x, hx, hx2⟩ : ∃ x ∈ reported expired err (p.fd :: seen) fds, x.2 = true :=
            exists_reported hq he
          exact hcounted (of_decide_eq_true (hfront x hx hx2))
        · refine fun hx => List.pairwise_cons.mpr ⟨fun q hq e => ?_, hu.once hx⟩
          exact e ▸ hseen hx q hq (e ▸ List.mem_cons_self)
        · refine fun hx => List.forall_mem_cons.mpr ⟨fun hs => ?_, fun q hq hs => ?_⟩
          · exact hcounted fun hn => (noted_eq_none_iff.mp hn).2 ⟨hx, hs⟩
          · exact hseen hx q hq (List.mem_cons_of_mem _ hs)
      · rintro ⟨hu, hseen⟩
        obtain ⟨hp, hevents⟩ := List.forall_mem_cons.mp hu.events
        obtain ⟨hfront, hpw⟩ := List.pairwise_cons.mp hu.front
        have honce := fun hx => List.pairwise_cons.mp (hu.once hx)
        obtain ⟨hall, hpw'⟩ := ih.mpr ⟨⟨hevents, hpw, fun hx => (honce hx).2⟩, fun hx q hq hs => by
          rcases List.mem_cons.mp hs with e | hs
          · exact e ▸ (honce hx).1 q hq e.symm
          · exact hseen hx q (List.mem_cons_of_mem _ hq) hs⟩
        refine ⟨⟨fun h => ?_, hall⟩, fun y hy hy2 => ?_, hpw'⟩
        · refine decide_eq_true (hp fun he => of_decide_eq_true h (noted_eq_none_iff.mpr ⟨he, ?_⟩))
          exact fun hs => hseen hs.1 p List.mem_cons_self hs.2 he
        · obtain ⟨q, hq, hyq, -⟩ := mem_reported hy
          have hready := hall y hy hy2
          rw [hyq] at hready
          have hrec : err q.fd ≠ ieNone := recorded_of_events (of_decide_eq_true hready)
          exact decide_eq_true fun hn => hfront q hq hrec (noted_eq_none_iff.mp hn).1

theorem contract_reported_iff (fds : List PollFd) :
    PollContract err fds (compacted (reported expired err [] fds))
      ((reported expired err [] fds).countP Prod.snd) ↔ Undisturbed expired err fds := by
  have hready : ∀ x ∈ reported expired err [] fds, ready x.1 = true → x.2 = true := by
    intro x hx h
    obtain ⟨p, -, hxp, hcounted⟩ := mem_reported hx
    rw [hxp] at h
    exact hcounted (recorded_of_events (of_decide_eq_true h))
  have hiff := (compacted_eq_iff ready _ hready).trans (reported_undisturbed_iff fds [])
  rw [map_reported] at hiff
  constructor
  · rintro ⟨harray, hcount⟩
    rw [harray] at hcount
    exact (hiff.mp ⟨harray, hcount⟩).1
  · intro hu
    obtain ⟨harray, hcount⟩ := hiff.mpr ⟨hu, by simp⟩
    exact ⟨harray, hcount.trans (congrArg _ harray.symm)⟩

end Collect

/-- `is_timeout_timer` and `close_timer` leave the records of sockets and pipes alone. -/
theorem Io.stopTimer_ifd_sock (io : Io) (tn : Option ℕ) (n : ℕ) :
    (io.stopTimer (tn.map Fd.timer)).1.ifd (.sock n) = io.ifd (.sock n) := by
  cases tn with
  | none => rfl
  | some k =>
      have hne : Fd.sock n ≠ Fd.timer k := by simp
      exact Function.update_of_ne hne none io.ifd

/-- `co_poll`, behind its context switch, with an array of tracked descriptors and any errors
recorded for them: it returns, and the array and the count are as `poll` leaves them just when
nothing is moved over another entry and nothing else is counted. -/
theorem poll_contract_iff (s : St) (t : Tid) (fds : List PollFd) (timed : Bool) (tn : Option ℕ)
    (htracked : ∀ p ∈ fds, (s.io.ifd (.sock p.fd)).isSome) :
    ∃ s' array n, s.coPollReturn t fds timed (tn.map Fd.timer) = some s' ∧
      s'.ret t = .poll n array ∧
      (PollContract s.io.recorded fds array n ↔
        Undisturbed (timed && (s.io.stopTimer (tn.map Fd.timer)).2) s.io.recorded fds) := by
  obtain ⟨⟨io, fired⟩, hstop⟩ : ∃ x, s.io.stopTimer (tn.map Fd.timer) = x := ⟨_, rfl⟩
  have hifd : ∀ n, io.ifd (.sock n) = s.io.ifd (.sock n) := by
    intro n
    rw [← s.io.stopTimer_ifd_sock tn n, hstop]
  have hnoted : Noted io (timed && fired) s.io.recorded [] fds := by
    intro p hp
    obtain ⟨r, hr⟩ := Option.isSome_iff_exists.mp (htracked p hp)
    refine ⟨r, (hifd p.fd).trans hr, ?_⟩
    simp [noted, Io.recorded, hr]
  obtain ⟨io', hcollect⟩ := coPollCollect_eq timed fired s.io.recorded fds io [] [] hnoted
  rw [List.nil_append] at hcollect
  have hcollect : io.coPollCollect timed fired [] 0 fds = _ := hcollect
  let l := reported (timed && fired) s.io.recorded [] fds
  refine ⟨{ s with io := io' }.callReturn t (.poll (l.countP Prod.snd) (compacted l)), _, _, ?_,
    Function.update_self .., ?_⟩
  · simp only [St.coPollReturn, hstop, hcollect, l]
  · rw [hstop]
    exact contract_reported_iff fds

/-- The task 2 polls two sockets for input, without a timeout of its own, and is dispatched when
`ready` is. -/
def pollTwo (ready : ℕ) : List Act :=
  [.dispatch, .timeoutRead .again true, .handlePrev, .dispatch, .user (.semWait 0), .handlePrev,
    .dispatch, .user .socket, .user .socket,
    .user (.coPoll [(⟨0, { epollin := true }, {}⟩, true), (⟨1, { epollin := true }, {}⟩, true)] false
      ⟨false, false, false⟩),
    .handlePrev, .event (.sock ready) { epollin := true }, .dispatch]

/-- The array that `pollTwo` passes. -/
def twoSockets : List PollFd := [⟨0, { epollin := true }, {}⟩, ⟨1, { epollin := true }, {}⟩]

/-- The first socket gets readable. -/
theorem poll_contract_first_ready : ∃ s, system.Reachable s ∧
    s.cont 2 = .coPoll twoSockets false none ∧ ∃ s' array n,
      s.coPollReturn 2 twoSockets false none = some s' ∧ s'.ret 2 = .poll n array ∧
      PollContract s.io.recorded twoSockets array n := by
  have hrun := TS.Reachable.exists_of_run (M := system) (s := start 1 fun _ => 0) (pollTwo 0)
    (fun s => decide (s.cont 2 = .coPoll twoSockets false none ∧
      Undisturbed false s.io.recorded twoSockets ∧
      ∀ p ∈ twoSockets, (s.io.ifd (.sock p.fd)).isSome)) ⟨1, _, rfl⟩ (by decide +kernel)
  obtain ⟨s, hs, hP⟩ := hrun
  obtain ⟨hc, hu, htracked⟩ := of_decide_eq_true hP
  obtain ⟨s', array, n, hreturn, hret, hiff⟩ := poll_contract_iff s 2 twoSockets false none htracked
  exact ⟨s, hs, hc, s', array, n, hreturn, hret, hiff.mpr hu⟩

/-- The array that `co_poll` returns when the second socket gets readable. -/
def overwritten : List PollFd :=
  [⟨1, { epollin := true }, { epollin := true }⟩, ⟨1, { epollin := true }, { epollin := true }⟩]

/-- The second socket gets readable: its entry is now there twice, the one of the first is lost. -/
theorem poll_overwrites : ¬∀ (s : St) (t : Tid) (fds : List PollFd) (timed : Bool) (tn : Option ℕ),
    system.Reachable s → s.q.phase = .running t → s.cont t = .coPoll fds timed (tn.map Fd.timer) →
    (∀ p ∈ fds, (s.io.ifd (.sock p.fd)).isSome) →
    ∀ s' array n, step s (.goOn true) = some s' → s'.ret t = .poll n array →
      PollContract s.io.recorded fds array n := by
  intro hall
  have hrun := TS.Reachable.exists_of_run (M := system) (s := start 1 fun _ => 0) (pollTwo 1)
    (fun s => decide (s.q.phase = .running 2 ∧ s.cont 2 = .coPoll twoSockets false none ∧
      (∀ p ∈ twoSockets, (s.io.ifd (.sock p.fd)).isSome) ∧ (step s (.goOn true)).any fun s' =>
        decide (s'.ret 2 = .poll 1 overwritten ∧
          ¬PollContract s.io.recorded twoSockets overwritten 1))) ⟨1, _, rfl⟩ (by decide +kernel)
  obtain ⟨s, hs, hP⟩ := hrun
  obtain ⟨hp, hc, htracked, hany⟩ := of_decide_eq_true hP
  obtain ⟨s', hstep, hs'⟩ := (Option.any_eq_true _ _).mp hany
  obtain ⟨hret, hnot⟩ := of_decide_eq_true hs'
  exact hnot (hall s 2 twoSockets false none hs hp hc htracked s' _ _ hstep hret)

end Libcask.Sched
