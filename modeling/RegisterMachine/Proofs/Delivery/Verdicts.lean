import Mathlib
import RegisterMachine.Proofs.Delivery.Cycles

namespace RegisterMachine

namespace Session

/-- The number of requests that were queued for a call of a sender. -/
def sentFor (S : Session) (name call : Nat) : Nat :=
  S.sent.countP (Ticket.isOf name call)

/-- The number of those that were taken off the queue. -/
def servedFor (S : Session) (name call : Nat) : Nat :=
  (S.sent.take S.served.length).countP (Ticket.isOf name call)

/-- The number of those that were admitted. -/
def admittedFor (p : Program) (S : Session) (name call : Nat) : Nat :=
  (S.sent.zip S.served).countP fun x => x.1.isOf name call && x.2.Admits p

/-- The calls of a sender return what became of their requests. -/
structure Returns (p : Program) (S : Session) (name : Nat) (calls : List Errand) (s : Sender) : Prop where
  length_le : s.verdicts.length ≤ calls.length
  /-- The calls that have not returned are still to be made. -/
  errands : s.errands = calls.drop s.verdicts.length
  /-- A request belongs to a call and asks for its interrupt. -/
  ids : ∀ t ∈ S.sent, t.request.sender = some name →
    ∃ e, calls[t.call]? = some e ∧ t.request.id = e.id
  sent_le : ∀ k e, calls[k]? = some e → S.sentFor name k ≤ e.retries + 1
  admitted_le : ∀ k e, calls[k]? = some e → S.admittedFor p name k ≤ 1
  /-- A call returns true if a request was admitted, and false if all were rejected or dropped. -/
  verdict : ∀ k b, s.verdicts[k]? = some b → (b = true ↔ S.admittedFor p name k = 1)
  /-- A call does not return before its requests were served, unless the machine is gone. -/
  served : S.isOpen = true → ∀ k < s.verdicts.length, S.servedFor name k = S.sentFor name k

/-- Requests are served in order and answered once, the machine counts them, and the calls return what
became of them. The counters stop at the largest number. -/
structure IsExact (p : Program) (w : World) (S : Session) : Prop where
  order : S.served.map Poll.request <+: S.sent.map Ticket.request
  /-- What the machine does with each request that it takes off the queue. -/
  serves : ∀ x ∈ S.served, x.Serves p
  /-- The requests that were not served wait, until the machine is dropped. -/
  pending : S.world.machine.pending =
    if S.isOpen then (S.sent.map Ticket.request).drop S.served.length else []
  /-- The answers that arrived and those on their way: one to each request that was served. -/
  answers : (S.world.history.filter Event.isAnswer ++
    S.world.machine.events.filter Event.isAnswer).Perm
      (S.served.map fun x => .answered x.request (decide (x.Admits p)))
  /-- A handler that is entered is counted, and so is a request that is not let in. -/
  accepted : S.world.machine.stats.accepted.toNat = min (w.machine.stats.accepted.toNat +
    S.served.countP fun x => x.Enters p) (UInt64.size - 1)
  rejected : S.world.machine.stats.rejected.toNat = min (w.machine.stats.rejected.toNat +
    S.served.countP fun x => ¬ x.Admits p) (UInt64.size - 1)
  size_le : w.senders.size ≤ S.world.senders.size
  calls : ∀ name s, S.world.senders[name]? = some s → ∃ calls : List Errand,
    (∀ s₀, w.senders[name]? = some s₀ → calls = s₀.errands) ∧ S.Returns p name calls s

end Session

namespace Keeps

variable {p : Program} {w : World} {S : Session} {done : List (Ticket × Admission)} {queue : List Ticket}

theorem length_served (h : Keeps p w S done queue) : S.served.length = done.length := by
  simpa using congrArg List.length h.served

theorem requests_served (h : Keeps p w S done queue) :
    S.served.map Poll.request = done.map fun x => x.1.request := by
  have hrequests := congrArg (List.map Prod.fst) h.served
  rwa [List.map_map, List.map_map] at hrequests

theorem fates_served (h : Keeps p w S done queue) : S.served.map (Poll.fate p) = done.map Prod.snd := by
  have hfates := congrArg (List.map Prod.snd) h.served
  rwa [List.map_map, List.map_map] at hfates

/-- What tells the requests of a fate from the others tells how many they are. -/
theorem countP_served {P : Poll → Prop} [DecidablePred P] {a : Admission} (h : Keeps p w S done queue)
    (hP : ∀ x : Poll, x.Takes p → (P x ↔ x.fate p = a)) :
    (S.served.countP fun x => P x) = done.countP fun x => x.2 = a := by
  have hcount := congrArg (List.countP (· = a)) h.fates_served
  rw [List.countP_map, List.countP_map] at hcount
  refine Eq.trans (List.countP_congr fun x hx => ?_) hcount
  rw [decide_eq_true_iff]
  exact (hP x (h.takes x hx)).trans decide_eq_true_iff.symm

theorem sentFor_eq (h : Keeps p w S done queue) (name k : Nat) :
    S.sentFor name k = (fatesOf done name k).length + unservedOf queue name k := by
  rw [Session.sentFor, h.sent, List.countP_append, List.countP_map, fatesOf, List.length_map,
    ← List.countP_eq_length_filter]
  rfl

theorem servedFor_eq (h : Keeps p w S done queue) (name k : Nat) :
    S.servedFor name k = (fatesOf done name k).length := by
  have hlength : S.served.length = (done.map Prod.fst).length := by
    rw [h.length_served, List.length_map]
  rw [Session.servedFor, h.sent, hlength, List.take_left, List.countP_map, fatesOf,
    List.length_map, ← List.countP_eq_length_filter]
  rfl

theorem admittedFor_eq (h : Keeps p w S done queue) (name k : Nat) :
    S.admittedFor p name k = (fatesOf done name k).countP Admission.isAdmitted := by
  have hzip : (S.sent.zip S.served).map (Prod.map id (Poll.fate p)) = done := by
    rw [← List.zip_map_right, h.fates_served, h.sent, ← List.append_nil (done.map Prod.snd),
      List.zip_append (by rw [List.length_map, List.length_map]), List.zip_nil_right,
      List.append_nil, List.zip_map']
    exact List.map_id' done
  have hcount : S.admittedFor p name k =
      done.countP fun x => x.1.isOf name k && x.2.isAdmitted := by
    rw [← hzip, List.countP_map]
    refine List.countP_congr fun x hx => ?_
    have htakes := h.takes x.2 (List.of_mem_zip hx).2
    rw [htakes.decide_admits]
    rfl
  rw [hcount, fatesOf, List.countP_map, List.countP_filter]
  refine List.countP_congr fun x _ => ?_
  simp only [Function.comp_apply, Bool.and_comm]

theorem returns (h : Keeps p w S done queue) {name : Nat} {s : Sender} {calls : List Errand}
    (hids : ∀ t ∈ S.sent, t.request.sender = some name →
      ∃ e, calls[t.call]? = some e ∧ t.request.id = e.id)
    (htracks : Tracks calls s S.isOpen (fatesOf done name) (unservedOf queue name)
      (S.world.machine.repliesTo name)) : S.Returns p name calls s := by
  refine ⟨htracks.length_le, htracks.errands, hids, ?_, ?_, ?_, ?_⟩
  · intro k e he
    rw [h.sentFor_eq]
    exact htracks.count_le he
  · intro k e he
    rw [h.admittedFor_eq]
    exact htracks.countP_isAdmitted_le he
  · intro k b hb
    obtain ⟨_, -, houtcome, -⟩ := htracks.finished k b hb
    rw [h.admittedFor_eq, houtcome.countP_isAdmitted, Bool.toNat_eq_one]
  · intro hopen k hk
    obtain ⟨_, -, -, hnone⟩ := htracks.finished k _ (List.getElem?_eq_getElem hk)
    rw [h.servedFor_eq, h.sentFor_eq, hnone hopen]
    rfl

theorem isExact (h : Keeps p w S done queue) : S.IsExact p w := by
  have hrequests : S.sent.map Ticket.request = S.served.map Poll.request ++ queue.map Ticket.request := by
    rw [h.sent, h.requests_served, List.map_append, List.map_map]
    rfl
  refine ⟨?_, fun x hx => (h.takes x hx).serves, ?_, ?_, ?_, ?_, h.size_le, ?_⟩
  · rw [hrequests]
    exact List.prefix_append _ _
  · rw [h.pending, hrequests, List.drop_left' (List.length_map _)]
  · have hanswers := congrArg (List.map fun x => Event.answered x.1 x.2.isAdmitted) h.served
    rw [List.map_map, List.map_map] at hanswers
    have hadmits : (S.served.map fun x => Event.answered x.request (decide (x.Admits p))) =
        S.served.map fun x => .answered x.request (x.fate p).isAdmitted :=
      List.map_congr_left fun x hx => by rw [(h.takes x hx).decide_admits]
    rw [hadmits]
    exact h.answers.trans (.of_eq hanswers.symm)
  · rw [h.accepted, h.countP_served fun x hx => hx.enters_iff]
  · rw [h.rejected, h.countP_served fun x hx => hx.not_admits_iff]
  · intro name s hs
    obtain ⟨calls, hcalls, hids, htracks⟩ := h.senders name s hs
    exact ⟨calls, hcalls, h.returns hids htracks⟩

end Keeps

namespace Session

variable {p : Program} {w : World} {S : Session}

/-- A sender with no calls to make has a verdict for each of its calls. -/
theorem Returns.length_eq {name : Nat} {calls : List Errand} {s : Sender} (h : S.Returns p name calls s)
    (hs : s.errands = []) : s.verdicts.length = calls.length := by
  have hle : calls.length ≤ s.verdicts.length := by
    rw [← List.drop_eq_nil_iff, ← h.errands, hs]
  exact Nat.le_antisymm h.length_le hle

/-- The cycles of a machine keep the senders informed. -/
theorem isExact_runFor (p : Program) (n : Nat) (hw : w.IsFresh) :
    ∃ sent served, IsExact p w ⟨w.runFor p n, true, sent, served⟩ := by
  obtain ⟨sent, served, hrun⟩ := reaches_runFor (p := p) n w [] []
  obtain ⟨_, _, hkeeps⟩ := (Keeps.fresh hw).reaches hrun
  exact ⟨sent, served, hkeeps.isExact⟩

/-- When the machine is dropped, every call returns, even if some senders have just made a request. -/
theorem isExact_close (p : Program) (n : Nat) (names : List Nat) (hw : w.IsFresh) :
    ∃ sent served, IsExact p w ⟨(names.foldl World.send (w.runFor p n)).drop.close, false, sent, served⟩ ∧
      ∀ (name : Nat) (s₀ : Sender), w.senders[name]? = some s₀ → ∃ s : Sender,
        (names.foldl World.send (w.runFor p n)).drop.close.senders[name]? = some s ∧
          s.verdicts.length = s₀.errands.length := by
  obtain ⟨sent, served, hrun⟩ := reaches_runFor_close (p := p) n names w hw.events
  obtain ⟨_, _, hkeeps⟩ := (Keeps.fresh hw).reaches hrun
  have hexact := hkeeps.isExact
  refine ⟨sent, served, hexact, fun name s₀ hs₀ => ?_⟩
  have hlt := Nat.lt_of_lt_of_le (Array.getElem?_eq_some_iff.mp hs₀).1 hexact.size_le
  have hs := Array.getElem?_eq_getElem hlt
  obtain ⟨calls, hcalls, hreturns⟩ := hexact.calls name _ hs
  refine ⟨_, hs, ?_⟩
  rw [← hcalls s₀ hs₀]
  refine hreturns.length_eq ?_
  simp only [World.close, Array.getElem_map]
  rfl

/-- Every request that is served is answered once and in its turn, and every call returns whether one of
its requests was admitted, whatever the senders, the machine and its end do in between. -/
theorem verdicts_exact (hw : w.IsFresh) (h : (start w).Reaches p S) : S.IsExact p w := by
  obtain ⟨_, _, hkeeps⟩ := (Keeps.fresh hw).reaches h
  exact hkeeps.isExact

/-- A sender that is let in at the second attempt, one whose interrupt nobody handles, and one whose request
is dropped with the machine. A handler is entered once. -/
theorem verdicts_exact_dropped :
    let i : Image :=
      { version := Version.supported, debug := .minimal, sections := [], interrupts := [⟨3, 4⟩],
        constants := [], entry := 0, instructions := [.enableInterrupts, .nop, .nop, .exit, .ret] }
    let p := Program.ofImage i Syscall.builtin
    let senders :=
      #[.ofErrands [⟨3, 1⟩] 0 0, .ofErrands [⟨9, 5⟩] 0 0, .ofErrands [⟨3, 5⟩, ⟨4, 0⟩] 0 3]
    let w : World := { World.ofMachine (Machine.ofImage i 16).start with senders := senders }
    let last := ([2].foldl World.send (w.runFor p 3)).drop.close
    w.IsFresh ∧ (last.senders.map Sender.verdicts).toList = [[true], [true], [false, false]] ∧
      last.machine.stats.accepted = 1 ∧ last.machine.stats.rejected = 2 ∧
      ∃ sent served, (start w).Reaches p ⟨last, false, sent, served⟩ ∧
        IsExact p w ⟨last, false, sent, served⟩ ∧ (served.countP fun x => x.Enters p) = 1 := by
  intro i p senders w last
  have hfresh : w.IsFresh := by
    refine ⟨rfl, rfl, rfl, fun s hs => ?_⟩
    simp only [w, senders, List.mem_toArray, List.mem_cons, List.not_mem_nil, or_false] at hs
    rcases hs with rfl | rfl | rfl <;> exact Sender.isFresh_ofErrands _ _ _
  obtain ⟨sent, served, hreaches⟩ := reaches_runFor_close (p := p) 3 [2] w rfl
  have hexact := verdicts_exact hfresh hreaches
  have haccepted : last.machine.stats.accepted = 1 := by decide +kernel
  have hentered : (served.countP fun x => x.Enters p) = 1 := by
    have hcount : last.machine.stats.accepted.toNat =
        min (0 + served.countP fun x => x.Enters p) (UInt64.size - 1) := hexact.accepted
    have hlarge : 1 < UInt64.size - 1 := by decide
    rw [haccepted, UInt64.toNat_one] at hcount
    omega
  exact ⟨hfresh, by decide +kernel, haccepted, by decide +kernel, sent, served, hreaches, hexact, hentered⟩

end Session

end RegisterMachine
