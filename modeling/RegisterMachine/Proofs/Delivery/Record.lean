import Mathlib
import RegisterMachine.Proofs.Delivery.Calls

namespace RegisterMachine

namespace Machine

theorem sender_raised {p : Program} {v : View} {i : Instruction} {r : Request} (h : r ∈ p.raised v i) :
    r.sender = none := by
  cases i with
  | syscall id =>
    rw [Program.raised] at h
    cases hf : p.syscalls[id.toNat]? with
    | none =>
      rw [hf] at h
      cases h
    | some f =>
      rw [hf] at h
      obtain ⟨e, -, he⟩ := List.mem_filterMap.mp h
      cases e with
      | raise => cases he; rfl
      | _ => cases he
  | _ => cases h

/-- An instruction queues requests that nobody waits for, and answers none. -/
theorem exists_raised (p : Program) (m : Machine) : ∃ (raised : List Request) (executed : UInt64),
    (∀ r ∈ raised, r.sender = none) ∧ (m.advance p).ledger =
      { m.ledger with executed := executed, pending := m.pending ++ raised } := by
  rw [ledger_advance]
  cases p.fetch? m.registers.ip with
  | none =>
    refine ⟨[], m.stats.executed, fun r hr => absurd hr List.not_mem_nil, ?_⟩
    rw [List.append_nil]
    rfl
  | some i => exact ⟨p.raised (m.viewIn p) i, _, fun r hr => sender_raised hr, rfl⟩

/-- The answer that an event brings to a sender. -/
def replyTo (name : Nat) : Event → Option Bool
  | .answered r accepted => if r.sender = some name then some accepted else none
  | _ => none

/-- The answers that are on their way to a sender. -/
def repliesTo (m : Machine) (name : Nat) : List Bool :=
  m.ledger.answers.filterMap (replyTo name)

theorem replyTo_of_not_isAnswer {e : Event} (h : e.isAnswer = false) (name : Nat) :
    replyTo name e = none := by
  cases e with
  | answered => cases h
  | _ => rfl

theorem repliesTo_eq (m : Machine) (name : Nat) :
    m.repliesTo name = m.events.filterMap (replyTo name) := by
  rw [repliesTo, ledger, List.filterMap_filter]
  refine List.filterMap_congr fun e _ => ?_
  by_cases he : e.isAnswer = true
  · rw [if_pos he]
  · rw [if_neg he, replyTo_of_not_isAnswer (Bool.not_eq_true _ ▸ he)]

theorem repliesTo_eq_nil {m : Machine} {name : Nat}
    (h : ∀ r accepted, .answered r accepted ∈ m.events → r.sender ≠ some name) :
    m.repliesTo name = [] := by
  rw [repliesTo_eq, List.filterMap_eq_nil_iff]
  intro e he
  cases e with
  | answered r accepted => exact if_neg (h r accepted he)
  | _ => rfl

theorem repliesTo_of_answers {m m' : Machine} {r : Request} {accepted : Bool}
    (h : m'.ledger.answers = .answered r accepted :: m.ledger.answers) (name : Nat) :
    m'.repliesTo name = if r.sender = some name then accepted :: m.repliesTo name
      else m.repliesTo name := by
  rw [repliesTo, h]
  by_cases hname : r.sender = some name
  · rw [if_pos hname]
    exact List.filterMap_cons_some (if_pos hname)
  · rw [if_neg hname]
    exact List.filterMap_cons_none (if_neg hname)

theorem repliesTo_of_events {m : Machine} {front back : List Event} {e : Event}
    (h : m.events = front ++ e :: back) (name : Nat) :
    m.repliesTo name = front.filterMap (replyTo name) ++
      ((replyTo name e).toList ++ back.filterMap (replyTo name)) := by
  rw [repliesTo_eq, h, List.filterMap_append]
  cases hreply : replyTo name e with
  | none => rw [List.filterMap_cons_none hreply]; rfl
  | some accepted => rw [List.filterMap_cons_some hreply]; rfl

/-- An answer that arrives is no longer on its way, so all answers together stay the same. -/
theorem answers_of_events {m : Machine} {front back told history : List Event} {e : Event}
    (h : m.events = front ++ e :: back) (htold : ∀ e ∈ told, e.isAnswer = false) :
    ((told ++ e :: history).filter Event.isAnswer ++
      (ledger { m with events := front ++ back }).answers).Perm
      (history.filter Event.isAnswer ++ m.ledger.answers) := by
  have hnone : told.filter Event.isAnswer = [] :=
    List.filter_eq_nil_iff.mpr fun e he => by rw [htold e he]; exact Bool.false_ne_true
  have hmove : (e :: history ++ (front ++ back)).Perm (history ++ (front ++ e :: back)) := by
    rw [← List.append_assoc, List.cons_append, ← List.append_assoc]
    exact List.perm_middle.symm
  rw [List.filter_append, hnone, List.nil_append, ledger, ledger, h, ← List.filter_append,
    ← List.filter_append]
  exact hmove.filter _

end Machine

namespace World

variable {w : World} {name : Nat} {s : Sender} {r : Request} {e : Event}

theorem send_eq (hs : w.senders[name]? = some s) (hr : s.request? name w.now = some r) : w.send name =
    { w with machine := w.machine.request r, senders := w.senders.set! name s.wait } := by
  rw [send, hs]
  simp only [hr]

/-- What an event does: it brings an answer to a sender, it sets a timer, or nobody hears of it. -/
theorem notice_cases (w : World) (e : Event) : ∃ (told : List Event) (senders : Array Sender),
    (∀ e ∈ told, e.isAnswer = false) ∧
    w.notice e = { w with senders := senders, history := told ++ e :: w.history } ∧
    ((∃ r accepted name s, e = .answered r accepted ∧ r.sender = some name ∧
        w.senders[name]? = some s ∧ senders = w.senders.set! name (s.answered w.now accepted)) ∨
      (∃ s : Sender, s.IsFresh ∧ e.isAnswer = false ∧ senders = w.senders.push s) ∨
      ((∀ r accepted name, e = .answered r accepted → r.sender = some name →
        w.senders[name]? = none) ∧ senders = w.senders)) := by
  have hsilent : ∀ e ∈ ([] : List Event), e.isAnswer = false :=
    fun e he => absurd he List.not_mem_nil
  cases e with
  | answered r accepted =>
    cases hsender : r.sender with
    | none =>
      have hnotice : w.notice (.answered r accepted) =
          { w with history := .answered r accepted :: w.history } := by
        simp only [notice, hsender, Option.bind_none]
      refine ⟨[], w.senders, hsilent, hnotice, .inr (.inr ⟨?_, rfl⟩)⟩
      intro r' accepted' name he hname
      cases he
      rw [hsender] at hname
      cases hname
    | some name =>
      cases hs : w.senders[name]? with
      | none =>
        have hnotice : w.notice (.answered r accepted) =
            { w with history := .answered r accepted :: w.history } := by
          simp only [notice, hsender, Option.bind_some, hs, Option.map_none]
        refine ⟨[], w.senders, hsilent, hnotice, .inr (.inr ⟨?_, rfl⟩)⟩
        intro r' accepted' name' he hname
        cases he
        obtain rfl := Option.some.inj (hsender.symm.trans hname)
        exact hs
      | some s =>
        refine ⟨(s.complaint? r accepted).toList.map .logged,
          w.senders.set! name (s.answered w.now accepted), ?_, ?_,
          .inl ⟨r, accepted, name, s, rfl, hsender, hs, rfl⟩⟩
        · intro e he
          obtain ⟨entry, -, rfl⟩ := List.mem_map.mp he
          rfl
        · simp only [notice, hsender, Option.bind_some, hs, Option.map_some]
  | alarm milliseconds id =>
    exact ⟨[], _, hsilent, rfl,
      .inr (.inl ⟨timerSender w.now milliseconds id, ⟨rfl, rfl, rfl⟩, rfl, rfl⟩)⟩
  | _ => exact ⟨[], _, hsilent, rfl,
      .inr (.inr ⟨fun r accepted name he _ => (by cases he), rfl⟩)⟩

end World

/-- What became of the requests of a call that were served. -/
def fatesOf (done : List (Ticket × Admission)) (name call : Nat) : List Admission :=
  (done.filter fun x => x.1.isOf name call).map Prod.snd

/-- The number of requests of a call that wait in the queue. -/
def unservedOf (queue : List Ticket) (name call : Nat) : Nat :=
  queue.countP (Ticket.isOf name call)

section

variable {done : List (Ticket × Admission)} {queue : List Ticket} {t : Ticket} {a : Admission}
  {name : Nat}

theorem fatesOf_concat (h : t.request.sender = some name) : fatesOf (done ++ [(t, a)]) name =
    Function.update (fatesOf done name) t.call (fatesOf done name t.call ++ [a]) := by
  funext k
  rw [fatesOf, List.filter_append, List.map_append]
  by_cases hk : k = t.call
  · subst hk
    have hof : t.isOf name t.call = true := by simp [Ticket.isOf, h]
    rw [Function.update_self, List.filter_cons, if_pos hof]
    rfl
  · have hof : ¬ t.isOf name k = true := by simp [Ticket.isOf, Ne.symm hk]
    rw [Function.update_of_ne hk, List.filter_cons, if_neg hof, List.filter_nil, List.map_nil,
      List.append_nil]
    rfl

theorem fatesOf_concat_of_ne (h : t.request.sender ≠ some name) :
    fatesOf (done ++ [(t, a)]) name = fatesOf done name := by
  funext k
  have hof : ¬ t.isOf name k = true := by simp [Ticket.isOf, h]
  rw [fatesOf, List.filter_append, List.filter_cons, if_neg hof, List.filter_nil, List.append_nil]
  rfl

theorem unservedOf_cons (h : t.request.sender = some name) : unservedOf queue name =
    Function.update (unservedOf (t :: queue) name) t.call (unservedOf (t :: queue) name t.call - 1) := by
  funext k
  by_cases hk : k = t.call
  · subst hk
    have hof : t.isOf name t.call = true := by simp [Ticket.isOf, h]
    rw [Function.update_self, unservedOf, unservedOf, List.countP_cons_of_pos hof,
      Nat.add_sub_cancel]
  · have hof : ¬ t.isOf name k = true := by simp [Ticket.isOf, Ne.symm hk]
    rw [Function.update_of_ne hk, unservedOf, unservedOf, List.countP_cons_of_neg hof]

theorem unservedOf_cons_of_ne (h : t.request.sender ≠ some name) :
    unservedOf (t :: queue) name = unservedOf queue name := by
  funext k
  have hof : ¬ t.isOf name k = true := by simp [Ticket.isOf, h]
  rw [unservedOf, unservedOf, List.countP_cons_of_neg hof]

theorem unservedOf_concat (h : t.request.sender = some name) : unservedOf (queue ++ [t]) name =
    Function.update (unservedOf queue name) t.call (unservedOf queue name t.call + 1) := by
  funext k
  rw [unservedOf, List.countP_append]
  by_cases hk : k = t.call
  · subst hk
    have hof : t.isOf name t.call = true := by simp [Ticket.isOf, h]
    rw [Function.update_self, List.countP_cons_of_pos hof]
    rfl
  · have hof : ¬ t.isOf name k = true := by simp [Ticket.isOf, Ne.symm hk]
    rw [Function.update_of_ne hk, List.countP_cons_of_neg hof]
    rfl

theorem unservedOf_append_of_ne {raised : List Ticket} (h : ∀ t ∈ raised, t.request.sender ≠ some name) :
    unservedOf (queue ++ raised) name = unservedOf queue name := by
  funext k
  have hnone : raised.countP (Ticket.isOf name k) = 0 := List.countP_eq_zero.mpr fun t ht => by
    simp [Ticket.isOf, h t ht]
  rw [unservedOf, List.countP_append, hnone]
  rfl

end

/-- A counter goes on with the requests that are served. -/
theorem toNat_of_concat {done : List (Ticket × Admission)} {t : Ticket} {a b : Admission}
    {first before after : UInt64} (hafter : after = if a = b then Stats.saturatingAdd before 1 else before)
    (hbefore : before.toNat = min (first.toNat + done.countP fun x => x.2 = b) (UInt64.size - 1)) :
    after.toNat = min (first.toNat + (done ++ [(t, a)]).countP fun x => x.2 = b) (UInt64.size - 1) := by
  rw [List.countP_append, hafter]
  by_cases ha : a = b
  · rw [if_pos ha, List.countP_cons_of_pos (by simpa using ha)]
    exact Stats.one_more hbefore
  · rw [if_neg ha, List.countP_cons_of_neg (by simpa using ha)]
    exact hbefore

/-- A sender does the errands that it had at the start. Its requests ask for their interrupts, and its
calls are told by what became of them and by the answers on their way. -/
def Follows (start : World) (sent : List Ticket) (done : List (Ticket × Admission))
    (queue : List Ticket) (isOpen : Bool) (replies : List Bool) (name : Nat) (s : Sender) : Prop :=
  ∃ calls : List Errand, (∀ s₀, start.senders[name]? = some s₀ → calls = s₀.errands) ∧
    (∀ t ∈ sent, t.request.sender = some name →
      ∃ e, calls[t.call]? = some e ∧ t.request.id = e.id) ∧
    Tracks calls s isOpen (fatesOf done name) (unservedOf queue name) replies

namespace Follows

variable {start : World} {sent : List Ticket} {done : List (Ticket × Admission)}
  {queue : List Ticket} {isOpen : Bool} {replies : List Bool} {name : Nat} {s : Sender}

theorem request {now : Nat} {r : Request} (hr : s.request? name now = some r) :
    ∃ e, s.errands.head? = some e ∧ r = ⟨e.id, some name⟩ := by
  unfold Sender.request? at hr
  split at hr
  next =>
    obtain ⟨e, he, rfl⟩ := Option.map_eq_some_iff.mp hr
    exact ⟨e, he, rfl⟩
  next => cases hr

theorem send {now : Nat} {r : Request} (h : Follows start sent done queue isOpen replies name s)
    (hr : s.request? name now = some r) :
    Follows start (sent ++ [⟨r, s.verdicts.length⟩]) done (queue ++ [⟨r, s.verdicts.length⟩]) isOpen
      replies name s.wait := by
  obtain ⟨calls, hcalls, hids, htracks⟩ := h
  obtain ⟨e, he, rfl⟩ := request hr
  refine ⟨calls, hcalls, ?_, ?_⟩
  · intro t ht hname
    rcases List.mem_append.mp ht with hold | hnew
    · exact hids t hold hname
    · obtain rfl := List.mem_singleton.mp hnew
      rw [htracks.head?_errands] at he
      exact ⟨e, he, rfl⟩
  · rw [unservedOf_concat rfl]
    exact htracks.send hr

/-- Somebody else queues requests. -/
theorem append {others : List Ticket} (h : Follows start sent done queue isOpen replies name s)
    (hothers : ∀ t ∈ others, t.request.sender ≠ some name) :
    Follows start (sent ++ others) done (queue ++ others) isOpen replies name s := by
  obtain ⟨calls, hcalls, hids, htracks⟩ := h
  refine ⟨calls, hcalls, ?_, ?_⟩
  · intro t ht hname
    rcases List.mem_append.mp ht with hold | hnew
    · exact hids t hold hname
    · exact absurd hname (hothers t hnew)
  · rw [unservedOf_append_of_ne hothers]
    exact htracks

theorem poll {t : Ticket} (a : Admission)
    (h : Follows start sent done (t :: queue) true replies name s) :
    Follows start sent (done ++ [(t, a)]) queue true
      (if t.request.sender = some name then a.isAdmitted :: replies else replies) name s := by
  obtain ⟨calls, hcalls, hids, htracks⟩ := h
  refine ⟨calls, hcalls, hids, ?_⟩
  by_cases hname : t.request.sender = some name
  · rw [if_pos hname, fatesOf_concat hname, unservedOf_cons hname]
    refine htracks.poll a ?_
    have hof : t.isOf name t.call = true := by simp [Ticket.isOf, hname]
    rw [unservedOf, List.countP_cons_of_pos hof]
    exact Nat.succ_ne_zero _
  · rw [unservedOf_cons_of_ne hname] at htracks
    rw [if_neg hname, fatesOf_concat_of_ne hname]
    exact htracks

theorem answered {front back : List Bool} {accepted : Bool} (now : Nat)
    (h : Follows start sent done queue isOpen (front ++ accepted :: back) name s) :
    Follows start sent done queue isOpen (front ++ back) name (s.answered now accepted) := by
  obtain ⟨calls, hcalls, hids, htracks⟩ := h
  exact ⟨calls, hcalls, hids, htracks.answered now⟩

theorem drop (h : Follows start sent done queue true replies name s) :
    Follows start sent done queue false replies name s := by
  obtain ⟨calls, hcalls, hids, htracks⟩ := h
  exact ⟨calls, hcalls, hids, htracks.drop⟩

theorem close (h : Follows start sent done queue false [] name s) :
    Follows start sent done queue false [] name s.close := by
  obtain ⟨calls, hcalls, hids, htracks⟩ := h
  exact ⟨calls, hcalls, hids, htracks.close⟩

end Follows

/-- The requests that were served and those that wait are the ones that were queued, in this order. Each
of those served got one answer, and the calls of each sender are told by its requests. -/
structure Keeps (p : Program) (start : World) (S : Session) (done : List (Ticket × Admission))
    (queue : List Ticket) : Prop where
  sent : S.sent = done.map Prod.fst ++ queue
  served : (S.served.map fun x => (x.request, x.fate p)) = done.map fun x => (x.1.request, x.2)
  takes : ∀ x ∈ S.served, x.Takes p
  pending : S.world.machine.pending = if S.isOpen then queue.map Ticket.request else []
  answers : (S.world.history.filter Event.isAnswer ++ S.world.machine.ledger.answers).Perm
    (done.map fun x => .answered x.1.request x.2.isAdmitted)
  accepted : S.world.machine.stats.accepted.toNat = min (start.machine.stats.accepted.toNat +
    done.countP fun x => x.2 = .entered) (UInt64.size - 1)
  rejected : S.world.machine.stats.rejected.toNat = min (start.machine.stats.rejected.toNat +
    done.countP fun x => x.2 = .rejected) (UInt64.size - 1)
  size_le : start.senders.size ≤ S.world.senders.size
  names : ∀ t ∈ S.sent, ∀ name, t.request.sender = some name → name < S.world.senders.size
  senders : ∀ name s, S.world.senders[name]? = some s →
    Follows start S.sent done queue S.isOpen (S.world.machine.repliesTo name) name s

/-- Nobody has asked for anything yet, and the machine has told nothing. -/
structure World.IsFresh (w : World) : Prop where
  pending : w.machine.pending = []
  events : w.machine.events = []
  history : w.history = []
  senders : ∀ s ∈ w.senders, s.IsFresh

theorem sender_set!_cases {senders : Array Sender} {name name' : Nat} {s x : Sender}
    (h : (senders.set! name s)[name']? = some x) :
    name' = name ∧ x = s ∨ name' ≠ name ∧ senders[name']? = some x := by
  rw [Array.set!_eq_setIfInBounds, Array.getElem?_setIfInBounds] at h
  split at h
  next heq =>
    split at h
    next => exact .inl ⟨heq.symm, (Option.some.inj h).symm⟩
    next => cases h
  next hne => exact .inr ⟨Ne.symm hne, h⟩

theorem size_set! {senders : Array Sender} {name : Nat} {s : Sender} :
    (senders.set! name s).size = senders.size := by
  rw [Array.set!_eq_setIfInBounds, Array.size_setIfInBounds]

namespace Keeps

variable {p : Program} {start w : World} {isOpen : Bool} {sent : List Ticket}
  {served : List Poll} {done : List (Ticket × Admission)} {queue : List Ticket}

theorem fresh (h : w.IsFresh) : Keeps p w (.start w) [] [] := by
  have hanswers : w.machine.ledger.answers = [] := by
    rw [Machine.ledger, h.events]
    rfl
  refine ⟨rfl, rfl, fun x hx => absurd hx List.not_mem_nil, h.pending, ?_, ?_, ?_, Nat.le_refl _, ?_, ?_⟩
  · simp only [Session.start, h.history, hanswers]
    rfl
  · have hlt := w.machine.stats.accepted.toNat_lt_size
    simp only [Session.start, List.countP_nil]
    omega
  · have hlt := w.machine.stats.rejected.toNat_lt_size
    simp only [Session.start, List.countP_nil]
    omega
  · exact fun t ht => absurd ht List.not_mem_nil
  · intro name s hs
    refine ⟨s.errands, ?_, fun t ht => absurd ht List.not_mem_nil, ?_⟩
    · intro s₀ hs₀
      rw [Option.some.inj (hs.symm.trans hs₀)]
    · have hreplies : w.machine.repliesTo name = [] := by
        rw [Machine.repliesTo, hanswers]
        rfl
      have htracks := Tracks.fresh (h.senders s (Array.mem_of_getElem? hs))
      rw [Session.start, hreplies]
      exact htracks

theorem send {name : Nat} {s : Sender} {r : Request}
    (h : Keeps p start ⟨w, true, sent, served⟩ done queue) (hs : w.senders[name]? = some s)
    (hr : s.request? name w.now = some r) :
    Keeps p start ⟨w.send name, true, sent ++ [⟨r, s.verdicts.length⟩], served⟩ done
      (queue ++ [⟨r, s.verdicts.length⟩]) := by
  have hsender : r.sender = some name := by
    obtain ⟨_, -, rfl⟩ := Follows.request hr
    rfl
  have hsize : (w.senders.set! name s.wait).size = w.senders.size := size_set!
  have hlt : name < w.senders.size := (Array.getElem?_eq_some_iff.mp hs).1
  rw [World.send_eq hs hr]
  refine ⟨?_, h.served, h.takes, ?_, h.answers, h.accepted, h.rejected, ?_, ?_, ?_⟩
  · have hsent : sent = done.map Prod.fst ++ queue := h.sent
    rw [← List.append_assoc, ← hsent]
  · have hpending : w.machine.pending = queue.map Ticket.request := h.pending
    simp only [if_true]
    rw [Machine.request, hpending, List.map_append]
    rfl
  · rw [hsize]
    exact h.size_le
  · intro t ht name' hname'
    rw [hsize]
    rcases List.mem_append.mp ht with hold | hnew
    · exact h.names t hold name' hname'
    · obtain rfl := List.mem_singleton.mp hnew
      obtain rfl := Option.some.inj (hsender.symm.trans hname')
      exact hlt
  · intro name' s' hs'
    rcases sender_set!_cases hs' with ⟨rfl, rfl⟩ | ⟨hne, hold⟩
    · exact (h.senders name' s hs).send hr
    · refine (h.senders name' s' hold).append fun t ht hname => hne ?_
      obtain rfl := List.mem_singleton.mp ht
      exact Option.some.inj (hname.symm.trans hsender)

theorem poll {r : Request} {m : Machine} (h : Keeps p start ⟨w, true, sent, served⟩ done queue)
    (htakes : Poll.Takes p ⟨r, w.machine, m⟩) : ∃ done' queue',
      Keeps p start ⟨{ w with machine := m }, true, sent, served ++ [⟨r, w.machine, m⟩]⟩ done' queue' := by
  obtain ⟨rest, hpending, hledger⟩ := htakes.ledger
  have hqueue : w.machine.pending = queue.map Ticket.request := h.pending
  have hfront : w.machine.pending = r :: rest := hpending
  rw [hfront] at hqueue
  -- The request belongs to the ticket at the front, which moves to those that are done.
  obtain ⟨t, queue, rfl, rfl, rfl⟩ := List.map_eq_cons_iff.mp hqueue.symm
  have hsent : sent = done.map Prod.fst ++ t :: queue := h.sent
  have hserved : (served.map fun x => (x.request, x.fate p)) = done.map fun x => (x.1.request, x.2) :=
    h.served
  generalize hfate : Poll.fate p ⟨t.request, w.machine, m⟩ = a at hledger
  have hanswers : m.ledger.answers = .answered t.request a.isAdmitted :: w.machine.ledger.answers :=
    congrArg Machine.Ledger.answers hledger
  have haccepted : m.stats.accepted = if a = .entered then
      Stats.saturatingAdd w.machine.stats.accepted 1 else w.machine.stats.accepted :=
    congrArg Machine.Ledger.accepted hledger
  have hrejected : m.stats.rejected = if a = .rejected then
      Stats.saturatingAdd w.machine.stats.rejected 1 else w.machine.stats.rejected :=
    congrArg Machine.Ledger.rejected hledger
  have hreplies := Machine.repliesTo_of_answers hanswers
  refine ⟨done ++ [(t, a)], queue, ?_, ?_, ?_, congrArg Machine.Ledger.pending hledger, ?_, ?_, ?_,
    h.size_le, h.names, ?_⟩
  · rw [List.map_append, List.append_assoc]
    exact hsent
  · rw [List.map_append, List.map_append, hserved, List.map_singleton, hfate]
    rfl
  · intro x hx
    rcases List.mem_append.mp hx with hold | hnew
    · exact h.takes x hold
    · rw [List.mem_singleton.mp hnew]
      exact htakes
  · simp only [hanswers]
    have hbefore := h.answers
    rw [List.map_append]
    exact (List.perm_middle.trans (hbefore.cons _)).trans (List.perm_append_singleton _ _).symm
  · exact toNat_of_concat haccepted h.accepted
  · exact toNat_of_concat hrejected h.rejected
  · intro name s hs
    simp only [hreplies]
    exact (h.senders name s hs).poll a

theorem advance {m : Machine} (h : Keeps p start ⟨w, true, sent, served⟩ done queue)
    (hm : w.machine.resetConstants.advance p = m) : ∃ queue', Keeps p start
      ⟨{ w with machine := m }, true,
        sent ++ (m.pending.drop w.machine.pending.length).map (⟨·, 0⟩), served⟩ done queue' := by
  obtain ⟨raised, executed, hraised, hledger⟩ := Machine.exists_raised p w.machine.resetConstants
  rw [hm] at hledger
  have hpending : m.pending = w.machine.pending ++ raised := congrArg Machine.Ledger.pending hledger
  have hanswers : m.ledger.answers = w.machine.ledger.answers := by
    rw [hledger]
    rfl
  have haccepted : m.stats.accepted = w.machine.stats.accepted :=
    congrArg Machine.Ledger.accepted hledger
  have hrejected : m.stats.rejected = w.machine.stats.rejected :=
    congrArg Machine.Ledger.rejected hledger
  have hreplies : ∀ name, m.repliesTo name = w.machine.repliesTo name := by
    intro name
    rw [Machine.repliesTo, Machine.repliesTo, hanswers]
  have hsent : sent = done.map Prod.fst ++ queue := h.sent
  have hqueue : w.machine.pending = queue.map Ticket.request := h.pending
  have hdrop : m.pending.drop w.machine.pending.length = raised := by
    rw [hpending, List.drop_left]
  -- Nobody waits for these requests, so they belong to no call.
  have hnobody : ∀ t ∈ raised.map (fun r => (⟨r, 0⟩ : Ticket)), t.request.sender = none := by
    intro t ht
    obtain ⟨r, hr, rfl⟩ := List.mem_map.mp ht
    exact hraised r hr
  rw [hdrop]
  refine ⟨queue ++ raised.map (⟨·, 0⟩), ?_, h.served, h.takes, ?_, ?_, ?_, ?_, h.size_le, ?_, ?_⟩
  · rw [← List.append_assoc, ← hsent]
  · have hback : (raised.map fun r => (⟨r, 0⟩ : Ticket)).map Ticket.request = raised := by
      rw [List.map_map]
      exact List.map_id' raised
    simp only [if_true]
    rw [List.map_append, hback, hpending, hqueue]
  · simp only [hanswers]
    exact h.answers
  · simp only [haccepted]
    exact h.accepted
  · simp only [hrejected]
    exact h.rejected
  · intro t ht name hname
    rcases List.mem_append.mp ht with hold | hnew
    · exact h.names t hold name hname
    · rw [hnobody t hnew] at hname
      cases hname
  · intro name s hs
    simp only [hreplies]
    refine (h.senders name s hs).append fun t ht hname => ?_
    rw [hnobody t ht] at hname
    cases hname

theorem drop (h : Keeps p start ⟨w, true, sent, served⟩ done queue) : Keeps p start
    ⟨{ w with machine := { w.machine with pending := [] } }, false, sent, served⟩ done queue := by
  refine ⟨h.sent, h.served, h.takes, rfl, h.answers, h.accepted, h.rejected, h.size_le, h.names, ?_⟩
  exact fun name s hs => (h.senders name s hs).drop

theorem close {name : Nat} {s : Sender} (h : Keeps p start ⟨w, false, sent, served⟩ done queue)
    (hs : w.senders[name]? = some s)
    (hnone : ∀ r accepted, .answered r accepted ∈ w.machine.events → r.sender ≠ some name) :
    Keeps p start ⟨{ w with senders := w.senders.set! name s.close }, false, sent, served⟩ done
      queue := by
  have hsize : (w.senders.set! name s.close).size = w.senders.size := size_set!
  have hreplies := Machine.repliesTo_eq_nil hnone
  refine ⟨h.sent, h.served, h.takes, h.pending, h.answers, h.accepted, h.rejected, ?_, ?_, ?_⟩
  · rw [hsize]
    exact h.size_le
  · simp only [hsize]
    exact h.names
  · intro name' s' hs'
    rcases sender_set!_cases hs' with ⟨rfl, rfl⟩ | ⟨-, hold⟩
    · have hclosed := h.senders name' s hs
      simp only [hreplies] at hclosed ⊢
      exact hclosed.close
    · exact h.senders name' s' hold

/-- An answer on its way is to a sender that is there. -/
theorem name_lt {r : Request} {accepted : Bool} {name : Nat}
    (h : Keeps p start ⟨w, isOpen, sent, served⟩ done queue)
    (hmem : .answered r accepted ∈ w.machine.events) (hname : r.sender = some name) :
    name < w.senders.size := by
  have hanswer : .answered r accepted ∈ w.machine.ledger.answers := List.mem_filter.mpr ⟨hmem, rfl⟩
  have hdone := h.answers.subset (List.mem_append_right _ hanswer)
  obtain ⟨⟨t, a⟩, hx, heq⟩ := List.mem_map.mp hdone
  obtain ⟨rfl, -⟩ := Event.answered.inj heq
  have hsent : sent = done.map Prod.fst ++ queue := h.sent
  have ht : t ∈ sent := by
    rw [hsent]
    exact List.mem_append_left _ (List.mem_map_of_mem hx)
  exact h.names t ht name hname

/-- A sender that is not there yet has asked for nothing. -/
theorem follows_fresh {s : Sender} (h : Keeps p start ⟨w, isOpen, sent, served⟩ done queue)
    (hs : s.IsFresh) : Follows start sent done queue isOpen (w.machine.repliesTo w.senders.size)
      w.senders.size s := by
  have hsent : sent = done.map Prod.fst ++ queue := h.sent
  have hnone : ∀ t ∈ sent, t.request.sender ≠ some w.senders.size := by
    intro t ht hname
    exact absurd (h.names t ht _ hname) (Nat.lt_irrefl _)
  have hfates : fatesOf done w.senders.size = fun _ => [] := by
    funext k
    rw [fatesOf, List.map_eq_nil_iff, List.filter_eq_nil_iff]
    intro x hx hof
    have hmem : x.1 ∈ sent := by
      rw [hsent]
      exact List.mem_append_left _ (List.mem_map_of_mem hx)
    exact hnone x.1 hmem (of_decide_eq_true hof).1
  have hunserved : unservedOf queue w.senders.size = fun _ => 0 := by
    funext k
    rw [unservedOf, List.countP_eq_zero]
    intro t ht hof
    have hmem : t ∈ sent := by
      rw [hsent]
      exact List.mem_append_right _ ht
    exact hnone t hmem (of_decide_eq_true hof).1
  have hreplies : w.machine.repliesTo w.senders.size = [] := Machine.repliesTo_eq_nil
    fun r accepted hmem hname => absurd (h.name_lt hmem hname) (Nat.lt_irrefl _)
  refine ⟨s.errands, ?_, fun t ht hname => absurd hname (hnone t ht), ?_⟩
  · intro s₀ hs₀
    have hlt := (Array.getElem?_eq_some_iff.mp hs₀).1
    exact absurd hlt (Nat.not_lt.mpr h.size_le)
  · rw [hfates, hunserved, hreplies]
    cases isOpen with
    | true => exact Tracks.fresh hs
    | false => exact (Tracks.fresh hs).drop

theorem notice {front back : List Event} {e : Event}
    (h : Keeps p start ⟨w, isOpen, sent, served⟩ done queue)
    (hevents : w.machine.events = front ++ e :: back) : Keeps p start
      ⟨{ w with machine := { w.machine with events := front ++ back } }.notice e, isOpen, sent, served⟩
      done queue := by
  obtain ⟨told, senders, htold, hnotice, hcases⟩ :=
    World.notice_cases { w with machine := { w.machine with events := front ++ back } } e
  have hreplies := Machine.repliesTo_of_events hevents
  -- A sender that the event is not for finds the same answers on their way.
  have hother : ∀ name s, Follows start sent done queue isOpen (w.machine.repliesTo name) name s →
      Machine.replyTo name e = none → Follows start sent done queue isOpen
        (Machine.repliesTo { w.machine with events := front ++ back } name) name s := by
    intro name s hfollows hnone
    simp only [hreplies, hnone] at hfollows
    rw [Machine.repliesTo_eq, List.filterMap_append]
    exact hfollows
  have hsize : w.senders.size ≤ senders.size := by
    rcases hcases with ⟨_, _, _, _, -, -, -, rfl⟩ | ⟨_, -, -, rfl⟩ | ⟨-, rfl⟩
    · exact Nat.le_of_eq size_set!.symm
    · rw [Array.size_push]
      exact Nat.le_succ _
    · exact Nat.le_refl _
  rw [hnotice]
  refine ⟨h.sent, h.served, h.takes, h.pending, ?_, h.accepted, h.rejected, h.size_le.trans hsize, ?_, ?_⟩
  · exact (Machine.answers_of_events hevents htold).trans h.answers
  · intro t ht name hname
    exact Nat.lt_of_lt_of_le (h.names t ht name hname) hsize
  · intro name s hs
    rcases hcases with ⟨r, accepted, name', s', rfl, hname, hs', rfl⟩ | ⟨s', hfresh, he, rfl⟩ |
      ⟨hnobody, rfl⟩
    · rcases sender_set!_cases hs with ⟨rfl, rfl⟩ | ⟨hne, hold⟩
      · have hfollows := h.senders name s' hs'
        have hreply : Machine.replyTo name (.answered r accepted) = some accepted := if_pos hname
        simp only [hreplies, hreply] at hfollows
        rw [Machine.repliesTo_eq, List.filterMap_append]
        exact hfollows.answered _
      · refine hother name s (h.senders name s hold) (if_neg fun hsame => hne ?_)
        exact Option.some.inj (hsame.symm.trans hname)
    · rw [Array.getElem?_push] at hs
      split at hs
      next hnew =>
        obtain rfl := Option.some.inj hs
        obtain rfl := hnew
        exact hother _ s' (h.follows_fresh hfresh) (Machine.replyTo_of_not_isAnswer he _)
      next => exact hother name s (h.senders name s hs) (Machine.replyTo_of_not_isAnswer he name)
    · refine hother name s (h.senders name s hs) ?_
      cases e with
      | answered r accepted =>
        refine if_neg fun hname => ?_
        have hnone := hnobody r accepted name rfl hname
        rw [hs] at hnone
        cases hnone
      | _ => rfl

theorem step {S S' : Session} (h : Keeps p start S done queue) (hstep : S.Step p S') :
    ∃ done' queue', Keeps p start S' done' queue' := by
  cases hstep with
  | send hs hr => exact ⟨_, _, h.send hs hr⟩
  | poll hpending => exact h.poll ⟨_, hpending, rfl⟩
  | advance _ hm => exact ⟨_, h.advance hm⟩
  | start => exact ⟨done, queue, h.sent, h.served, h.takes, h.pending, h.answers, h.accepted, h.rejected,
      h.size_le, h.names, h.senders⟩
  | wait => exact ⟨done, queue, h.sent, h.served, h.takes, h.pending, h.answers, h.accepted, h.rejected,
      h.size_le, h.names, h.senders⟩
  | notice hevents => exact ⟨_, _, h.notice hevents⟩
  | drop => exact ⟨_, _, h.drop⟩
  | close hs hnone => exact ⟨_, _, h.close hs hnone⟩

theorem reaches {S S' : Session} (h : Keeps p start S done queue) (hrun : S.Reaches p S') :
    ∃ done' queue', Keeps p start S' done' queue' := by
  induction hrun with
  | refl => exact ⟨done, queue, h⟩
  | tail _ hstep ih =>
    obtain ⟨done', queue', hkeeps⟩ := ih
    exact hkeeps.step hstep

end Keeps

end RegisterMachine
