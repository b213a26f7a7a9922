import Mathlib
import RegisterMachine.Proofs.Delivery.Record

namespace RegisterMachine

namespace Machine

theorem answer_pending (p : Program) (m : Machine) (queue : List Request) (r : Request) :
    answer p { m with pending := queue } r = { answer p m r with pending := queue } := by
  unfold answer
  split
  next => split <;> rfl
  next => rfl

theorem alive_answer (p : Program) (m : Machine) (r : Request) : (answer p m r).alive = m.alive :=
  (congrArg alive (diverted_answer p m r) :)

theorem alive_answerAll (p : Program) (m : Machine) : (m.answerAll p).alive = m.alive :=
  (congrArg alive (diverted_answerAll p m) :)

end Machine

namespace World

/-- What an event means does not depend on the machine. -/
theorem notice_machine (w : World) (m : Machine) (e : Event) :
    { w with machine := m }.notice e = { w.notice e with machine := m } := by
  cases e with
  | answered r accepted => simp only [notice]; split <;> rfl
  | _ => rfl

theorem machine_notice (w : World) (e : Event) : (w.notice e).machine = w.machine := by
  obtain ⟨_, _, -, hnotice, -⟩ := notice_cases w e
  rw [hnotice]

/-- All that the senders change of the machine are the requests that wait. -/
theorem machine_send (w : World) (names : List Nat) : ∃ queue,
    (names.foldl send w).machine = { w.machine with pending := queue } := by
  refine List.foldlRecOn (motive := fun w' => ∃ queue, w'.machine = { w.machine with pending := queue })
    names send ⟨w.machine.pending, rfl⟩ fun w' h name _ => ?_
  obtain ⟨queue, hqueue⟩ := h
  have hsend : ∃ queue, (w'.send name).machine = { w'.machine with pending := queue } := by
    unfold send
    split
    next => exact ⟨_, rfl⟩
    next => split <;> exact ⟨_, rfl⟩
  obtain ⟨queue', hqueue'⟩ := hsend
  exact ⟨queue', by rw [hqueue', hqueue]⟩

theorem machine_noticeAll (w : World) : w.noticeAll.machine = { w.machine with events := [] } := by
  rw [noticeAll]
  refine List.foldlRecOn (motive := fun w' => w'.machine = { w.machine with events := [] })
    w.machine.events.reverse notice ?_ ?_
  · rfl
  · exact fun w' h e _ => (machine_notice w' e).trans h

theorem events_runFor (p : Program) (n : Nat) {w : World} (h : w.machine.events = []) :
    (w.runFor p n).machine.events = [] := by
  induction n generalizing w with
  | zero => exact h
  | succ n ih =>
    rw [runFor]
    split
    next =>
      refine ih ?_
      rw [cycle, machine_noticeAll]
    next => exact h

/-- The machine is gone, and with it the requests that wait. -/
def drop (w : World) : World :=
  { w with machine := { w.machine with pending := [] } }

/-- The first senders have learnt that the machine is gone. -/
def closeFirst (w : World) (n : Nat) : World :=
  { w with senders := w.senders.mapIdx fun i s => if i < n then s.close else s }

theorem getElem?_closeFirst (w : World) (n i : Nat) : (w.closeFirst n).senders[i]? =
    w.senders[i]?.map fun s => if i < n then s.close else s := by
  rw [closeFirst, Array.getElem?_mapIdx]

theorem closeFirst_eq {w : World} {n : Nat} {senders : Array Sender}
    (h : (w.closeFirst n).senders = senders) : w.closeFirst n = { w with senders := senders } := by
  rw [← h]
  rfl

theorem closeFirst_zero (w : World) : w.closeFirst 0 = w := by
  have hsenders : (w.closeFirst 0).senders = w.senders := by
    refine Array.ext_getElem? fun i => ?_
    rw [getElem?_closeFirst]
    exact Option.map_id'
  exact closeFirst_eq hsenders

theorem closeFirst_size (w : World) : w.closeFirst w.senders.size = w.close := by
  have hsenders : (w.closeFirst w.senders.size).senders = w.senders.map Sender.close := by
    refine Array.ext_getElem? fun i => ?_
    rw [getElem?_closeFirst, Array.getElem?_map]
    refine Option.map_congr fun s hs => ?_
    rw [if_pos (Array.getElem?_eq_some_iff.mp hs).1]
  exact closeFirst_eq hsenders

theorem closeFirst_succ {w : World} {n : Nat} {s : Sender} (h : w.senders[n]? = some s) :
    w.closeFirst (n + 1) = { w.closeFirst n with
      senders := (w.closeFirst n).senders.set! n s.close } := by
  have hlt : n < (w.closeFirst n).senders.size := by
    rw [closeFirst, Array.size_mapIdx]
    exact (Array.getElem?_eq_some_iff.mp h).1
  have hsenders : (w.closeFirst (n + 1)).senders = (w.closeFirst n).senders.set! n s.close := by
    refine Array.ext_getElem? fun i => ?_
    rw [Array.set!_eq_setIfInBounds, Array.getElem?_setIfInBounds, getElem?_closeFirst,
      getElem?_closeFirst]
    by_cases hi : n = i
    · subst hi
      rw [if_pos rfl, if_pos hlt, h, Option.map_some, if_pos (Nat.lt_succ_self n)]
    · have hiff : i < n + 1 ↔ i < n := by omega
      simp only [if_neg hi, hiff]
  exact closeFirst_eq hsenders

end World

namespace Session

variable {p : Program} {w : World} {isOpen : Bool} {sent : List Ticket}
  {served : List Poll}

theorem reaches_send (names : List Nat) (w : World) (sent : List Ticket)
    (served : List Poll) : ∃ sent', Reaches p ⟨w, true, sent, served⟩
      ⟨names.foldl World.send w, true, sent', served⟩ := by
  induction names generalizing w sent with
  | nil => exact ⟨sent, .refl⟩
  | cons name names ih =>
    cases hs : w.senders[name]? with
    | none =>
      have hsend : w.send name = w := by rw [World.send, hs]
      rw [List.foldl_cons, hsend]
      exact ih w sent
    | some s =>
      cases hr : s.request? name w.now with
      | none =>
        have hsend : w.send name = w := by
          rw [World.send, hs]
          simp only [hr]
        rw [List.foldl_cons, hsend]
        exact ih w sent
      | some r =>
        obtain ⟨sent', hrest⟩ := ih (w.send name) (sent ++ [⟨r, s.verdicts.length⟩])
        exact ⟨sent', hrest.head (.send hs hr)⟩

theorem reaches_answerAll (w : World) (sent : List Ticket) (served : List Poll) :
    ∃ served', Reaches p ⟨w, true, sent, served⟩
      ⟨{ w with machine := w.machine.answerAll p }, true, sent, served'⟩ := by
  have hfold : ∀ (requests : List Request) (m : Machine) (served : List Poll),
      ∃ served', Reaches p ⟨{ w with machine := { m with pending := requests } }, true, sent, served⟩
        ⟨{ w with machine := requests.foldl (Machine.answer p) { m with pending := [] } }, true, sent,
          served'⟩ := by
    intro requests
    induction requests with
    | nil => exact fun m served => ⟨served, .refl⟩
    | cons r requests ih =>
      intro m served
      obtain ⟨served', hrest⟩ := ih (Machine.answer p m r)
        (served ++ [⟨r, { m with pending := r :: requests },
          Machine.answer p { m with pending := requests } r⟩])
      rw [← Machine.answer_pending, ← Machine.answer_pending] at hrest
      exact ⟨served', hrest.head (.poll rfl)⟩
  exact hfold w.machine.pending w.machine served

/-- Everything that is on its way arrives, in the order in which it was told. -/
theorem reaches_noticeAll (w : World) (isOpen : Bool) (sent : List Ticket)
    (served : List Poll) :
    Reaches p ⟨w, isOpen, sent, served⟩ ⟨w.noticeAll, isOpen, sent, served⟩ := by
  have hfold : ∀ (events : List Event) (w : World),
      Reaches p ⟨{ w with machine := { w.machine with events := events.reverse } }, isOpen, sent, served⟩
        ⟨events.foldl World.notice { w with machine := { w.machine with events := [] } }, isOpen,
          sent, served⟩ := by
    intro events
    induction events with
    | nil => exact fun w => .refl
    | cons e events ih =>
      intro w
      have hrest := ih (w.notice e)
      rw [World.machine_notice, ← World.notice_machine, ← World.notice_machine] at hrest
      have hstep : Step p
          ⟨{ w with machine := { w.machine with events := (e :: events).reverse } }, isOpen, sent, served⟩
          ⟨{ w with machine := { w.machine with events := events.reverse ++ [] } }.notice e, isOpen,
            sent, served⟩ := .notice List.reverse_cons
      rw [List.append_nil] at hstep
      exact hrest.head hstep
  have hevents := hfold w.machine.events.reverse w
  rw [List.reverse_reverse] at hevents
  exact hevents

theorem reaches_cycle (w : World) (sent : List Ticket) (served : List Poll)
    (halive : w.machine.alive = true) : ∃ sent' served',
      Reaches p ⟨w, true, sent, served⟩ ⟨w.cycle p, true, sent', served'⟩ := by
  obtain ⟨sent₁, hsend⟩ := reaches_send (p := p) (List.range w.senders.size) w sent served
  obtain ⟨served₁, hanswer⟩ := reaches_answerAll (p := p) w.sendAll sent₁ served
  have hready : (w.sendAll.machine.answerAll p).alive = true := by
    obtain ⟨queue, hqueue⟩ := World.machine_send w (List.range w.senders.size)
    rw [Machine.alive_answerAll, World.sendAll, hqueue]
    exact halive
  have hrun := (hsend.trans hanswer).tail (.advance hready rfl)
  exact ⟨_, served₁, (hrun.tail .wait).trans (reaches_noticeAll _ true _ served₁)⟩

/-- The machine with its senders goes through cycles in a session. -/
theorem reaches_runFor (n : Nat) (w : World) (sent : List Ticket)
    (served : List Poll) : ∃ sent' served',
      Reaches p ⟨w, true, sent, served⟩ ⟨w.runFor p n, true, sent', served'⟩ := by
  induction n generalizing w sent served with
  | zero => exact ⟨sent, served, .refl⟩
  | succ n ih =>
    rw [World.runFor]
    split
    next halive =>
      obtain ⟨sent₁, served₁, hcycle⟩ := reaches_cycle (p := p) w sent served halive
      obtain ⟨sent₂, served₂, hrest⟩ := ih (w.cycle p) sent₁ served₁
      exact ⟨sent₂, served₂, hcycle.trans hrest⟩
    next => exact ⟨sent, served, .refl⟩

/-- The machine is dropped, and the senders learn of it one after the other. -/
theorem reaches_close (w : World) (sent : List Ticket) (served : List Poll)
    (hevents : w.machine.events = []) :
    Reaches p ⟨w, true, sent, served⟩ ⟨w.drop.close, false, sent, served⟩ := by
  have hfirst : ∀ n ≤ w.senders.size,
      Reaches p ⟨w, true, sent, served⟩ ⟨w.drop.closeFirst n, false, sent, served⟩ := by
    intro n hn
    induction n with
    | zero =>
      rw [World.closeFirst_zero]
      exact .single .drop
    | succ n ih =>
      have hs : w.drop.senders[n]? = some w.senders[n] := Array.getElem?_eq_getElem hn
      have hold : (w.drop.closeFirst n).senders[n]? = some w.senders[n] := by
        rw [World.getElem?_closeFirst, hs, Option.map_some, if_neg (Nat.lt_irrefl n)]
      have hstep : Step p ⟨w.drop.closeFirst n, false, sent, served⟩
          ⟨w.drop.closeFirst (n + 1), false, sent, served⟩ := by
        rw [World.closeFirst_succ hs]
        refine .close hold fun r accepted hmem => ?_
        have hnone : .answered r accepted ∈ w.machine.events := hmem
        rw [hevents] at hnone
        cases hnone
      exact (ih (Nat.le_of_lt hn)).tail hstep
  have hall := hfirst w.senders.size (Nat.le_refl _)
  have hclose : w.drop.closeFirst w.senders.size = w.drop.close := World.closeFirst_size w.drop
  rw [hclose] at hall
  exact hall

/-- The machine is dropped after some cycles, when some senders have just made a request. -/
theorem reaches_runFor_close (n : Nat) (names : List Nat) (w : World) (hevents : w.machine.events = []) :
    ∃ sent served, (start w).Reaches p
      ⟨(names.foldl World.send (w.runFor p n)).drop.close, false, sent, served⟩ := by
  obtain ⟨sent₁, served, hrun⟩ := reaches_runFor (p := p) n w [] []
  obtain ⟨sent₂, hsend⟩ := reaches_send (p := p) names (w.runFor p n) sent₁ served
  have hquiet : (names.foldl World.send (w.runFor p n)).machine.events = [] := by
    obtain ⟨queue, hqueue⟩ := World.machine_send (w.runFor p n) names
    rw [hqueue]
    exact World.events_runFor p n hevents
  exact ⟨sent₂, served, (hrun.trans hsend).trans (reaches_close _ sent₂ served hquiet)⟩

end Session

end RegisterMachine
