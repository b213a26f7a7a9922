import Mathlib
import RegisterMachine.Proofs.Machine.Faults
import RegisterMachine.Proofs.Machine.History

namespace RegisterMachine

namespace Transfer

/-- Where the machine goes on once it has come back. -/
def resume? : Transfer → Option UInt64
  | called ip => some (ip + 1)
  | interrupted ip => some ip
  | returned => none

def isCall : Transfer → Bool
  | called _ => true
  | _ => false

def isInterruption : Transfer → Bool
  | interrupted _ => true
  | _ => false

end Transfer

/-- The number of returns in a record that come back from what was entered before the record. -/
def surplus : List Transfer → Nat
  | [] => 0
  | e :: rest => if e.resume?.isSome then surplus rest - 1 else surplus rest + 1

/-- Where the machine is to go on for each call and interrupt that it has not come back from, the oldest
first. What comes after an entry comes back from it if it comes back from anything before itself. -/
def unreturned : List Transfer → List UInt64
  | [] => []
  | e :: rest => if surplus rest = 0 then e.resume?.toList ++ unreturned rest else unreturned rest

section

variable {e : Transfer} {a : UInt64}

theorem surplus_concat_entry (he : e.resume? = some a) (t : List Transfer) :
    surplus (t ++ [e]) = surplus t := by
  induction t with
  | nil => simp [surplus, he]
  | cons e' t ih => simp only [List.cons_append, surplus, ih]

theorem unreturned_concat_entry (he : e.resume? = some a) (t : List Transfer) :
    unreturned (t ++ [e]) = unreturned t ++ [a] := by
  induction t with
  | nil => simp [unreturned, surplus, he]
  | cons e' t ih =>
    simp only [List.cons_append, unreturned, surplus_concat_entry he, ih]
    split
    · rw [List.append_assoc]
    · rfl

/-- A return comes back from the latest entry that is left, if there is one. -/
theorem concat_returned (t : List Transfer) :
    surplus (t ++ [.returned]) = surplus t + (if unreturned t = [] then 1 else 0) ∧
      unreturned (t ++ [.returned]) = (unreturned t).dropLast := by
  induction t with
  | nil => exact ⟨rfl, rfl⟩
  | cons e t ih =>
    obtain ⟨hsurplus, hunreturned⟩ := ih
    simp only [List.cons_append, surplus, unreturned, hsurplus, hunreturned]
    -- The return belongs to an entry of the rest, if one is left; otherwise it belongs to the first one,
    -- unless a return of the rest does already.
    rcases Option.eq_none_or_eq_some e.resume? with he | ⟨a, he⟩
    · simp [he, Nat.add_right_comm]
    · by_cases hall : surplus t = 0
      · by_cases hleft : unreturned t = []
        · simp [he, hall, hleft]
        · simp [he, hall, hleft, List.dropLast_cons_of_ne_nil hleft]
      · have hmore : surplus t + (if unreturned t = [] then 1 else 0) - 1 =
            surplus t - 1 + (if unreturned t = [] then 1 else 0) := by omega
        simp [he, hall, hmore]

/-- Each entry is one that the machine has come back from, or one that it has not. -/
theorem length_unreturned (t : List Transfer) : (unreturned t).length + t.count .returned =
    t.countP Transfer.isCall + t.countP Transfer.isInterruption + surplus t := by
  induction t with
  | nil => rfl
  | cons e t ih =>
    have hentry : ∀ a, e.resume? = some a → (unreturned (e :: t)).length + surplus t =
        (unreturned t).length + surplus (e :: t) + 1 := by
      intro a he
      rw [unreturned, surplus, he]
      by_cases hall : surplus t = 0
      · simp [hall, Nat.add_comm]
      · simp only [hall, if_false, Option.isSome_some, if_true]
        omega
    cases e with
    | called ip =>
      have hcount := hentry (ip + 1) rfl
      simp only [List.count_cons, List.countP_cons, Transfer.isCall, Transfer.isInterruption,
        beq_iff_eq, reduceCtorEq, if_false, if_true]
      omega
    | interrupted ip =>
      have hcount := hentry ip rfl
      simp only [List.count_cons, List.countP_cons, Transfer.isCall, Transfer.isInterruption,
        beq_iff_eq, reduceCtorEq, if_false, if_true]
      omega
    | returned =>
      have hunreturned : unreturned (.returned :: t) = unreturned t := ite_self _
      have hsurplus : surplus (.returned :: t) = surplus t + 1 := rfl
      simp only [List.count_cons, List.countP_cons, Transfer.isCall, Transfer.isInterruption,
        beq_iff_eq, reduceCtorEq, if_false, if_true, hunreturned, hsurplus]
      omega

end

namespace Machine

/-- The record tells what has become of the call stack of the first machine, and how many handlers were
entered since. -/
structure Recorded (m₀ : Machine) (t : List Transfer) (m : Machine) : Prop where
  callStack : m.callStack = (unreturned t).reverse ++ m₀.callStack.drop (surplus t)
  surplus : surplus t ≤ m₀.callStack.length
  accepted : m.stats.accepted.toNat =
    min (m₀.stats.accepted.toNat + t.countP Transfer.isInterruption) (UInt64.size - 1)

section

variable {p : Program} {m₀ m m' : Machine} {t t' : List Transfer} {i : Instruction}

theorem accepted_advance (p : Program) (m : Machine) :
    (m.advance p).stats.accepted = m.stats.accepted := by
  have hledger := congrArg Ledger.accepted (ledger_advance p m)
  revert hledger
  cases p.fetch? m.registers.ip with
  | none => exact id
  | some i => exact id

namespace Recorded

theorem refl (m : Machine) : Recorded m [] m where
  callStack := rfl
  surplus := Nat.zero_le _
  accepted := Stats.none_more _

theorem of_same (h : Recorded m₀ t m) (hstack : m'.callStack = m.callStack)
    (haccepted : m'.stats.accepted = m.stats.accepted) : Recorded m₀ t m' :=
  ⟨hstack ▸ h.callStack, h.surplus, haccepted ▸ h.accepted⟩

theorem answer (h : Recorded m₀ t m) (r : Request) :
    Recorded m₀ (t ++ m.interruption p r) (m.answer p r) := by
  rw [interruption]
  cases hadmission : m.admission p r.id with
  | rejected =>
    rw [answer_of_rejected hadmission, if_neg nofun, List.append_nil]
    exact h.of_same rfl rfl
  | unhandled =>
    rw [answer_of_unhandled hadmission, if_neg nofun, List.append_nil]
    exact h.of_same rfl rfl
  | entered =>
    obtain ⟨address, -, hanswer⟩ := answer_of_entered hadmission
    have hresume : (Transfer.interrupted m.registers.ip).resume? = some m.registers.ip := rfl
    rw [hanswer, if_pos rfl]
    refine ⟨?_, ?_, ?_⟩
    · rw [unreturned_concat_entry hresume, surplus_concat_entry hresume, List.reverse_concat]
      exact congrArg _ h.callStack
    · rw [surplus_concat_entry hresume]
      exact h.surplus
    · rw [List.countP_append]
      exact Stats.one_more h.accepted

/-- A return takes the latest entry of the record that is left, or else one from the call stack that was
there before. -/
theorem returned (h : Recorded m₀ t m) (hstack : m.callStack = m'.registers.ip :: m'.callStack)
    (haccepted : m'.stats.accepted = m.stats.accepted) : Recorded m₀ (t ++ [.returned]) m' := by
  obtain ⟨hsurplus, hunreturned⟩ := concat_returned t
  have hmore : m'.stats.accepted.toNat = min (m₀.stats.accepted.toNat +
      (t ++ [Transfer.returned]).countP Transfer.isInterruption) (UInt64.size - 1) := by
    rw [haccepted, List.countP_append]
    exact h.accepted
  have hfull := h.callStack.symm.trans hstack
  rcases List.eq_nil_or_concat (unreturned t) with hnone | ⟨front, a, hlast⟩
  · rw [hnone, List.reverse_nil, List.nil_append] at hfull
    have hlt : RegisterMachine.surplus t < m₀.callStack.length := by
      refine Nat.lt_of_not_le fun hle => ?_
      rw [List.drop_eq_nil_of_le hle] at hfull
      cases hfull
    rw [hnone, if_pos rfl] at hsurplus
    refine ⟨?_, hsurplus ▸ hlt, hmore⟩
    rw [hunreturned, hnone, hsurplus, ← List.tail_drop, hfull]
    rfl
  · rw [hlast, List.concat_eq_append, List.reverse_concat, List.cons_append] at hfull
    rw [hlast, if_neg (by simp), Nat.add_zero] at hsurplus
    refine ⟨?_, hsurplus ▸ h.surplus, hmore⟩
    rw [hunreturned, hlast, List.concat_eq_append, List.dropLast_concat, hsurplus]
    exact (List.cons.inj hfull).2.symm

theorem advance (h : Recorded m₀ t m) (halive : m.alive = true) :
    Recorded m₀ (t ++ m.transfer p) (m.resetConstants.advance p) := by
  have haccepted := accepted_advance p m.resetConstants
  -- A fault is no transfer, and it leaves the call stack as it is.
  rcases faults_or_exec p m.resetConstants with ⟨f, hfaults⟩ | ⟨i, hfetch, hexec⟩
  · rw [transfer_of_halted hfaults.stopped.alive, List.append_nil]
    exact h.of_same hfaults.stopped.callStack haccepted
  · have hnow : p.fetch? m.registers.ip = some i := hfetch
    cases (carried_of_exec hexec).flows with
    | goes hcall hret hstack _ =>
      have hnone : m.transfer p = [] := by
        cases hnext : (m.resetConstants.advance p).alive with
        | false => exact transfer_of_halted hnext
        | true => rw [transfer_of_fetch hnow hnext, Instruction.transfer?_eq_none _ hcall hret]; rfl
      rw [hnone, List.append_nil]
      exact h.of_same hstack haccepted
    | calls hi hstack hnext =>
      have hresume : (Transfer.called m.registers.ip).resume? = some (m.registers.ip + 1) := rfl
      rw [transfer_of_fetch hnow (hnext.trans halive), hi]
      show Recorded m₀ (t ++ [.called m.registers.ip]) _
      refine ⟨?_, (surplus_concat_entry hresume t).trans_le h.surplus, ?_⟩
      · rw [unreturned_concat_entry hresume, surplus_concat_entry hresume, List.reverse_concat, hstack]
        exact congrArg _ h.callStack
      · rw [haccepted, List.countP_append]
        exact h.accepted
    | returns hi hstack hnext =>
      rw [transfer_of_fetch hnow (hnext.trans halive), hi]
      exact h.returned hstack haccepted

theorem step (h : Recorded m₀ t m) (hstep : Step p m t' m') : Recorded m₀ (t ++ t') m' := by
  cases hstep with
  | start | request | notice =>
    rw [List.append_nil]
    exact h.of_same rfl rfl
  | @answer r rest _ _ =>
    have hrest : Recorded m₀ t { m with pending := rest } := h.of_same rfl rfl
    exact hrest.answer r
  | advance halive => exact h.advance halive

theorem of_reaches (h : Reaches p m₀ t m) : Recorded m₀ t m := by
  induction h with
  | refl => exact .refl m₀
  | tail _ hstep ih => exact ih.step hstep

end Recorded

/-- The call stack of a new machine is empty, so that all of it is from the history. -/
theorem recorded_ofImage {i : Image} {stackSize : Nat} (h : Reaches p (ofImage i stackSize) t m) :
    m.callStack.reverse = unreturned t ∧ surplus t = 0 ∧
      m.stats.accepted.toNat = min (t.countP Transfer.isInterruption) (UInt64.size - 1) := by
  have hrecorded := Recorded.of_reaches h
  have hsurplus : surplus t = 0 := Nat.le_zero.mp hrecorded.surplus
  have haccepted := hrecorded.accepted
  rw [show (ofImage i stackSize).stats.accepted.toNat = 0 from rfl, Nat.zero_add] at haccepted
  refine ⟨?_, hsurplus, haccepted⟩
  rw [hrecorded.callStack, hsurplus, List.drop_zero, List.reverse_append, List.reverse_reverse]
  rfl

theorem kills_advance_iff : (m.advance p).kills = .killed .emptyCallStack m.registers.ip :: m.kills ↔
    p.fetch? m.registers.ip = some .ret ∧ m.callStack = [] := by
  constructor
  · intro h
    rcases advance_cases p m with hnone | ⟨i, f, hfetch, hfails⟩ | ⟨i, hfetch, hcarried⟩
    · rw [advance_of_outside hnone, kills_kill] at h
      cases (Event.killed.inj (List.cons.inj h).1).1
    · rw [advance_of_fails hfetch hfails, kills_kill] at h
      obtain rfl := (Event.killed.inj (List.cons.inj h).1).1
      cases hfails with
      | ret hempty => exact ⟨hfetch, hempty⟩
    · rw [hcarried.kills] at h
      exact absurd h List.ne_cons_self
  · rintro ⟨hfetch, hempty⟩
    rw [advance_of_fails hfetch (.ret hempty), kills_kill]
    rfl

end

/-- At every point of every history of a machine, the call stack holds the places to go on at for the
calls and interrupts that the machine has not come back from, the oldest first. A return goes to the last
of them, and stops the program if and only if there is none, which is when there were as many returns as
calls and interrupts. The interrupts are those that the machine counts. -/
theorem callStack_disciplined {p : Program} {i : Image} {stackSize : Nat} {t : List Transfer}
    {m : Machine} (h : Reaches p (ofImage i stackSize) t m) :
    let next := m.resetConstants.advance p
    m.callStack.reverse = unreturned t ∧
      (unreturned t = [] ↔ t.count .returned =
        t.countP Transfer.isCall + t.countP Transfer.isInterruption) ∧
      m.stats.accepted.toNat = min (t.countP Transfer.isInterruption) (UInt64.size - 1) ∧
      (p.fetch? m.registers.ip = some .ret → ∀ front address, unreturned t = front ++ [address] →
        next.registers.ip = address ∧ next.callStack.reverse = front ∧ next.alive = m.alive) ∧
      (next.kills = .killed .emptyCallStack m.registers.ip :: m.kills ↔
        p.fetch? m.registers.ip = some .ret ∧ unreturned t = []) := by
  intro next
  obtain ⟨hcallStack, hsurplus, haccepted⟩ := recorded_ofImage h
  refine ⟨hcallStack, ?_, haccepted, ?_, ?_⟩
  · have hbalance := length_unreturned t
    rw [hsurplus] at hbalance
    rw [← List.length_eq_zero_iff]
    omega
  · intro hfetch front address hunreturned
    have hstack : m.callStack = address :: front.reverse := by
      rw [← List.reverse_inj, List.reverse_cons, List.reverse_reverse, ← hunreturned]
      exact hcallStack
    have hleave : m.leave = .ok ({ m with callStack := front.reverse }.jump address) := by
      rw [leave, hstack]
    have hnext : next = ({ m with callStack := front.reverse }.jump address).resetConstants.count
        .executed := advance_of_ret hfetch hleave
    rw [hnext]
    exact ⟨rfl, List.reverse_reverse front, rfl⟩
  · rw [← hcallStack, List.reverse_eq_nil_iff]
    exact kills_advance_iff (m := m.resetConstants)

/-- A handler is entered when the machine is about to carry out the first instruction of a subroutine. Once
both have returned, one more return stops the program. -/
theorem callStack_disciplined_nested :
    let i : Image :=
      { version := Version.supported, debug := .none, sections := [], interrupts := [⟨3, 6⟩],
        constants := [], entry := 0,
        instructions := [.enableInterrupts, .call 4, .ret, .nop, .nop, .ret, .nop, .ret] }
    let p := Program.ofImage i #[]
    let m := runWith p [[], [], [⟨3, none⟩]] 3 (ofImage i 16).start
    let m' := runWith p [] 3 m
    Reaches p (ofImage i 16) [.called 1, .interrupted 4] m ∧ m.callStack.reverse = [2, 4] ∧
      (m.resetConstants.advance p).registers.ip = 4 ∧
      Reaches p (ofImage i 16) [.called 1, .interrupted 4, .returned, .returned] m' ∧
      (m'.resetConstants.advance p).kills = [.killed .emptyCallStack 2] := by
  intro i p m m'
  have hreaches : ∀ schedule n s t, transfersWith p schedule n s = t →
      Reaches p s t (runWith p schedule n s) := fun schedule n s t h => h ▸ reaches_runWith p schedule n s
  have hrun : Reaches p (ofImage i 16) [.called 1, .interrupted 4] m :=
    (Reaches.single (.start _)).trans (hreaches _ _ _ _ (by decide +kernel))
  have hlater : Reaches p (ofImage i 16) [.called 1, .interrupted 4, .returned, .returned] m' :=
    hrun.trans (hreaches _ _ _ [.returned, .returned] (by decide +kernel))
  obtain ⟨hstack, -, -, hreturn, -⟩ := callStack_disciplined hrun
  obtain ⟨-, -, -, -, hkill⟩ := callStack_disciplined hlater
  have hnext : (m.resetConstants.advance p).registers.ip = 4 :=
    (hreturn (by decide +kernel) [2] 4 (by decide)).1
  have hip : m'.registers.ip = 2 := by decide +kernel
  have hnone : m'.kills = [] := by decide +kernel
  rw [hip, hnone] at hkill
  have hlast : p.fetch? 2 = some .ret := by decide
  exact ⟨hrun, hstack.trans (by decide), hnext, hlater, hkill.mpr ⟨hlast, by decide⟩⟩

end Machine

end RegisterMachine
