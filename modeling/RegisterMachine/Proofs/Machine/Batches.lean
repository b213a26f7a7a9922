import Mathlib
import RegisterMachine.Proofs.Machine.CallStack

namespace RegisterMachine

/-- What the last of some instructions that says so says of letting interrupts in. -/
def lastSwitch (is : List Instruction) : Option Bool :=
  (is.filterMap Instruction.switch?).getLast?

theorem lastSwitch_append (is js : List Instruction) :
    lastSwitch (is ++ js) = (lastSwitch js).or (lastSwitch is) := by
  rw [lastSwitch, List.filterMap_append, List.getLast?_append]
  rfl

theorem lastSwitch_toList (i : Option Instruction) : lastSwitch i.toList = i.bind Instruction.switch? := by
  cases i with
  | none => rfl
  | some i =>
    rw [Option.toList_some, lastSwitch, Option.bind_some, List.filterMap_cons]
    cases i.switch? <;> rfl

namespace Machine

/-- The addresses of the handlers that are entered for some requests. -/
def entries (p : Program) (m : Machine) (requests : List Request) : List UInt64 :=
  if m.interruptsEnabled then requests.filterMap fun r => p.handler? r.id else []

/-- What the outside world learns of a request, the latest first. -/
def replies (p : Program) (m : Machine) (r : Request) : List Event :=
  .answered r m.interruptsEnabled ::
    if m.interruptsEnabled && (p.handler? r.id).isNone then
      [.logged ⟨.error, some "vm", Event.noHandler ++ toString r.id.toNat⟩]
    else []

/-- The second machine is the first one after it has answered some requests. -/
structure Answered (p : Program) (requests : List Request) (m m' : Machine) : Prop where
  resumes : m'.registers.ip :: m'.callStack =
    (m.entries p requests).reverse ++ m.registers.ip :: m.callStack
  accepted : m'.stats.accepted.toNat =
    min (m.stats.accepted.toNat + (m.entries p requests).length) (UInt64.size - 1)
  rejected : m'.stats.rejected.toNat =
    min (m.stats.rejected.toNat + if m.interruptsEnabled then 0 else requests.length) (UInt64.size - 1)
  events : m'.events = requests.reverse.flatMap (m.replies p) ++ m.events
  rest : Diverted m m'

/-- Something that happens to a machine between its instructions. -/
inductive Between (p : Program) (m : Machine) : Machine → Prop
  | start : Between p m m.start
  | request (r : Request) : Between p m (m.request r)
  | answer {r : Request} {rest : List Request} : m.alive = true → m.pending = r :: rest →
      Between p m ({ m with pending := rest }.answer p r)
  | notice : Between p m { m with events := [] }

/-- The second machine is what became of the first one in a history in which it has come to these
instructions. -/
inductive Executes (p : Program) (m : Machine) : List Instruction → Machine → Prop
  | refl : Executes p m [] m
  | between {is : List Instruction} {m₁ m₂ : Machine} : Executes p m is m₁ → Between p m₁ m₂ →
      Executes p m is m₂
  | advance {is : List Instruction} {m₁ : Machine} : Executes p m is m₁ → m₁.alive = true →
      Executes p m (is ++ (p.fetch? m₁.registers.ip).toList) (m₁.resetConstants.advance p)

section

variable {p : Program} {m₀ m m₁ m' : Machine} {requests requests' : List Request} {is : List Instruction}
  {t t' : List Transfer}

theorem entries_of_disabled (h : m.interruptsEnabled = false) : m.entries p requests = [] :=
  if_neg (by rw [h]; exact Bool.false_ne_true)

theorem entries_of_enabled (h : m.interruptsEnabled = true) :
    m.entries p requests = requests.filterMap fun r => p.handler? r.id :=
  if_pos h

theorem entries_append (p : Program) (m : Machine) (requests requests' : List Request) :
    m.entries p (requests ++ requests') = m.entries p requests ++ m.entries p requests' := by
  rw [entries, entries, entries]
  split
  next => exact List.filterMap_append
  next => rfl

theorem answers_replies (p : Program) (m : Machine) (requests : List Request) :
    (requests.flatMap (m.replies p)).filter Event.isAnswer =
      requests.map fun r => .answered r m.interruptsEnabled := by
  have hsingle : ∀ r, (m.replies p r).filter Event.isAnswer = [.answered r m.interruptsEnabled] := fun r => by
    rw [replies]
    split <;> rfl
  rw [List.filter_flatMap, List.map_eq_flatMap]
  simp only [hsingle]

namespace Answered

theorem interruptsEnabled (h : Answered p requests m m') : m'.interruptsEnabled = m.interruptsEnabled :=
  (congrArg Machine.interruptsEnabled h.rest :)

theorem nil (p : Program) (m : Machine) : Answered p [] m m := by
  have hentries : m.entries p [] = [] := ite_self []
  refine ⟨?_, ?_, ?_, rfl, rfl⟩
  · rw [hentries]
    rfl
  · rw [hentries]
    exact Stats.none_more _
  · rw [List.length_nil, ite_self]
    exact Stats.none_more _

theorem single (p : Program) (m : Machine) (r : Request) : Answered p [r] m (m.answer p r) := by
  cases henabled : m.interruptsEnabled with
  | false =>
    have hentries : m.entries p [r] = [] := entries_of_disabled henabled
    have hreplies : m.replies p r = [.answered r false] := by
      rw [replies, henabled]
      rfl
    rw [answer, if_neg (by rw [henabled]; exact Bool.false_ne_true)]
    refine ⟨?_, ?_, ?_, ?_, rfl⟩
    · rw [hentries]
      rfl
    · rw [hentries]
      exact Stats.none_more _
    · rw [henabled]
      exact Stats.one_more (Stats.none_more _)
    · rw [List.reverse_singleton, List.flatMap_singleton, hreplies]
      rfl
  | true =>
    have hrejected : m.stats.rejected.toNat = min (m.stats.rejected.toNat +
        if m.interruptsEnabled then 0 else [r].length) (UInt64.size - 1) := by
      rw [henabled]
      exact Stats.none_more _
    rw [answer, if_pos henabled]
    cases hhandler : p.handler? r.id with
    | none =>
      have hentries : m.entries p [r] = [] := by
        rw [entries_of_enabled henabled, List.filterMap_cons, hhandler, List.filterMap_nil]
      have hreplies : m.replies p r =
          [.answered r true, .logged ⟨.error, some "vm", Event.noHandler ++ toString r.id.toNat⟩] := by
        rw [replies, henabled, hhandler]
        rfl
      refine ⟨?_, ?_, hrejected, ?_, rfl⟩
      · rw [hentries]
        rfl
      · rw [hentries]
        exact Stats.none_more _
      · rw [List.reverse_singleton, List.flatMap_singleton, hreplies]
        rfl
    | some address =>
      have hentries : m.entries p [r] = [address] := by
        rw [entries_of_enabled henabled, List.filterMap_cons, hhandler, List.filterMap_nil]
      have hreplies : m.replies p r = [.answered r true] := by
        rw [replies, henabled, hhandler]
        rfl
      refine ⟨?_, ?_, hrejected, ?_, rfl⟩
      · rw [hentries]
        rfl
      · rw [hentries]
        exact Stats.one_more (Stats.none_more _)
      · rw [List.reverse_singleton, List.flatMap_singleton, hreplies]
        rfl

theorem append (h : Answered p requests m m₁) (h' : Answered p requests' m₁ m') :
    Answered p (requests ++ requests') m m' := by
  have henabled := h.interruptsEnabled
  have hentries : m₁.entries p requests' = m.entries p requests' := by rw [entries, entries, henabled]
  have hreplies : m₁.replies p = m.replies p := by
    funext r
    rw [replies, replies, henabled]
  obtain ⟨hresumes, haccepted, hrejected, hevents, hrest⟩ := h'
  rw [hentries, h.resumes] at hresumes
  rw [hentries, h.accepted] at haccepted
  rw [henabled, h.rejected] at hrejected
  rw [hreplies, h.events] at hevents
  refine ⟨?_, ?_, ?_, ?_, ?_⟩
  · rw [hresumes, entries_append, List.reverse_append, List.append_assoc]
  · rw [haccepted, entries_append, List.length_append]
    omega
  · rw [hrejected, List.length_append]
    split <;> omega
  · rw [hevents, List.reverse_append, List.flatMap_append, List.append_assoc]
  · exact h.rest.trans hrest

/-- All requests that wait are answered, the oldest first. -/
theorem answerAll (p : Program) (m : Machine) :
    Answered p m.pending { m with pending := [] } (m.answerAll p) := by
  have hfold : ∀ (requests : List Request) (m : Machine),
      Answered p requests m (requests.foldl (answer p) m) := fun requests m => by
    induction requests using List.reverseRecOn with
    | nil => exact .nil p m
    | append_singleton requests r ih =>
      rw [List.foldl_append]
      exact ih.append (.single p _ r)
  exact hfold m.pending { m with pending := [] }

/-- While requests are let in, none is counted as rejected. -/
theorem of_enabled (h : Answered p requests m m') (henabled : m.interruptsEnabled = true) :
    m' =
      { m with
        registers := { m.registers with ip := m'.registers.ip }
        callStack := m'.callStack
        stats := { m.stats with accepted := m'.stats.accepted }
        events := requests.reverse.flatMap (m.replies p) ++ m.events } := by
  have hrejected := h.rejected
  rw [henabled] at hrejected
  have hsame : m'.stats.rejected = m.stats.rejected :=
    UInt64.toNat_inj.mp (hrejected.trans (Stats.none_more _).symm)
  conv_lhs => rw [h.rest, hsame, h.events]

/-- While requests are kept out, no handler is entered. -/
theorem of_disabled (h : Answered p requests m m') (hdisabled : m.interruptsEnabled = false) :
    m'.stats.rejected.toNat = min (m.stats.rejected.toNat + requests.length) (UInt64.size - 1) ∧
    m' =
      { m with
        stats := { m.stats with rejected := m'.stats.rejected }
        events := (requests.map fun r => .answered r false).reverse ++ m.events } := by
  have hentries : m.entries p requests = [] := entries_of_disabled hdisabled
  obtain ⟨hresumes, haccepted, hrejected, hevents, hrest⟩ := h
  rw [hentries] at hresumes haccepted
  rw [hdisabled] at hrejected
  obtain ⟨hip, hstack⟩ := List.cons.inj hresumes
  have hsame : m'.stats.accepted = m.stats.accepted :=
    UInt64.toNat_inj.mp (haccepted.trans (Stats.none_more _).symm)
  have hreplies : requests.reverse.flatMap (m.replies p) =
      (requests.map fun r => .answered r false).reverse := by
    have hsingle : m.replies p = fun r => [.answered r false] := funext fun r => by
      rw [replies, hdisabled]
      rfl
    rw [hsingle, ← List.map_reverse, List.map_eq_flatMap]
  refine ⟨hrejected, ?_⟩
  conv_lhs => rw [hrest, hip, hstack, hsame, hevents, hreplies]

end Answered

/-- The handlers of a batch return to each other, and the last one to the place where the machine was. -/
theorem returns_to_batch (h : Answered p requests m m') {t : List Transfer}
    (hreaches : Reaches p m' t m₁) (hreturned : unreturned t = [])
    (hleft : surplus t < (m.entries p requests).length) (hfetch : p.fetch? m₁.registers.ip = some .ret) :
    (m₁.resetConstants.advance p).alive = m₁.alive ∧
      (m₁.resetConstants.advance p).registers.ip :: (m₁.resetConstants.advance p).callStack =
        ((m.entries p requests).reverse ++ m.registers.ip :: m.callStack).drop (surplus t + 1) := by
  have hstack : m₁.callStack =
      ((m.entries p requests).reverse ++ m.registers.ip :: m.callStack).drop (surplus t + 1) := by
    rw [← h.resumes, List.drop_succ_cons, (Recorded.of_reaches hreaches).callStack, hreturned]
    rfl
  rcases leave_cases (m := m₁) with ⟨address, rest, hcalls, hleave⟩ | ⟨hnone, -⟩
  · rw [advance_of_ret hfetch hleave, ← hstack, hcalls]
    exact ⟨rfl, rfl⟩
  · rw [hnone] at hstack
    have hlength := congrArg List.length hstack
    rw [List.length_drop, List.length_append, List.length_reverse, List.length_cons] at hlength
    rw [List.length_nil] at hlength
    omega

theorem Reaches.executes (h : Reaches p m t m') : ∃ is, Executes p m is m' := by
  induction h with
  | refl => exact ⟨[], .refl⟩
  | tail _ hstep ih =>
    obtain ⟨is, his⟩ := ih
    cases hstep with
    | start => exact ⟨is, his.between .start⟩
    | request r => exact ⟨is, his.between (.request r)⟩
    | answer halive hpending => exact ⟨is, his.between (.answer halive hpending)⟩
    | notice => exact ⟨is, his.between .notice⟩
    | advance halive => exact ⟨_, his.advance halive⟩

theorem interruptsEnabled_advance (p : Program) (m : Machine) : (m.advance p).interruptsEnabled =
    ((p.fetch? m.registers.ip).bind Instruction.switch?).getD m.interruptsEnabled := by
  rcases exec_cases p m with hnone | ⟨i, f, hfetch, hfails⟩ | ⟨i, hfetch, hexec⟩
  · rw [(Faults.outside hnone).stopped.interruptsEnabled, hnone]
    rfl
  · rw [(Faults.fails hfetch hfails).stopped.interruptsEnabled, hfetch]
    cases hfails <;> rfl
  · rw [(framed_of_exec hexec).interruptsEnabled, hfetch]
    rfl

/-- Interrupts are let in or kept out as the last instruction that says so has said. -/
theorem Executes.interruptsEnabled (h : Executes p m₀ is m) :
    m.interruptsEnabled = (lastSwitch is).getD m₀.interruptsEnabled := by
  induction h with
  | refl => rfl
  | between _ hbetween ih =>
    cases hbetween with
    | start | request | notice => exact ih
    | answer => exact (congrArg Machine.interruptsEnabled (diverted_answer p _ _) :).trans ih
  | @advance is m₁ _ _ ih =>
    have hready : m₁.resetConstants.interruptsEnabled = (lastSwitch is).getD m₀.interruptsEnabled := ih
    rw [interruptsEnabled_advance, hready, lastSwitch_append, lastSwitch_toList, Option.getD_or]
    rfl

theorem Step.enabled_of_interrupted (h : Step p m t m') {ip : UInt64} (hmem : .interrupted ip ∈ t) :
    m.interruptsEnabled = true := by
  cases h with
  | start | request | notice => cases hmem
  | answer =>
    rw [interruption] at hmem
    split at hmem
    next hentered =>
      unfold admission at hentered
      split at hentered
      next henabled => exact henabled
      next => cases hentered
    next => cases hmem
  | advance =>
    rw [transfer] at hmem
    split at hmem
    next =>
      obtain ⟨i, -, htransfer⟩ := Option.bind_eq_some_iff.mp (Option.mem_toList.mp hmem)
      cases i <;> cases htransfer
    next => cases hmem

end

/-- All requests that wait are answered once. If interrupts are let in, the handlers of those that have one
are entered one from the other, so that the last one runs first, each of them returns to the one before it,
and the first one to the place where the machine was; of the other requests the machine only tells. If
interrupts are kept out, nothing happens but that the answers are given and counted. Whether they are let
in is what the last `eirq` or `dirq` says that the machine has come to. -/
theorem batch_answered :
    (∀ (p : Program) (m : Machine),
      let m' := m.answerAll p
      let hs := m.pending.filterMap fun r => p.handler? r.id
      m'.pending = [] ∧
      m'.events.filter Event.isAnswer =
        (m.pending.map fun r => .answered r m.interruptsEnabled).reverse ++ m.events.filter Event.isAnswer ∧
      (m.interruptsEnabled = true →
        m'.registers.ip :: m'.callStack = hs.reverse ++ m.registers.ip :: m.callStack ∧
        (∀ front last, hs = front ++ [last] → m'.registers.ip = last ∧
          m'.callStack = (m.registers.ip :: front).reverse ++ m.callStack) ∧
        m'.stats.accepted.toNat = min (m.stats.accepted.toNat + hs.length) (UInt64.size - 1) ∧
        m' = { m with
          pending := []
          registers := { m.registers with ip := m'.registers.ip }
          callStack := m'.callStack
          stats := { m.stats with accepted := m'.stats.accepted }
          events := m.pending.reverse.flatMap (m.replies p) ++ m.events } ∧
        ∀ t m₁, Reaches p m' t m₁ → unreturned t = [] → surplus t < hs.length →
          p.fetch? m₁.registers.ip = some .ret →
          let next := m₁.resetConstants.advance p
          next.alive = m₁.alive ∧
            next.registers.ip :: next.callStack =
              (hs.reverse ++ m.registers.ip :: m.callStack).drop (surplus t + 1) ∧
            (surplus t + 1 = hs.length →
              next.registers.ip = m.registers.ip ∧ next.callStack = m.callStack)) ∧
      (m.interruptsEnabled = false →
        m'.stats.rejected.toNat = min (m.stats.rejected.toNat + m.pending.length) (UInt64.size - 1) ∧
        m' = { m with
          pending := []
          stats := { m.stats with rejected := m'.stats.rejected }
          events := (m.pending.map fun r => .answered r false).reverse ++ m.events })) ∧
    ∀ (i : Image) (syscalls : Array Syscall) (environment : Environment) (stackSize : Nat),
      let p := Program.ofImage i syscalls environment
      (∀ t m, Reaches p (ofImage i stackSize) t m → ∃ is, Executes p (ofImage i stackSize) is m) ∧
      ∀ is m, Executes p (ofImage i stackSize) is m →
        (m.interruptsEnabled = true ↔ lastSwitch is = some true) ∧
        ∀ t m' ip, Step p m t m' → .interrupted ip ∈ t → lastSwitch is = some true := by
  refine ⟨fun p m => ?_, fun i syscalls environment stackSize => ?_⟩
  · intro m' hs
    have hanswered := Answered.answerAll p m
    refine ⟨congrArg pending hanswered.rest, ?_, fun henabled => ?_, hanswered.of_disabled⟩
    · rw [hanswered.events, List.filter_append, answers_replies, List.map_reverse]
    · have hentries : { m with pending := [] }.entries p m.pending = hs := entries_of_enabled henabled
      have hresumes := hanswered.resumes
      have haccepted := hanswered.accepted
      rw [hentries] at hresumes haccepted
      refine ⟨hresumes, fun front last hlast => ?_, haccepted, hanswered.of_enabled henabled,
        fun t m₁ hreaches hreturned hleft hfetch => ?_⟩
      · rw [hlast, List.reverse_concat] at hresumes
        obtain ⟨hip, hstack⟩ := List.cons.inj hresumes
        refine ⟨hip, hstack.trans ?_⟩
        rw [List.reverse_cons, List.append_assoc]
        rfl
      · intro next
        obtain ⟨halive, hnext⟩ := returns_to_batch hanswered hreaches hreturned (hentries ▸ hleft) hfetch
        rw [hentries] at hnext
        refine ⟨halive, hnext, fun hall => ?_⟩
        rw [hall, ← List.length_reverse, List.drop_left] at hnext
        exact List.cons.inj hnext
  · intro p
    refine ⟨fun t m h => h.executes, fun is m h => ?_⟩
    have hswitch : m.interruptsEnabled = true ↔ lastSwitch is = some true := by
      rw [h.interruptsEnabled]
      cases lastSwitch is with
      | none => exact iff_of_false Bool.false_ne_true nofun
      | some enabled => exact Option.some_inj.symm
    exact ⟨hswitch, fun t m' ip hstep hmem => hswitch.mp (hstep.enabled_of_interrupted hmem)⟩

/-- Of four requests one has no handler, and two have the same one. -/
theorem batch_answered_mixed :
    let i : Image :=
      { version := Version.supported, debug := .none, sections := [], interrupts := [⟨1, 3⟩, ⟨2, 4⟩],
        constants := [], entry := 0, instructions := [.enableInterrupts, .nop, .exit, .ret, .nop, .ret] }
    let p := Program.ofImage i #[]
    let requests : List Request := [⟨1, none⟩, ⟨7, some 0⟩, ⟨2, none⟩, ⟨1, none⟩]
    let m := requests.foldl request (runWith p [] 1 (ofImage i 16).start)
    let m' := m.answerAll p
    let m₁ := runWith p [] 3 m'
    m.interruptsEnabled = true ∧ m.registers.ip = 1 ∧ m'.registers.ip = 3 ∧ m'.callStack = [4, 3, 1] ∧
      m'.stats.accepted.toNat = 3 ∧ m'.events.filter Event.isAnswer =
        [.answered ⟨1, none⟩ true, .answered ⟨2, none⟩ true, .answered ⟨7, some 0⟩ true,
          .answered ⟨1, none⟩ true] ∧
      Reaches p m' [.returned, .returned] m₁ ∧ (m₁.resetConstants.advance p).registers.ip = 1 ∧
      (m₁.resetConstants.advance p).callStack = [] ∧
      ∃ is, Executes p (ofImage i 16) is m ∧ lastSwitch is = some true := by
  intro i p requests m m' m₁
  have henabled : m.interruptsEnabled = true := by decide +kernel
  have hip : m.registers.ip = 1 := by decide +kernel
  have hstack : m.callStack = [] := by decide +kernel
  have hpending : m.pending = requests := by decide +kernel
  have hsilent : m.events.filter Event.isAnswer = [] := List.isEmpty_iff.mp (by decide +kernel)
  have hreaches : Reaches p m' [.returned, .returned] m₁ := by
    have htransfers : transfersWith p [] 3 m' = [.returned, .returned] := by decide +kernel
    rw [← htransfers]
    exact reaches_runWith p [] 3 m'
  have hhistory : Reaches p (ofImage i 16) _ m :=
    ((Reaches.single (.start _)).trans (reaches_runWith p [] 1 _)).trans (reaches_requests requests _)
  obtain ⟨hbatch, hswitches⟩ := batch_answered
  obtain ⟨-, hanswers, hletIn, -⟩ := hbatch p m
  obtain ⟨-, hlast, haccepted, -, hreturns⟩ := hletIn henabled
  obtain ⟨hfirst, hcalls⟩ := hlast [3, 4] 3 (by decide +kernel)
  rw [hip, hstack] at hcalls
  rw [hpending, henabled, hsilent] at hanswers
  obtain ⟨-, -, hback⟩ := hreturns _ m₁ hreaches rfl (by decide +kernel) (by decide +kernel)
  obtain ⟨hnext, hnone⟩ := hback (by decide +kernel)
  obtain ⟨is, his⟩ := (hswitches i #[] _ 16).1 _ m hhistory
  refine ⟨henabled, hip, hfirst, hcalls, haccepted.trans (by decide +kernel), hanswers, hreaches,
    hnext.trans hip, hnone.trans hstack, is, his, ((hswitches i #[] _ 16).2 is m his).1.mp henabled⟩

end Machine

end RegisterMachine
