import Mathlib
import RegisterMachine.Machine.Stack
import RegisterMachine.Proofs.Bytes

namespace RegisterMachine

namespace Stack

/-- What can be asked of a stack. -/
inductive Call where
  | push (w : Width) (v : UInt64)
  | pop (w : Width)
deriving DecidableEq

inductive Answer where
  | pushed
  | popped (v : UInt64)
  | failed (f : Fault)
deriving DecidableEq

/-- The answer to a call, and the stack after it. -/
def respond (s : Stack) : Call → Answer × Stack
  | .push w v =>
    match s.push w v with
    | .ok t => (.pushed, t)
    | .error f => (.failed f, s)
  | .pop w =>
    match s.pop w with
    | .ok (v, t) => (.popped v, t)
    | .error f => (.failed f, s)

/-- What an answer and the stack after it can be. -/
inductive Responds (s : Stack) : Call → Answer → Stack → Prop
  | pushed {w : Width} {v : UInt64} {s' : Stack} : s.push w v = .ok s' → Responds s (.push w v) .pushed s'
  | popped {w : Width} {v : UInt64} {s' : Stack} : s.pop w = .ok (v, s') →
      Responds s (.pop w) (.popped v) s'
  | failed {c : Call} {f : Fault} : Responds s c (.failed f) s

/-- The stack after some calls. -/
def after (s : Stack) (calls : List Call) : Stack :=
  calls.foldl (fun s c => (s.respond c).2) s

/-- Some calls with their answers. -/
def record (s : Stack) : List Call → List (Call × Answer)
  | [] => []
  | c :: calls => (c, (s.respond c).1) :: (s.respond c).2.record calls

/-- What becomes of some bytes with a call and its answer. -/
def grow (bs : Bytes) : Call × Answer → Bytes
  | (.push w v, .pushed) => bs ++ w.digits v
  | (.pop w, .popped _) => bs.rdrop w.bytes
  | _ => bs

/-- By how many bytes a stack grows with a call that does not fail. -/
def Call.growth : Call → Int
  | push w _ => w.bytes
  | pop w => -w.bytes

/-- By how many bytes a stack grows with some calls that do not fail. -/
def growth (calls : List Call) : Int :=
  (calls.map Call.growth).sum

/-- There is always room for what is pushed. -/
def Fits (s : Stack) (calls : List Call) : Prop :=
  ∀ front, front <+: calls → s.toList.length + growth front ≤ s.capacity

/-- Pushes and pops are nested, a pop has the width of its push, and it answers with the low bytes of what
was pushed. -/
inductive Nests : List (Call × Answer) → Prop
  | nil : Nests []
  | append {t t' : List (Call × Answer)} : Nests t → Nests t' → Nests (t ++ t')
  | enclose {t : List (Call × Answer)} {w : Width} {v u : UInt64} : Nests t →
      u.toNat = v.toNat % 256 ^ w.bytes →
      Nests ((.push w v, .pushed) :: t ++ [(.pop w, .popped u)])

/-- The calls on the stack get these answers and leave it as it was, and what was on it stays there all the
time. -/
structure Restores (s : Stack) (t : List (Call × Answer)) : Prop where
  record : s.record (t.map Prod.fst) = t
  after : s.after (t.map Prod.fst) = s
  below : ∀ front, front <+: t.map Prod.fst → s.toList <+: (s.after front).toList

section

variable {s s' : Stack} {w : Width} {v u : UInt64} {f : Fault} {c : Call} {a : Answer} {calls : List Call}
  {t t' : List (Call × Answer)}

theorem push_eq_error_iff :
    s.push w v = .error f ↔ s.capacity < s.size + w.bytes ∧ f = .stackFull w.bytes s.capacity := by
  unfold push
  split
  next hfits => simp [Nat.not_lt.mpr hfits]
  next hfull => simp [Nat.not_le.mp hfull, eq_comm]

theorem pop_eq_error_iff :
    s.pop w = .error f ↔ s.size < w.bytes ∧ f = .stackShort w.bytes s.size := by
  unfold pop
  split
  next hholds => simp [Nat.not_lt.mpr hholds]
  next hshort => simp [Nat.not_le.mp hshort, eq_comm]

theorem push_eq_ok (hfits : s.size + w.bytes ≤ s.capacity) : ∃ s', s.push w v = .ok s' :=
  ⟨_, dif_pos hfits⟩

theorem capacity_push (h : s.push w v = .ok s') : s'.capacity = s.capacity := by
  unfold push at h
  split at h
  next => cases h; rfl
  next => cases h

theorem capacity_pop (h : s.pop w = .ok (v, s')) : s'.capacity = s.capacity := by
  unfold pop at h
  split at h
  next => cases h; rfl
  next => cases h

/-- What is popped are the bytes on top. -/
theorem value_pop (h : s.pop w = .ok (v, s')) :
    v = UInt64.ofNat (Bytes.toNat (s.toList.drop (s.size - w.bytes))) := by
  unfold pop at h
  split at h
  next =>
    cases h
    rw [toList, ← s.size_eq, List.reverse_take]
  next => cases h

theorem eq_of_toList (hcapacity : s.capacity = s'.capacity) (hbytes : s.toList = s'.toList) : s = s' := by
  have hsize : s.size = s'.size := by rw [← length_toList, ← length_toList, hbytes]
  have htop : s.fromTop = s'.fromTop := List.reverse_injective hbytes
  cases s
  cases s'
  simp_all

theorem toNat_of_pop (h : s.pop w = .ok (v, s')) :
    v.toNat = Bytes.toNat (s.toList.rtake w.bytes) := by
  have hlength : (s.toList.rtake w.bytes).length ≤ w.bytes := by
    rw [List.rtake, List.length_drop]
    omega
  have hbound : Bytes.toNat (s.toList.rtake w.bytes) < Bytes.count w.bytes :=
    (Bytes.toNat_lt _).trans_le (Nat.pow_le_pow_right (by decide) hlength)
  rw [value_pop h, ← length_toList]
  exact UInt64.toNat_ofNat_of_lt' (hbound.trans_le w.count_le)

/-- A pop undoes a push of its width. -/
theorem pop_of_push (h : s.push w v = .ok s') (hu : u.toNat = v.toNat % 256 ^ w.bytes) :
    s'.pop w = .ok (u, s) := by
  have hbytes : s'.toList = s.toList ++ w.digits v := by rw [toList_push h, Width.ofNat_eq_digits]
  have hsize : s'.size = s.toList.length + w.bytes := by
    rw [← length_toList, hbytes, List.length_append, Width.length_digits]
  obtain ⟨⟨u', s''⟩, hpop⟩ : ∃ r, s'.pop w = .ok r := ⟨_, if_pos (by omega)⟩
  have hvalue : u' = u := by
    rw [value_pop hpop, hsize, Nat.add_sub_cancel, hbytes, List.drop_left, Width.toNat_digits, ← hu,
      UInt64.ofNat_toNat]
  have hrest : s'' = s := by
    refine eq_of_toList ((capacity_pop hpop).trans (capacity_push h)) ?_
    rw [toList_pop hpop, hsize, Nat.add_sub_cancel, hbytes, List.take_left]
  rw [hpop, hvalue, hrest]

theorem responds (s : Stack) (c : Call) : Responds s c (s.respond c).1 (s.respond c).2 := by
  cases c with
  | push w v =>
    rw [respond]
    cases hpush : s.push w v with
    | ok s' => exact .pushed hpush
    | error f => exact .failed
  | pop w =>
    rw [respond]
    cases hpop : s.pop w with
    | ok r => exact .popped hpop
    | error f => exact .failed

namespace Responds

theorem toList_eq (h : Responds s c a s') : s'.toList = grow s.toList (c, a) := by
  cases h with
  | pushed hpush => rw [toList_push hpush, Width.ofNat_eq_digits, grow]
  | popped hpop => rw [toList_pop hpop, grow, List.rdrop, length_toList]
  | failed => cases c <;> rfl

theorem capacity_eq (h : Responds s c a s') : s'.capacity = s.capacity := by
  cases h with
  | pushed hpush => exact capacity_push hpush
  | popped hpop => exact capacity_pop hpop
  | failed => rfl

theorem eq_of_failed (h : Responds s c (.failed f) s') : s' = s := by
  cases h with
  | failed => rfl

end Responds

theorem after_cons (s : Stack) (c : Call) (calls : List Call) :
    s.after (c :: calls) = (s.respond c).2.after calls := rfl

theorem after_append (s : Stack) (calls calls' : List Call) :
    s.after (calls ++ calls') = (s.after calls).after calls' :=
  List.foldl_append

theorem record_append (s : Stack) (calls calls' : List Call) :
    s.record (calls ++ calls') = s.record calls ++ (s.after calls).record calls' := by
  induction calls generalizing s with
  | nil => rfl
  | cons c calls ih => exact congrArg _ (ih (s.respond c).2)

theorem capacity_after (s : Stack) (calls : List Call) : (s.after calls).capacity = s.capacity := by
  induction calls generalizing s with
  | nil => rfl
  | cons c calls ih => exact (ih (s.respond c).2).trans (s.responds c).capacity_eq

/-- What is on a stack is told by the calls that did not fail. -/
theorem toList_after (s : Stack) (calls : List Call) :
    (s.after calls).toList = (s.record calls).foldl grow s.toList := by
  induction calls generalizing s with
  | nil => rfl
  | cons c calls ih =>
    rw [record, List.foldl_cons, ← (s.responds c).toList_eq]
    exact ih (s.respond c).2

theorem Fits.of_append {calls' : List Call} (h : s.Fits (calls ++ calls')) : s.Fits calls :=
  fun front hfront => h front (hfront.trans (List.prefix_append calls calls'))

theorem Fits.push (h : s.Fits (.push w v :: calls)) : ∃ s', s.push w v = .ok s' ∧ s'.Fits calls := by
  have hfits : s.size + w.bytes ≤ s.capacity := by
    have hfirst := h [.push w v] (List.prefix_append [.push w v] calls)
    rw [length_toList] at hfirst
    simp only [growth, List.map_singleton, List.sum_singleton, Call.growth] at hfirst
    omega
  obtain ⟨s', hpush⟩ := push_eq_ok (v := v) hfits
  refine ⟨s', hpush, fun front hfront => ?_⟩
  have hnext := h (.push w v :: front) (List.prefix_cons_inj _ |>.mpr hfront)
  have hlength : s'.toList.length = s.toList.length + w.bytes := by
    rw [toList_push hpush, List.length_append, Bytes.length_ofNat]
  rw [capacity_push hpush, hlength]
  simp only [growth, List.map_cons, List.sum_cons, Call.growth] at hnext ⊢
  push_cast
  omega

theorem Nests.growth (h : Nests t) : growth (t.map Prod.fst) = 0 := by
  induction h with
  | nil => rfl
  | append _ _ ih ih' =>
    rw [Stack.growth, List.map_append, List.map_append, List.sum_append]
    exact (congrArg₂ _ ih ih').trans (add_zero 0)
  | @enclose t w v u _ _ ih =>
    have hsum : Stack.growth ((((Call.push w v, Answer.pushed) :: t ++
        [(Call.pop w, Answer.popped u)]).map Prod.fst)) = w.bytes + (Stack.growth (t.map Prod.fst) + -w.bytes) := by
      simp [Stack.growth, Call.growth]
    rw [hsum, ih]
    omega

namespace Restores

theorem nil (s : Stack) : s.Restores [] :=
  ⟨rfl, rfl, fun _ hfront => List.prefix_nil.mp hfront ▸ List.prefix_refl _⟩

theorem append (h : s.Restores t) (h' : s.Restores t') : s.Restores (t ++ t') := by
  refine ⟨?_, ?_, fun front hfront => ?_⟩
  · rw [List.map_append, record_append, h.record, h.after, h'.record]
  · rw [List.map_append, after_append, h.after, h'.after]
  · rw [List.map_append] at hfront
    rcases List.prefix_or_prefix_of_prefix hfront (List.prefix_append _ _) with hearly | ⟨rest, rfl⟩
    · exact h.below front hearly
    · rw [after_append, h.after]
      exact h'.below rest (List.prefix_append_right_inj _ |>.mp hfront)

theorem enclose (hpush : s.push w v = .ok s') (h : s'.Restores t)
    (hu : u.toNat = v.toNat % 256 ^ w.bytes) :
    s.Restores ((.push w v, .pushed) :: t ++ [(.pop w, .popped u)]) := by
  have hfirst : s.respond (.push w v) = (.pushed, s') := by rw [respond, hpush]
  have hlast : s'.respond (.pop w) = (.popped u, s) := by rw [respond, pop_of_push hpush hu]
  have hgrown : s.toList <+: s'.toList := toList_push hpush ▸ List.prefix_append _ _
  have hcalls : (((Call.push w v, Answer.pushed) :: t ++ [(Call.pop w, Answer.popped u)]).map Prod.fst) =
      .push w v :: (t.map Prod.fst ++ [.pop w]) := by
    rw [List.map_append]
    rfl
  have hback : s.after (.push w v :: (t.map Prod.fst ++ [.pop w])) = s := by
    rw [after_cons, hfirst, after_append, h.after, after_cons, hlast]
    rfl
  refine ⟨?_, hcalls ▸ hback, fun front hfront => ?_⟩
  · rw [hcalls, Stack.record, hfirst, record_append, h.record, h.after, Stack.record, hlast]
    rfl
  · rw [hcalls, List.prefix_cons_iff] at hfront
    obtain rfl | ⟨front, rfl, hfront⟩ := hfront
    · exact List.prefix_refl _
    · rcases List.prefix_concat_iff.mp hfront with rfl | hfront
      · rw [hback]
      · rw [after_cons, hfirst]
        exact hgrown.trans (h.below front hfront)

end Restores

/-- Nested calls for which there is room get their answers and leave the stack as it was. -/
theorem Nests.restores (h : Nests t) (hfits : s.Fits (t.map Prod.fst)) : s.Restores t := by
  induction h generalizing s with
  | nil => exact .nil s
  | @append t t' hfront _ ih ih' =>
    rw [List.map_append] at hfits
    refine (ih hfits.of_append).append (ih' fun front hprefix => ?_)
    have hlater := hfits (t.map Prod.fst ++ front) (List.prefix_append_right_inj _ |>.mpr hprefix)
    rwa [Stack.growth, List.map_append, List.sum_append, ← Stack.growth, hfront.growth, zero_add] at hlater
  | @enclose t w v u _ hu ih =>
    have hcalls : s.Fits (.push w v :: (t.map Prod.fst ++ [.pop w])) := by simpa using hfits
    obtain ⟨s', hpush, hinside⟩ := hcalls.push
    exact .enclose hpush (ih hinside.of_append) hu

end

/-- What is on a new stack after any calls is what the pushes that did not fail have appended, without what
the pops that did not fail have taken from the end. A push fails exactly if there is no room for its bytes,
a pop if there are too few, and then the stack stays as it is; otherwise a pop gives the number that the
bytes it takes stand for. So nested calls for which there is room give back what they have put there, and do
not touch what is below. -/
theorem stack_bytewise (capacity : Nat) (calls : List Call) :
    let s := (empty capacity).after calls
    s.toList = ((empty capacity).record calls).foldl grow [] ∧
      (∀ w v f, s.push w v = .error f ↔
        capacity < s.toList.length + w.bytes ∧ f = .stackFull w.bytes capacity) ∧
      (∀ w f, s.pop w = .error f ↔
        s.toList.length < w.bytes ∧ f = .stackShort w.bytes s.toList.length) ∧
      (∀ c f, (s.respond c).1 = .failed f → (s.respond c).2 = s) ∧
      (∀ w v s', s.pop w = .ok (v, s') → v.toNat = Bytes.toNat (s.toList.rtake w.bytes)) ∧
      ∀ t, Nests t → s.Fits (t.map Prod.fst) → s.Restores t := by
  intro s
  have hcapacity : s.capacity = capacity := capacity_after _ calls
  refine ⟨toList_after _ calls, fun w v f => ?_, fun w f => ?_, fun c f hfailed => ?_,
    fun w v s' => toNat_of_pop, fun t ht => ht.restores⟩
  · rw [push_eq_error_iff, hcapacity, length_toList]
  · rw [pop_eq_error_iff, length_toList]
  · have hresponds := s.responds c
    rw [hfailed] at hresponds
    exact hresponds.eq_of_failed

/-- Pops that take parts of what several pushes have put there, among calls that fail. -/
theorem stack_bytewise_nested :
    let s := (empty 12).after [.push .word 0x12345, .pop .double, .push .quad 7, .push .double 9,
      .pop .half, .pop .double]
    let t : List (Call × Answer) := [(.push .double 0x1CAFEBABE, .pushed), (.push .half 0x17F, .pushed),
      (.pop .half, .popped 0x7F), (.pop .double, .popped 0xCAFEBABE), (.push .word 5, .pushed),
      (.pop .word, .popped 5)]
    s.toList = [0x23, 0x45, 0, 0, 0] ∧ Nests t ∧ s.Fits (t.map Prod.fst) ∧ s.Restores t := by
  intro s t
  have hnests : Nests t :=
    .append (.enclose (.enclose .nil (v := 0x17F) rfl) (w := .double) (v := 0x1CAFEBABE) rfl)
      (.enclose .nil (w := .word) (v := 5) rfl)
  have hfits : s.Fits (t.map Prod.fst) := by
    have hall : ∀ front ∈ (t.map Prod.fst).inits, s.toList.length + growth front ≤ s.capacity := by
      decide +kernel
    exact fun front hfront => hall front (List.mem_inits _ _ |>.mpr hfront)
  obtain ⟨hbytes, -, -, -, -, hrestores⟩ := stack_bytewise 12 [.push .word 0x12345, .pop .double,
    .push .quad 7, .push .double 9, .pop .half, .pop .double]
  exact ⟨hbytes.trans (by decide +kernel), hnests, hfits, hrestores t hnests hfits⟩

end Stack

end RegisterMachine
