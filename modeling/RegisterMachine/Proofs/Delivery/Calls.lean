import Mathlib
import RegisterMachine.Proofs.Delivery.Session

namespace RegisterMachine

/-- A call that has returned this, with what became of its requests that were served and the number of
the others. -/
inductive Outcome (e : Errand) : Bool → List Admission → Nat → Prop
  | admitted {n : Nat} {a : Admission} : n ≤ e.retries → a.isAdmitted = true →
      Outcome e true (List.replicate n .rejected ++ [a]) 0
  | refused {n unserved : Nat} : n + unserved ≤ e.retries + 1 →
      Outcome e false (List.replicate n .rejected) unserved

theorem Outcome.count_le {e : Errand} {verdict : Bool} {fates : List Admission} {unserved : Nat}
    (h : Outcome e verdict fates unserved) : fates.length + unserved ≤ e.retries + 1 := by
  cases h with
  | admitted hle _ =>
    rw [List.length_append, List.length_replicate]
    exact Nat.succ_le_succ hle
  | refused hle =>
    rw [List.length_replicate]
    exact hle

theorem countP_replicate_rejected (n : Nat) :
    (List.replicate n Admission.rejected).countP Admission.isAdmitted = 0 := by
  rw [List.countP_replicate]
  exact if_neg Bool.false_ne_true

theorem countP_rejected_concat (n : Nat) (a : Admission) :
    (List.replicate n Admission.rejected ++ [a]).countP Admission.isAdmitted = a.isAdmitted.toNat := by
  rw [List.countP_append, countP_replicate_rejected, List.countP_singleton, Nat.zero_add]
  cases a.isAdmitted <;> rfl

/-- One request of a call that returns true is admitted, and none of a call that returns false. -/
theorem Outcome.countP_isAdmitted {e : Errand} {verdict : Bool} {fates : List Admission}
    {unserved : Nat} (h : Outcome e verdict fates unserved) :
    fates.countP Admission.isAdmitted = verdict.toNat := by
  cases h with
  | admitted _ ha => rw [countP_rejected_concat, ha]
  | refused => exact countP_replicate_rejected _

/-- A call that goes on: whether the sender waits, what became of the requests that were served, the
number of the others, and the answers on their way. -/
inductive Stage (e : Errand) (left : Nat) : Bool → List Admission → Nat → List Bool → Prop
  | idle : left ≤ e.retries → Stage e left false (List.replicate (e.retries - left) .rejected) 0 []
  | queued : left ≤ e.retries → Stage e left true (List.replicate (e.retries - left) .rejected) 1 []
  | answered (a : Admission) : left ≤ e.retries →
      Stage e left true (List.replicate (e.retries - left) .rejected ++ [a]) 0 [a.isAdmitted]

/-- The sender has finished the first of these calls, and this became of the requests of each call. -/
structure Tracks (calls : List Errand) (s : Sender) (isOpen : Bool) (fates : Nat → List Admission)
    (unserved : Nat → Nat) (replies : List Bool) : Prop where
  errands : s.errands = calls.drop s.verdicts.length
  length_le : s.verdicts.length ≤ calls.length
  finished : ∀ k verdict, s.verdicts[k]? = some verdict → ∃ e, calls[k]? = some e ∧
    Outcome e verdict (fates k) (unserved k) ∧ (isOpen = true → unserved k = 0)
  current : ∀ e, calls[s.verdicts.length]? = some e →
    Stage e s.left s.waiting (fates s.verdicts.length) (unserved s.verdicts.length) replies
  resting : calls.length ≤ s.verdicts.length → replies = []
  later : ∀ k, s.verdicts.length < k ∨ calls.length ≤ k → fates k = [] ∧ unserved k = 0

/-- The sender has not begun. -/
structure Sender.IsFresh (s : Sender) : Prop where
  left : s.left = (s.errands.head?.map (·.retries)).getD 0
  waiting : s.waiting = false
  verdicts : s.verdicts = []

theorem Sender.isFresh_ofErrands (errands : List Errand) (pause wake : Nat) :
    (ofErrands errands pause wake).IsFresh :=
  ⟨rfl, rfl, rfl⟩

theorem Stage.begin (e : Errand) : Stage e e.retries false [] 0 [] := by
  have hnone : List.replicate (e.retries - e.retries) Admission.rejected = [] := by
    rw [Nat.sub_self]
    rfl
  exact hnone ▸ Stage.idle (Nat.le_refl _)

namespace Stage

variable {e : Errand} {left unserved : Nat} {waiting : Bool} {fates : List Admission}
  {replies : List Bool}

theorem send (h : Stage e left false fates unserved replies) :
    Stage e left true fates (unserved + 1) replies := by
  cases h with
  | idle hle => exact .queued hle

theorem poll (a : Admission) (h : Stage e left waiting fates unserved replies) (hne : unserved ≠ 0) :
    Stage e left waiting (fates ++ [a]) (unserved - 1) (a.isAdmitted :: replies) := by
  cases h with
  | queued hle => exact .answered a hle
  | idle => exact absurd rfl hne
  | answered => exact absurd rfl hne

/-- At most one answer is on its way, to the last request. -/
theorem reply {front back : List Bool} {accepted : Bool}
    (h : Stage e left waiting fates unserved (front ++ accepted :: back)) :
    front = [] ∧ back = [] ∧ unserved = 0 ∧ left ≤ e.retries ∧ ∃ a, a.isAdmitted = accepted ∧
      fates = List.replicate (e.retries - left) .rejected ++ [a] := by
  generalize hreplies : front ++ accepted :: back = replies at h
  cases h with
  | idle => exact absurd hreplies (by simp)
  | queued => exact absurd hreplies (by simp)
  | answered a hle =>
    obtain ⟨rfl, rfl, rfl⟩ : front = [] ∧ back = [] ∧ accepted = a.isAdmitted := by
      cases front with
      | nil =>
        obtain ⟨rfl, rfl⟩ := List.cons.inj hreplies
        exact ⟨rfl, rfl, rfl⟩
      | cons b front => simp at hreplies
    exact ⟨rfl, rfl, rfl, hle, a, rfl, rfl⟩

/-- A call that the machine does not live to see returns false. -/
theorem close (h : Stage e left waiting fates unserved []) : Outcome e false fates unserved := by
  cases h with
  | idle hle => exact .refused (by omega)
  | queued hle => exact .refused (by omega)

theorem count_le (h : Stage e left waiting fates unserved replies) :
    fates.length + unserved ≤ e.retries + 1 := by
  cases h with
  | idle => rw [List.length_replicate]; omega
  | queued => rw [List.length_replicate]; omega
  | answered => rw [List.length_append, List.length_replicate, List.length_singleton]; omega

theorem countP_isAdmitted_le (h : Stage e left waiting fates unserved replies) :
    fates.countP Admission.isAdmitted ≤ 1 := by
  cases h with
  | answered a =>
    rw [countP_rejected_concat]
    exact a.isAdmitted.toNat_le
  | _ =>
    rw [countP_replicate_rejected]
    exact Nat.zero_le _

end Stage

namespace Tracks

variable {calls : List Errand} {s : Sender} {isOpen : Bool} {fates : Nat → List Admission}
  {unserved : Nat → Nat} {replies : List Bool}

theorem fresh (h : s.IsFresh) : Tracks s.errands s true (fun _ => []) (fun _ => 0) [] := by
  obtain ⟨hleft, hwaiting, hverdicts⟩ := h
  refine ⟨by rw [hverdicts]; rfl, by rw [hverdicts]; exact Nat.zero_le _, ?_, ?_, fun _ => rfl,
    fun _ _ => ⟨rfl, rfl⟩⟩
  · intro k verdict hk
    rw [hverdicts] at hk
    cases hk
  · intro e he
    rw [hverdicts, List.length_nil, ← List.head?_eq_getElem?] at he
    have hretries : s.left = e.retries := by
      rw [hleft, he]
      rfl
    rw [hwaiting, hretries]
    exact Stage.begin e

theorem head?_errands (h : Tracks calls s isOpen fates unserved replies) :
    s.errands.head? = calls[s.verdicts.length]? := by
  rw [h.errands, List.head?_drop]

/-- A call that is not over yet has none of its requests left from before. -/
theorem current_of_unserved (h : Tracks calls s true fates unserved replies) {k : Nat}
    (hk : unserved k ≠ 0) : k = s.verdicts.length ∧ ∃ e, calls[k]? = some e := by
  have hlater : ¬ (s.verdicts.length < k ∨ calls.length ≤ k) := fun hor => hk (h.later k hor).2
  have hfinished : ¬ k < s.verdicts.length := by
    intro hlt
    obtain ⟨-, -, -, hnone⟩ := h.finished k s.verdicts[k] (List.getElem?_eq_getElem hlt)
    exact hk (hnone rfl)
  have hlength : k < calls.length := by omega
  exact ⟨by omega, calls[k], List.getElem?_eq_getElem hlength⟩

theorem send {name now : Nat} {r : Request} (h : Tracks calls s isOpen fates unserved replies)
    (hr : s.request? name now = some r) :
    Tracks calls s.wait isOpen fates
      (Function.update unserved s.verdicts.length (unserved s.verdicts.length + 1)) replies := by
  unfold Sender.request? at hr
  split at hr
  next hidle =>
    obtain ⟨e, he, -⟩ := Option.map_eq_some_iff.mp hr
    rw [h.head?_errands] at he
    have hlt : s.verdicts.length < calls.length := (List.getElem?_eq_some_iff.mp he).1
    have hsame : ∀ k, k ≠ s.verdicts.length → Function.update unserved s.verdicts.length
        (unserved s.verdicts.length + 1) k = unserved k := fun k hk => Function.update_of_ne hk _ _
    refine ⟨h.errands, h.length_le, ?_, ?_, h.resting, ?_⟩
    · intro k verdict hk
      have hne : k ≠ s.verdicts.length := Nat.ne_of_lt (List.getElem?_eq_some_iff.mp hk).1
      rw [hsame k hne]
      exact h.finished k verdict hk
    · intro e' he'
      obtain rfl : e = e' := Option.some.inj (he.symm.trans he')
      have hstage := h.current e he
      rw [hidle.1] at hstage
      rw [Sender.wait, Function.update_self]
      exact hstage.send
    · intro k hk
      have hne : k ≠ s.verdicts.length := by
        simp only [Sender.wait] at hk
        omega
      rw [hsame k hne]
      exact h.later k hk
  next => cases hr

theorem poll {k : Nat} (a : Admission) (h : Tracks calls s true fates unserved replies)
    (hk : unserved k ≠ 0) :
    Tracks calls s true (Function.update fates k (fates k ++ [a]))
      (Function.update unserved k (unserved k - 1)) (a.isAdmitted :: replies) := by
  -- A request that waits belongs to the current call, so the other calls stay as they are.
  obtain ⟨rfl, e, he⟩ := h.current_of_unserved hk
  have hlt : s.verdicts.length < calls.length := (List.getElem?_eq_some_iff.mp he).1
  refine ⟨h.errands, h.length_le, ?_, ?_, fun hle => absurd hlt (Nat.not_lt.mpr hle), ?_⟩
  · intro k verdict hverdict
    have hne : k ≠ s.verdicts.length := Nat.ne_of_lt (List.getElem?_eq_some_iff.mp hverdict).1
    rw [Function.update_of_ne hne, Function.update_of_ne hne]
    exact h.finished k verdict hverdict
  · intro e' he'
    rw [Function.update_self, Function.update_self]
    exact (h.current e' he').poll a hk
  · intro k hor
    have hne : k ≠ s.verdicts.length := by omega
    rw [Function.update_of_ne hne, Function.update_of_ne hne]
    exact h.later k hor

theorem finish {verdict : Bool} {e : Errand} (h : Tracks calls s isOpen fates unserved replies)
    (he : calls[s.verdicts.length]? = some e)
    (houtcome : Outcome e verdict (fates s.verdicts.length) (unserved s.verdicts.length))
    (hserved : isOpen = true → unserved s.verdicts.length = 0) :
    Tracks calls (s.finish verdict) isOpen fates unserved [] := by
  have hlt : s.verdicts.length < calls.length := (List.getElem?_eq_some_iff.mp he).1
  have hlength : (s.finish verdict).verdicts.length = s.verdicts.length + 1 := List.length_append
  have hrest : (s.finish verdict).errands = calls.drop (s.verdicts.length + 1) := by
    rw [Sender.finish, h.errands, List.drop_drop]
  refine ⟨by rw [hlength, hrest], by rw [hlength]; omega, ?_, ?_, fun _ => rfl, ?_⟩
  · intro k b hk
    have hcases : s.verdicts[k]? = some b ∨ k = s.verdicts.length ∧ b = verdict := by
      rw [Sender.finish, List.getElem?_append] at hk
      split at hk
      next => exact .inl hk
      next hge =>
        obtain ⟨hzero, hb⟩ := List.getElem?_eq_some_iff.mp hk
        have hk' : k = s.verdicts.length := by
          rw [List.length_singleton] at hzero
          omega
        exact .inr ⟨hk', by simpa using hb.symm⟩
    rcases hcases with hold | ⟨rfl, rfl⟩
    · exact h.finished k b hold
    · exact ⟨e, he, houtcome, hserved⟩
  · intro e' he'
    rw [hlength] at he' ⊢
    obtain ⟨hfates, hunserved⟩ := h.later (s.verdicts.length + 1) (.inl (Nat.lt_succ_self _))
    have hleft : (s.finish verdict).left = e'.retries := by
      have hhead : (calls.drop (s.verdicts.length + 1)).head? = some e' := by
        rw [List.head?_drop, he']
      rw [← hrest] at hhead
      have hleft : (s.finish verdict).left =
          ((s.finish verdict).errands.head?.map (·.retries)).getD 0 := rfl
      rw [hleft, hhead]
      rfl
    rw [hfates, hunserved, hleft]
    exact Stage.begin e'
  · intro k hk
    rw [hlength] at hk
    exact h.later k (by omega)

theorem answered {accepted : Bool} {front back : List Bool} (now : Nat)
    (h : Tracks calls s isOpen fates unserved (front ++ accepted :: back)) :
    Tracks calls (s.answered now accepted) isOpen fates unserved (front ++ back) := by
  have hlt : s.verdicts.length < calls.length := by
    by_contra hle
    have hnone := h.resting (Nat.not_lt.mp hle)
    simp at hnone
  have he : calls[s.verdicts.length]? = some calls[s.verdicts.length] := List.getElem?_eq_getElem hlt
  -- The only answer on its way is that to the last request. If it is let in or was the last one
  -- allowed, the call returns.
  obtain ⟨rfl, rfl, hunserved, hleft, a, rfl, hfates⟩ := (h.current _ he).reply
  rw [Sender.answered]
  by_cases hadmitted : a.isAdmitted = true
  · rw [if_pos hadmitted]
    refine h.finish he ?_ fun _ => hunserved
    rw [hfates, hunserved]
    exact .admitted (Nat.sub_le _ _) hadmitted
  · obtain rfl : a = .rejected := by
      cases a with
      | rejected => rfl
      | _ => exact absurd rfl hadmitted
    rw [← List.replicate_succ'] at hfates
    by_cases hlast : s.left = 0
    · rw [if_neg hadmitted, if_pos hlast]
      refine h.finish he ?_ fun _ => hunserved
      rw [hfates, hunserved]
      exact .refused (by omega)
    · rw [if_neg hadmitted, if_neg hlast]
      refine ⟨h.errands, h.length_le, h.finished, ?_, fun _ => rfl, h.later⟩
      intro e' he'
      obtain rfl := Option.some.inj (he.symm.trans he')
      have hcount : calls[s.verdicts.length].retries - s.left + 1 =
          calls[s.verdicts.length].retries - (s.left - 1) := by omega
      rw [hcount] at hfates
      simp only [hfates, hunserved]
      exact .idle (by omega)

theorem drop (h : Tracks calls s true fates unserved replies) :
    Tracks calls s false fates unserved replies := by
  refine ⟨h.errands, h.length_le, ?_, h.current, h.resting, h.later⟩
  intro k verdict hk
  obtain ⟨e, he, houtcome, -⟩ := h.finished k verdict hk
  exact ⟨e, he, houtcome, fun hopen => by cases hopen⟩

/-- The sender learns that the machine is gone. -/
theorem close (h : Tracks calls s false fates unserved []) :
    Tracks calls s.close false fates unserved [] := by
  have hlength : s.close.verdicts.length = calls.length := by
    have hle := h.length_le
    rw [Sender.close, List.length_append, List.length_map, h.errands, List.length_drop]
    omega
  refine ⟨?_, Nat.le_of_eq hlength, ?_, ?_, fun _ => rfl, ?_⟩
  · rw [hlength, List.drop_length]
    rfl
  · intro k verdict hk
    rw [Sender.close, List.getElem?_append] at hk
    split at hk
    next => exact h.finished k verdict hk
    next hge =>
      rw [List.getElem?_map, Option.map_eq_some_iff, h.errands] at hk
      obtain ⟨e, he, rfl⟩ := hk
      have hsum : s.verdicts.length + (k - s.verdicts.length) = k := by omega
      rw [List.getElem?_drop, hsum] at he
      refine ⟨e, he, ?_, fun hopen => by cases hopen⟩
      by_cases hcurrent : k = s.verdicts.length
      · subst hcurrent
        exact (h.current e he).close
      · obtain ⟨hfates, hunserved⟩ := h.later k (.inl (by omega))
        rw [hfates, hunserved]
        exact .refused (n := 0) (Nat.zero_le _)
  · intro e he
    rw [hlength, List.getElem?_eq_none (Nat.le_refl _)] at he
    cases he
  · intro k hk
    rw [hlength] at hk
    exact h.later k (by omega)

/-- A call asks at most once more than it may ask again. -/
theorem count_le {k : Nat} {e : Errand} (h : Tracks calls s isOpen fates unserved replies)
    (he : calls[k]? = some e) : (fates k).length + unserved k ≤ e.retries + 1 := by
  rcases Nat.lt_trichotomy k s.verdicts.length with hlt | rfl | hgt
  · obtain ⟨e', he', houtcome, -⟩ := h.finished k _ (List.getElem?_eq_getElem hlt)
    obtain rfl := Option.some.inj (he.symm.trans he')
    exact houtcome.count_le
  · exact (h.current e he).count_le
  · obtain ⟨hfates, hunserved⟩ := h.later k (.inl hgt)
    rw [hfates, hunserved]
    exact Nat.zero_le _

/-- At most one request of a call is admitted. -/
theorem countP_isAdmitted_le {k : Nat} {e : Errand}
    (h : Tracks calls s isOpen fates unserved replies) (he : calls[k]? = some e) :
    (fates k).countP Admission.isAdmitted ≤ 1 := by
  rcases Nat.lt_trichotomy k s.verdicts.length with hlt | rfl | hgt
  · obtain ⟨_, -, houtcome, -⟩ := h.finished k _ (List.getElem?_eq_getElem hlt)
    rw [houtcome.countP_isAdmitted]
    exact Bool.toNat_le _
  · exact (h.current e he).countP_isAdmitted_le
  · rw [(h.later k (.inl hgt)).1]
    exact Nat.zero_le _

end Tracks

end RegisterMachine
