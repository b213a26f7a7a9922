import Mathlib
import RegisterMachine.Proofs.Machine.Runs

namespace RegisterMachine.Machine

/-- Seen in this way, machines that look alike go through a cycle of one program as through a cycle of
the other. -/
structure Lockstep (see : Machine → Machine) (p p' : Program) : Prop where
  alive {m m' : Machine} : see m = see m' → m.alive = m'.alive
  start {m m' : Machine} : see m = see m' → see m.start = see m'.start
  advance {m m' : Machine} (requests : List Request) : see m = see m' →
    see ((m.prepared p requests).advance p) = see ((m'.prepared p' requests).advance p')
  ends {m m' : Machine} (requests : List Request) (how : Ending) : see m = see m' →
    ((m.prepared p requests).Ends p how ↔ (m'.prepared p' requests).Ends p' how)

namespace Lockstep

variable {see : Machine → Machine} {p p' : Program} {m m' m₁ : Machine}
  {schedule : List (List Request)} {how : Ending} {past : List (List (List Request) × Ending)}

theorem symm (h : Lockstep see p p') : Lockstep see p' p where
  alive := h.alive
  start := h.start
  advance requests hsee := (h.advance requests hsee.symm).symm
  ends requests how hsee := (h.ends requests how hsee.symm).symm

theorem runWith (h : Lockstep see p p') (hsee : see m = see m') (schedule : List (List Request))
    (n : Nat) : see (runWith p schedule n m) = see (Machine.runWith p' schedule n m') := by
  induction n with
  | zero => exact hsee
  | succ n ih =>
    rw [runWith_succ, runWith_succ, h.alive ih]
    split
    next => exact h.advance _ ih
    next => exact ih

theorem run (h : Lockstep see p p') (hsee : see m = see m') (hrun : Run p m schedule how m₁) :
    ∃ m₂, Run p' m' schedule how m₂ ∧ see m₁ = see m₂ := by
  cases hrun with
  | @ends n _ halive hends =>
    have hnow := h.runWith (h.start hsee) schedule n
    exact ⟨_, .ends (h.alive hnow ▸ halive) ((h.ends _ _ hnow).mp hends), h.advance _ hnow⟩

theorem runs (h : Lockstep see p p') (hsee : see m = see m') (hpast : Runs p m past m₁) :
    ∃ m₂, Runs p' m' past m₂ ∧ see m₁ = see m₂ := by
  induction hpast with
  | nil => exact ⟨m', .nil, hsee⟩
  | concat _ hrun ih =>
    obtain ⟨m₂, hbefore, hlike⟩ := ih
    obtain ⟨m₃, hlast, hsame⟩ := h.run hlike hrun
    exact ⟨m₃, hbefore.concat hlast, hsame⟩

end Lockstep

end RegisterMachine.Machine
