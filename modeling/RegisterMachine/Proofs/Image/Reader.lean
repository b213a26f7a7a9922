import Mathlib
import RegisterMachine.Binary

namespace RegisterMachine.Reader

variable {ε ε' α β : Type}

theorem run_bind (r : Reader ε α) (f : α → Reader ε β) (input : Bytes) :
    (r >>= f).run input = match r.run input with
      | (.ok a, rest) => (f a).run rest
      | (.error e, rest) => (.error e, rest) := by
  have h : (r >>= f).run input = ExceptT.bindCont f (r.run input).1 (r.run input).2 := rfl
  rw [h]
  rcases r.run input with ⟨_ | _, rest⟩ <;> rfl

theorem run_mapError (f : ε → ε') (r : Reader ε α) (input : Bytes) :
    (r.mapError f).run input = match r.run input with
      | (.ok a, rest) => (.ok a, rest)
      | (.error e, rest) => (.error (f e), rest) := rfl

theorem run_take (short : ε) (n : Nat) (input : Bytes) :
    (take short n).run input =
      if n ≤ input.length then (.ok (input.take n), input.drop n) else (.error short, input) := rfl

/-- The reader takes these bytes from the front of any input, and makes this value of them. -/
def Yields (r : Reader ε α) (bs : Bytes) (a : α) : Prop :=
  ∀ rest, r.run (bs ++ rest) = (.ok a, rest)

theorem Yields.run_bind {r : Reader ε α} {bs : Bytes} {a : α} (hr : r.Yields bs a)
    (f : α → Reader ε β) (rest : Bytes) : (r >>= f).run (bs ++ rest) = (f a).run rest := by
  rw [Reader.run_bind, hr]

/-- The reader fails behind these bytes, whatever follows them. -/
def Fails (r : Reader ε α) (bs : Bytes) (e : ε) : Prop :=
  ∀ rest, ∃ left, r.run (bs ++ rest) = (.error e, left)

theorem fails_throw (e : ε) : (throw e : Reader ε α).Fails [] e :=
  fun rest => ⟨rest, rfl⟩

theorem Fails.append {r : Reader ε α} {bs : Bytes} {e : ε} (hr : r.Fails bs e) (cs : Bytes) :
    r.Fails (bs ++ cs) e := by
  intro rest
  rw [List.append_assoc]
  exact hr (cs ++ rest)

theorem Fails.bind {r : Reader ε α} {bs : Bytes} {e : ε} (hr : r.Fails bs e)
    (f : α → Reader ε β) : (r >>= f).Fails bs e := by
  intro rest
  obtain ⟨left, hrun⟩ := hr rest
  exact ⟨left, by rw [run_bind, hrun]⟩

theorem Yields.bind_fails {r : Reader ε α} {f : α → Reader ε β} {bs cs : Bytes} {a : α} {e : ε}
    (hr : r.Yields bs a) (hf : (f a).Fails cs e) : (r >>= f).Fails (bs ++ cs) e := by
  intro rest
  rw [List.append_assoc, hr.run_bind]
  exact hf rest

/-- The reader makes a value of each of its spellings and of no other bytes. `Short` tells the failures
that it has where the input ends inside a spelling. -/
structure Reads (r : Reader ε α) (Spells : Bytes → α → Prop) (Short : ε → Prop) : Prop where
  spelled : ∀ {input rest : Bytes} {a : α}, r.run input = (.ok a, rest) →
    ∃ bs, input = bs ++ rest ∧ Spells bs a
  yields : ∀ {bs : Bytes} {a : α}, Spells bs a → r.Yields bs a
  short : ∀ {bs part : Bytes} {a : α}, Spells bs a → part <+: bs → part ≠ bs →
    ∃ e rest, Short e ∧ r.run part = (.error e, rest)

namespace Reads

variable {r : Reader ε α} {f : α → Reader ε β} {Spells Spells' : Bytes → α → Prop}
  {T : α → Bytes → β → Prop} {Short : ε → Prop} {Short' : ε' → Prop}

theorem congr (hr : r.Reads Spells Short) (h : ∀ bs a, Spells bs a ↔ Spells' bs a) :
    r.Reads Spells' Short := by
  have heq : Spells = Spells' := by
    funext bs a
    exact propext (h bs a)
  exact heq ▸ hr

theorem mono {Short' : ε → Prop} (hr : r.Reads Spells Short) (h : ∀ e, Short e → Short' e) :
    r.Reads Spells Short' where
  spelled := hr.spelled
  yields := hr.yields
  short := by
    intro bs part a hbs hpart hne
    obtain ⟨e, rest, he, hrun⟩ := hr.short hbs hpart hne
    exact ⟨e, rest, h e he, hrun⟩

theorem pure (a : α) : (Pure.pure a : Reader ε α).Reads (fun bs b => bs = [] ∧ b = a) Short where
  spelled := by
    intro input rest b h
    obtain ⟨hb, hrest⟩ := Prod.mk.inj h
    exact ⟨[], hrest, rfl, (Except.ok.inj hb).symm⟩
  yields := by
    rintro _ _ ⟨rfl, rfl⟩ rest
    rfl
  short := by
    rintro _ part _ ⟨rfl, -⟩ hpart hne
    exact (hne (List.prefix_nil.mp hpart)).elim

theorem throw (e : ε) : (MonadExcept.throw e : Reader ε α).Reads (fun _ _ => False) Short where
  spelled h := by cases (Prod.mk.inj h).1
  yields h := h.elim
  short h := h.elim

/-- A part of two spellings in a row is a part of the first one, or the first one and a part of the
second. -/
theorem part_cases {part as cs : Bytes} (h : part <+: as ++ cs) (hne : part ≠ as ++ cs) :
    part <+: as ∧ part ≠ as ∨ ∃ tail, part = as ++ tail ∧ tail <+: cs ∧ tail ≠ cs := by
  obtain ⟨rest, hrest⟩ := h
  rcases List.append_eq_append_iff.mp hrest with ⟨back, has, -⟩ | ⟨tail, hpart, hcs⟩
  · by_cases hback : part = as
    · refine .inr ⟨[], by rw [hback, List.append_nil], List.nil_prefix, ?_⟩
      rintro rfl
      exact hne (by rw [hback, List.append_nil])
    · exact .inl ⟨⟨back, has.symm⟩, hback⟩
  · refine .inr ⟨tail, hpart, ⟨rest, hcs.symm⟩, ?_⟩
    rintro rfl
    exact hne hpart

theorem bind (hr : r.Reads Spells Short) (hf : ∀ a, (f a).Reads (T a) Short) :
    (r >>= f).Reads (fun bs b => ∃ a as cs, bs = as ++ cs ∧ Spells as a ∧ T a cs b) Short where
  spelled := by
    intro input rest b h
    rw [run_bind] at h
    rcases hrun : r.run input with ⟨_ | a, middle⟩
    · rw [hrun] at h
      cases (Prod.mk.inj h).1
    · rw [hrun] at h
      obtain ⟨as, rfl, has⟩ := hr.spelled hrun
      obtain ⟨cs, rfl, hcs⟩ := (hf a).spelled h
      exact ⟨as ++ cs, (List.append_assoc as cs rest).symm, a, as, cs, rfl, has, hcs⟩
  yields := by
    rintro _ b ⟨a, as, cs, rfl, has, hcs⟩ rest
    rw [List.append_assoc, (hr.yields has).run_bind]
    exact (hf a).yields hcs rest
  short := by
    rintro _ part b ⟨a, as, cs, rfl, has, hcs⟩ hpart hne
    -- The input ends inside the first spelling, or inside the second one.
    rcases part_cases hpart hne with ⟨hpart, hne⟩ | ⟨tail, rfl, htail, hne⟩
    · obtain ⟨e, rest, he, hrun⟩ := hr.short has hpart hne
      exact ⟨e, rest, he, by rw [run_bind, hrun]⟩
    · obtain ⟨e, rest, he, hrun⟩ := (hf a).short hcs htail hne
      exact ⟨e, rest, he, by rw [(hr.yields has).run_bind, hrun]⟩

theorem map (g : α → β) (hr : r.Reads Spells Short) :
    (g <$> r).Reads (fun bs b => ∃ a, Spells bs a ∧ b = g a) Short := by
  rw [← bind_pure_comp]
  refine (hr.bind fun a => Reads.pure (g a)).congr fun bs b => ?_
  constructor
  · rintro ⟨a, as, _, rfl, has, rfl, rfl⟩
    rw [List.append_nil]
    exact ⟨a, has, rfl⟩
  · rintro ⟨a, hbs, rfl⟩
    exact ⟨a, bs, [], (List.append_nil bs).symm, hbs, rfl, rfl⟩

theorem mapError {g : ε → ε'} (hr : r.Reads Spells Short) (hg : ∀ e, Short e → Short' (g e)) :
    (r.mapError g).Reads Spells Short' where
  spelled := by
    intro input rest a h
    rw [run_mapError] at h
    rcases hrun : r.run input with ⟨_ | b, middle⟩
    · rw [hrun] at h
      cases (Prod.mk.inj h).1
    · rw [hrun] at h
      obtain ⟨hb, rfl⟩ := Prod.mk.inj h
      obtain rfl := Except.ok.inj hb
      exact hr.spelled hrun
  yields := by
    intro bs a h rest
    rw [run_mapError, hr.yields h]
  short := by
    intro bs part a h hpart hne
    obtain ⟨e, rest, he, hrun⟩ := hr.short h hpart hne
    exact ⟨g e, rest, hg e he, by rw [run_mapError, hrun]⟩

theorem take (e : ε) (n : Nat) :
    (Reader.take e n).Reads (fun bs a => bs = a ∧ a.length = n) (· = e) where
  spelled := by
    intro input rest a h
    rw [run_take] at h
    split at h
    next hle =>
      obtain ⟨ha, rfl⟩ := Prod.mk.inj h
      obtain rfl := Except.ok.inj ha
      exact ⟨input.take n, (List.take_append_drop n input).symm, rfl, List.length_take_of_le hle⟩
    next => cases (Prod.mk.inj h).1
  yields := by
    rintro bs _ ⟨rfl, rfl⟩ rest
    rw [run_take, if_pos (by simp), List.take_left, List.drop_left]
  short := by
    rintro bs part _ ⟨rfl, rfl⟩ hpart hne
    have hlt : part.length < bs.length := by
      have hle := hpart.length_le
      have hlen : part.length ≠ bs.length := fun hlen => hne (hpart.eq_of_length hlen)
      omega
    exact ⟨e, part, rfl, by rw [run_take, if_neg (by omega)]⟩

end Reads

/-- What a reader makes of an input is told by the spelling at its front. -/
theorem Reads.run_eq_ok_iff {r : Reader ε α} {Spells : Bytes → α → Prop} {Short : ε → Prop}
    (hr : r.Reads Spells Short) {input rest : Bytes} {a : α} :
    r.run input = (.ok a, rest) ↔ ∃ bs, input = bs ++ rest ∧ Spells bs a := by
  constructor
  · exact hr.spelled
  · rintro ⟨bs, rfl, h⟩
    exact hr.yields h rest

/-- The bytes are spellings of some values, one behind the other. -/
inductive SpellsAll (Spells : Bytes → α → Prop) : Bytes → List α → Prop
  | nil : SpellsAll Spells [] []
  | cons {bs rest : Bytes} {a : α} {as : List α} : Spells bs a → SpellsAll Spells rest as →
      SpellsAll Spells (bs ++ rest) (a :: as)

theorem Reads.replicate {r : Reader ε α} {Spells : Bytes → α → Prop} {Short : ε → Prop}
    (hr : r.Reads Spells Short) (n : Nat) :
    (r.replicate n).Reads (fun bs as => as.length = n ∧ SpellsAll Spells bs as) Short := by
  induction n with
  | zero =>
    refine (Reads.pure []).congr fun bs as => ?_
    constructor
    · rintro ⟨rfl, rfl⟩
      exact ⟨rfl, .nil⟩
    · rintro ⟨hlen, hall⟩
      cases hall with
      | nil => exact ⟨rfl, rfl⟩
      | cons _ _ => cases hlen
  | succ n ih =>
    refine (hr.bind fun a => ih.bind fun as => Reads.pure (a :: as)).congr fun bs as => ?_
    constructor
    · rintro ⟨a, cs, _, rfl, ha, as, ds, _, rfl, ⟨hlen, hall⟩, rfl, rfl⟩
      rw [List.append_nil]
      exact ⟨congrArg Nat.succ hlen, .cons ha hall⟩
    · rintro ⟨hlen, hall⟩
      cases hall with
      | nil => cases hlen
      | @cons bs rest a as ha hall =>
        exact ⟨a, bs, rest, rfl, ha, as, rest, [], (List.append_nil rest).symm,
          ⟨Nat.succ.inj hlen, hall⟩, rfl, rfl⟩

namespace SpellsAll

variable {Spells : Bytes → α → Prop} {bs : Bytes} {as before after : List α} {a : α}

theorem flatMap {encode : α → Bytes} (h : ∀ a ∈ as, Spells (encode a) a) :
    SpellsAll Spells (as.flatMap encode) as := by
  induction as with
  | nil => exact .nil
  | cons a as ih =>
    obtain ⟨ha, has⟩ := List.forall_mem_cons.mp h
    exact .cons ha (ih has)

/-- One of the values has its spelling between those of the values before and after it. -/
theorem split (h : SpellsAll Spells bs (before ++ a :: after)) : ∃ front piece back,
    bs = front ++ piece ++ back ∧ SpellsAll Spells front before ∧ Spells piece a ∧
      SpellsAll Spells back after := by
  induction before generalizing bs with
  | nil =>
    cases h with
    | @cons piece back _ _ hpiece hback => exact ⟨[], piece, back, rfl, .nil, hpiece, hback⟩
  | cons b before ih =>
    cases h with
    | @cons first rest _ _ hfirst hrest =>
      obtain ⟨front, piece, back, rfl, hfront, hpiece, hback⟩ := ih hrest
      refine ⟨first ++ front, piece, back, ?_, .cons hfirst hfront, hpiece, hback⟩
      simp only [List.append_assoc]

/-- Values that are spelled in one way each are spelled in one way as a list. -/
theorem encode_iff {encode : α → Bytes} {P : α → Prop} :
    SpellsAll (fun bs a => bs = encode a ∧ P a) bs as ↔ bs = as.flatMap encode ∧ ∀ a ∈ as, P a := by
  constructor
  · intro h
    induction h with
    | nil => exact ⟨rfl, fun a ha => absurd ha List.not_mem_nil⟩
    | cons ha _ ih =>
      obtain ⟨rfl, ha⟩ := ha
      obtain ⟨rfl, has⟩ := ih
      exact ⟨rfl, List.forall_mem_cons.mpr ⟨ha, has⟩⟩
  · rintro ⟨rfl, h⟩
    exact flatMap fun a ha => ⟨rfl, h a ha⟩

end SpellsAll

end RegisterMachine.Reader
