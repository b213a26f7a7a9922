import Mathlib
import RegisterMachine.Proofs.Assembly.Lines
import RegisterMachine.Proofs.Checked.Line

namespace RegisterMachine.Assembly

/-- At this place of a line stands a character of the given class, and the number of quotes before it is
even. -/
def Bare (p : Char → Bool) (s : List Char) (i : Nat) : Prop :=
  ∃ c, s[i]? = some c ∧ p c = true ∧ Even ((s.take i).count '"')

/-- A part of a line, from one place up to another one. -/
structure Span where
  start : Nat
  stop : Nat

namespace Span

/-- The characters of the part. -/
def text (p : Span) (line : List Char) : List Char :=
  (line.take p.stop).drop p.start

/-- The part is not empty and has no separator outside of quotes. -/
structure Free (p : Span) (line : List Char) : Prop where
  nonempty : p.start < p.stop
  inside : p.stop ≤ line.length
  free : ∀ i, p.start ≤ i → i < p.stop → ¬ Bare isSeparator line i

/-- The part is free, and no longer part with it is. -/
structure IsPiece (p : Span) (line : List Char) : Prop extends Free p line where
  longest : ∀ q : Span, q.Free line → q.start ≤ p.start → p.stop ≤ q.stop → q = p

end Span

/-- The part of a line from its front on has no character of the class outside of quotes, and no longer
one is without. -/
structure Leads (p : Char → Bool) (part line : List Char) : Prop where
  front : part <+: line
  free : ∀ i, ¬ Bare p part i
  longest : ∀ q, q <+: line → (∀ i, ¬ Bare p q i) → q <+: part

/-- The text consists of these tokens with one separator between any two. -/
inductive Joined : List String → List Char → Prop
  | nil : Joined [] []
  | last {token : String} : Joined [token] token.toList
  | more {token next : String} {tokens : List String} {c : Char} {rest : List Char} :
      isSeparator c = true → Joined (next :: tokens) rest →
      Joined (token :: next :: tokens) (token.toList ++ c :: rest)

section

variable {p : Char → Bool} {s t : List Char} {c : Char} {i : Nat}

theorem bare_append_left (hi : i < s.length) : Bare p (s ++ t) i ↔ Bare p s i := by
  rw [Bare, Bare, List.getElem?_append_left hi, List.take_append_of_le_length hi.le]

theorem bare_append_length : Bare p (s ++ c :: t) s.length ↔ p c = true ∧ Even (s.count '"') := by
  rw [Bare, List.getElem?_append_right le_rfl, Nat.sub_self, List.take_left]
  simp

theorem not_bare_concat (hs : ∀ i, ¬ Bare p s i) (hc : ¬ (p c = true ∧ Even (s.count '"'))) :
    ∀ i, ¬ Bare p (s ++ [c]) i := by
  intro i hbare
  rcases lt_trichotomy i s.length with hi | rfl | hi
  · exact hs i ((bare_append_left hi).mp hbare)
  · exact hc (bare_append_length.mp hbare)
  · obtain ⟨d, hd, -⟩ := hbare
    rw [List.getElem?_eq_none (by simpa using hi)] at hd
    cases hd

theorem lt_length_of_bare (h : Bare p s i) : i < s.length := by
  obtain ⟨c, hc, -⟩ := h
  exact (List.getElem?_eq_some_iff.mp hc).1

theorem count_quote_concat (hc : c ≠ '"') : (s ++ [c]).count '"' = s.count '"' := by
  rw [List.count_append, List.count_singleton, if_neg (by simpa using hc), Nat.add_zero]

theorem even_quote_concat : Even ((s ++ ['"']).count '"') ↔ ¬ Even (s.count '"') := by
  rw [List.count_append, List.count_singleton_self, Nat.even_add_one]

/-- A separator is no quote. -/
theorem ne_quote_of_isSeparator (h : isSeparator c = true) : c ≠ '"' := by
  rintro rfl
  exact absurd h (by decide)

end

namespace Span

variable {line : List Char} {p q : Span} {i : Nat}

/-- A free part between two separators, or with an end of the line on either side, is a piece. -/
theorem Free.isPiece (h : p.Free line) (hbefore : p.start = 0 ∨ Bare isSeparator line (p.start - 1))
    (hbehind : p.stop = line.length ∨ Bare isSeparator line p.stop) : p.IsPiece line := by
  refine ⟨h, fun q hq hstart hstop => ?_⟩
  have hnonempty := h.nonempty
  have hinside := hq.inside
  have hfirst : q.start = p.start := by
    rcases hbefore with hzero | hbare
    · omega
    · by_contra hne
      exact hq.free _ (by omega) (by omega) hbare
  have hlast : q.stop = p.stop := by
    rcases hbehind with hend | hbare
    · omega
    · by_contra hne
      exact hq.free _ (by omega) (by omega) hbare
  cases p
  cases q
  simp_all

theorem IsPiece.before (h : p.IsPiece line) : p.start = 0 ∨ Bare isSeparator line (p.start - 1) := by
  by_contra hno
  obtain ⟨hzero, hbare⟩ := not_or.mp hno
  have hnonempty := h.nonempty
  -- without a separator in front, the part could begin one character before
  have hfree : Free ⟨p.start - 1, p.stop⟩ line := by
    refine ⟨by simp only; omega, h.inside, fun i hi hlt => ?_⟩
    rcases eq_or_ne i (p.start - 1) with rfl | hne
    · exact hbare
    · simp only at hi
      exact h.free i (by omega) hlt
  have heq := congrArg start (h.longest _ hfree (Nat.sub_le _ _) le_rfl)
  simp only at heq
  omega

theorem IsPiece.behind (h : p.IsPiece line) : p.stop = line.length ∨ Bare isSeparator line p.stop := by
  by_contra hno
  obtain ⟨hend, hbare⟩ := not_or.mp hno
  have hnonempty := h.nonempty
  have hinside := h.inside
  have hfree : Free ⟨p.start, p.stop + 1⟩ line := by
    refine ⟨by simp only; omega, by simp only; omega, fun i hi hlt => ?_⟩
    rcases eq_or_ne i p.stop with rfl | hne
    · exact hbare
    · simp only at hlt
      exact h.free i hi (by omega)
  have heq := congrArg stop (h.longest _ hfree le_rfl (Nat.le_succ _))
  simp only at heq
  omega

/-- Pieces that have a place in common are the same. -/
theorem IsPiece.eq_of_overlap (hp : p.IsPiece line) (hq : q.IsPiece line) (hpi : p.start ≤ i)
    (hip : i < p.stop) (hqi : q.start ≤ i) (hiq : i < q.stop) : p = q := by
  -- both are all of the part that they cover together
  have hfree : Free ⟨min p.start q.start, max p.stop q.stop⟩ line := by
    refine ⟨by simp only; omega, max_le hp.inside hq.inside, fun j hj hlt => ?_⟩
    simp only at hj hlt
    by_cases hjp : p.start ≤ j ∧ j < p.stop
    · exact hp.free j hjp.1 hjp.2
    · exact hq.free j (by omega) (by omega)
  have hsame := hp.longest _ hfree (min_le_left _ _) (le_max_left _ _)
  exact hsame.symm.trans (hq.longest _ hfree (min_le_right _ _) (le_max_right _ _))

end Span

/-- From this place on the line has these tokens: they are the texts of its pieces, in order, and every
place that holds no bare separator is in one of them. -/
structure Cut (line : List Char) (first : Nat) (tokens : List String) (spans : List Span) : Prop where
  texts : spans.map (fun p => String.ofList (p.text line)) = tokens
  ordered : spans.Pairwise fun p q => p.stop < q.start
  pieces : ∀ p, p ∈ spans ↔ p.IsPiece line ∧ first ≤ p.start
  covers : ∀ i, first ≤ i → i < line.length → ¬ Bare isSeparator line i →
    ∃ p ∈ spans, p.start ≤ i ∧ i < p.stop

section

variable {line before current rest : List Char} {quoted : Bool} {token : String}
  {tokens : List String} {spans : List Span}

theorem cut_nil {first : Nat} (h : line.length ≤ first) : Cut line first [] [] := by
  refine ⟨rfl, .nil, fun p => ?_, fun i hi hlt => by omega⟩
  rw [List.mem_nil_iff, false_iff]
  rintro ⟨hp, hle⟩
  have hnonempty := hp.nonempty
  have hinside := hp.inside
  omega

/-- A separator, or the end of the line, behind nothing is skipped. -/
theorem Cut.skip {first : Nat} (h : Cut line (first + 1) tokens spans)
    (hbehind : first = line.length ∨ Bare isSeparator line first) : Cut line first tokens spans := by
  refine ⟨h.texts, h.ordered, fun p => ?_, fun i hi hlt hfree => ?_⟩
  · rw [h.pieces p]
    refine and_congr_right fun hp => ⟨fun hle => by omega, fun hle => ?_⟩
    have hnonempty := hp.nonempty
    have hinside := hp.inside
    have hne : p.start ≠ first := by
      rintro rfl
      rcases hbehind with hend | hbare
      · omega
      · exact hp.free _ le_rfl hnonempty hbare
    omega
  · have hne : i ≠ first := by
      rintro rfl
      rcases hbehind with hend | hbare
      · omega
      · exact hfree hbare
    exact h.covers i (by omega) hlt hfree

/-- A piece stands in front of those behind it. -/
theorem Cut.cons {p : Span} (hp : p.IsPiece line) (h : Cut line (p.stop + 1) tokens spans) :
    Cut line p.start (String.ofList (p.text line) :: tokens) (p :: spans) := by
  have hnonempty := hp.nonempty
  have hrest := h.skip hp.behind
  refine ⟨by rw [List.map_cons, h.texts], ?_, fun q => ?_, fun i hi hlt hfree => ?_⟩
  · refine List.pairwise_cons.mpr ⟨fun q hq => ?_, h.ordered⟩
    have hle := ((h.pieces q).mp hq).2
    omega
  · rw [List.mem_cons, hrest.pieces q]
    constructor
    · rintro (rfl | ⟨hq, hle⟩)
      · exact ⟨hp, le_rfl⟩
      · exact ⟨hq, by omega⟩
    · rintro ⟨hq, hle⟩
      by_cases hstop : p.stop ≤ q.start
      · exact .inr ⟨hq, hstop⟩
      · exact .inl (hp.eq_of_overlap hq hle (by omega) le_rfl hq.nonempty).symm
  · by_cases hstop : i < p.stop
    · exact ⟨p, List.mem_cons_self, hi, hstop⟩
    · obtain ⟨q, hq, hin⟩ := hrest.covers i (by omega) hlt hfree
      exact ⟨q, List.mem_cons_of_mem _ hq, hin⟩

/-- What was read up to a separator, or up to the end of the line, is a piece unless it is empty. -/
theorem Cut.consToken (h : Cut line ((before ++ current).length + 1) tokens spans)
    (hline : line = before ++ current ++ rest)
    (hbefore : before.length = 0 ∨ Bare isSeparator line (before.length - 1))
    (hcurrent : ∀ i, before.length ≤ i → i < (before ++ current).length → ¬ Bare isSeparator line i)
    (hbehind : (before ++ current).length = line.length ∨
      Bare isSeparator line (before ++ current).length) :
    ∃ spans, Cut line before.length (consToken current tokens) spans := by
  by_cases hempty : current = []
  · subst hempty
    rw [List.append_nil] at h hbehind
    rw [Assembly.consToken, if_pos rfl]
    exact ⟨spans, h.skip hbehind⟩
  · have hpos : 0 < current.length := List.length_pos_iff.mpr hempty
    have hinside : (before ++ current).length ≤ line.length := by
      rw [hline]
      exact (List.prefix_append _ _).length_le
    have hspan : Span.text ⟨before.length, (before ++ current).length⟩ line = current := by
      rw [Span.text, hline, List.take_left, List.drop_left]
    have hfree : Span.Free ⟨before.length, (before ++ current).length⟩ line :=
      ⟨by simpa using hpos, hinside, hcurrent⟩
    rw [consToken_of_ne_nil hempty]
    have hcut := Cut.cons (hfree.isPiece hbefore hbehind) h
    rw [hspan] at hcut
    exact ⟨_, hcut⟩

/-- The scan of the rest of a line, while a token is being read, finds the pieces from that token on. -/
theorem exists_cut (hline : line = before ++ current ++ rest)
    (hbefore : before.length = 0 ∨ Bare isSeparator line (before.length - 1))
    (hcurrent : ∀ i, before.length ≤ i → i < (before ++ current).length → ¬ Bare isSeparator line i)
    (hquoted : quoted = false ↔ Even ((before ++ current).count '"'))
    (h : tokensFrom current quoted rest = some tokens) :
    ∃ spans, Cut line before.length tokens spans := by
  induction rest generalizing before current quoted tokens with
  | nil =>
    have hlength : (before ++ current).length = line.length := by rw [hline, List.append_nil]
    rw [tokensFrom] at h
    split at h
    next => cases h
    next =>
      obtain rfl := Option.some.inj h
      exact (cut_nil (by omega)).consToken hline hbefore hcurrent (.inl hlength)
  | cons c rest ih =>
    have hbare : Bare isSeparator line (before ++ current).length ↔
        isSeparator c = true ∧ quoted = false := by
      rw [hline, bare_append_length, hquoted]
    have hlength : (before ++ (current ++ [c])).length = (before ++ current).length + 1 := by
      rw [← List.append_assoc, List.length_append, List.length_singleton]
    have hnext : line = before ++ (current ++ [c]) ++ rest := by
      rw [hline, ← List.append_assoc before, List.append_assoc _ [c], List.singleton_append]
    -- a character that does not separate belongs to the token that is being read
    have hmore : ¬ Bare isSeparator line (before ++ current).length →
        ∀ i, before.length ≤ i → i < (before ++ (current ++ [c])).length →
          ¬ Bare isSeparator line i := by
      intro hfree i hi hlt
      rw [hlength] at hlt
      rcases eq_or_ne i (before ++ current).length with rfl | hne
      · exact hfree
      · exact hcurrent i hi (by omega)
    rw [tokensFrom] at h
    split at h
    next hc =>
      have hfree : ¬ Bare isSeparator line (before ++ current).length := fun hb =>
        ne_quote_of_isSeparator (hbare.mp hb).1 hc
      refine ih hnext hbefore (hmore hfree) ?_ h
      rw [← List.append_assoc, hc, even_quote_concat, ← hquoted]
      cases quoted <;> simp
    next hc =>
      have hsame := count_quote_concat (s := before ++ current) hc
      split at h
      next hsep =>
        obtain ⟨found, hfound, rfl⟩ := Option.map_eq_some_iff.mp h
        have hsplit : line = (before ++ current ++ [c]) ++ [] ++ rest := by
          rw [hline, List.append_nil, List.append_assoc _ [c], List.singleton_append]
        have hstart : (before ++ current ++ [c]).length = (before ++ current).length + 1 :=
          List.length_append
        have hlast : Bare isSeparator line ((before ++ current ++ [c]).length - 1) := by
          rw [hstart]
          exact hbare.mpr hsep
        have heven : Even ((before ++ current ++ [c] ++ []).count '"') := by
          rw [List.append_nil, hsame]
          exact hquoted.mp hsep.2
        obtain ⟨spans, hcut⟩ := ih hsplit (.inr hlast) (fun i hi hlt => by
          rw [List.append_nil] at hlt
          omega) (iff_of_true rfl heven) hfound
        rw [hstart] at hcut
        exact hcut.consToken hline hbefore hcurrent (.inr (hbare.mpr hsep))
      next hsep =>
        refine ih hnext hbefore (hmore fun hb => hsep (hbare.mp hb)) ?_ h
        rw [← List.append_assoc, hsame, hquoted]

/-- The tokens of a line are its pieces, in order. -/
theorem exists_pieces (h : tokens? line = some tokens) : ∃ spans, Cut line 0 tokens spans := by
  have hline : line = [] ++ [] ++ line := rfl
  have heven : Even (([] ++ [] : List Char).count '"') := Even.zero
  exact exists_cut hline (.inl rfl) (fun i hi hlt => absurd hlt (Nat.not_lt_zero i))
    (iff_of_true rfl heven) h

/-- What a place has to do with the pieces: it is in one of them, or a separator outside of quotes. -/
theorem Cut.existsUnique (h : Cut line 0 tokens spans) {i : Nat} (hi : i < line.length) :
    (∃! p, p ∈ spans ∧ p.start ≤ i ∧ i < p.stop) ↔ ¬ Bare isSeparator line i := by
  constructor
  · rintro ⟨p, ⟨hp, hstart, hstop⟩, -⟩
    exact ((h.pieces p).mp hp).1.free i hstart hstop
  · intro hfree
    obtain ⟨p, hp, hstart, hstop⟩ := h.covers i (Nat.zero_le i) hi hfree
    refine ⟨p, ⟨hp, hstart, hstop⟩, ?_⟩
    rintro q ⟨hq, hqstart, hqstop⟩
    exact ((h.pieces q).mp hq).1.eq_of_overlap ((h.pieces p).mp hp).1 hqstart hqstop hstart hstop

/-- The scan passes over these characters inside of one token, and no quote is open behind them if none
was before them. -/
def Passes (s : List Char) : Prop :=
  ∀ current rest, tokensFrom current false (s ++ rest) = tokensFrom (current ++ s) false rest

/-- The scan passes over each of these tokens, and none of them is empty. -/
def AllPass (tokens : List String) : Prop :=
  ∀ token ∈ tokens, token.toList ≠ [] ∧ Passes token.toList

theorem AllPass.consToken (h : AllPass tokens) (hcurrent : Passes current) :
    AllPass (consToken current tokens) := by
  rw [Assembly.consToken]
  split
  next => exact h
  next hne =>
    refine List.forall_mem_cons.mpr ⟨?_, h⟩
    rw [String.toList_ofList]
    exact ⟨hne, hcurrent⟩

/-- The scan passes over all tokens that it finds: each of them is what was read since a separator. -/
theorem allPass_tokensFrom (h : tokensFrom current quoted rest = some tokens)
    (hcurrent : ∀ front back, tokensFrom front false (current ++ back) =
      tokensFrom (front ++ current) quoted back) : AllPass tokens := by
  induction rest generalizing current quoted tokens with
  | nil =>
    rw [tokensFrom] at h
    split at h
    next => cases h
    next hclosed =>
      obtain rfl := Option.some.inj h
      obtain rfl := Bool.eq_false_of_not_eq_true hclosed
      have hnone : AllPass [] := fun _ hmem => absurd hmem List.not_mem_nil
      exact hnone.consToken hcurrent
  | cons c rest ih =>
    have hnext : ∀ front back, tokensFrom front false (current ++ [c] ++ back) =
        tokensFrom (front ++ current) quoted (c :: back) := by
      intro front back
      rw [List.append_assoc, hcurrent, List.singleton_append]
    rw [tokensFrom] at h
    split at h
    next hc =>
      refine ih h fun front back => ?_
      rw [hnext, tokensFrom, if_pos hc, List.append_assoc]
    next hc =>
      split at h
      next hsep =>
        obtain ⟨found, hfound, rfl⟩ := Option.map_eq_some_iff.mp h
        obtain ⟨-, rfl⟩ := hsep
        refine (ih hfound fun front back => ?_).consToken hcurrent
        rw [List.nil_append, List.append_nil]
      next hsep =>
        refine ih h fun front back => ?_
        rw [hnext, tokensFrom, if_neg hc, if_neg hsep, List.append_assoc]

/-- Tokens with one separator between any two are found again. -/
theorem AllPass.tokens?_joined {s : List Char} (h : AllPass tokens) (hjoined : Joined tokens s) :
    tokens? s = some tokens := by
  rw [tokens?]
  induction hjoined with
  | nil => rfl
  | @last token =>
    obtain ⟨hne, hpasses⟩ := List.forall_mem_singleton.mp h
    rw [← List.append_nil token.toList, hpasses, List.nil_append, tokensFrom,
      if_neg Bool.false_ne_true, consToken_of_ne_nil hne, String.ofList_toList]
  | @more token next tokens c rest hc _ ih =>
    obtain ⟨⟨hne, hpasses⟩, hrest⟩ := List.forall_mem_cons.mp h
    rw [hpasses, List.nil_append, tokensFrom, if_neg (ne_quote_of_isSeparator hc), if_pos ⟨hc, rfl⟩,
      ih hrest, Option.map_eq_map, Option.map_some, consToken_of_ne_nil hne, String.ofList_toList]

theorem leads_of_bare {p : Char → Bool} {c : Char} (hbefore : ∀ i, ¬ Bare p before i)
    (hc : p c = true) (heven : Even (before.count '"')) : Leads p before (before ++ c :: rest) := by
  refine ⟨List.prefix_append _ _, hbefore, fun q hq hfree => ?_⟩
  obtain ⟨tail, htail⟩ := hq
  rcases List.append_eq_append_iff.mp htail with ⟨back, hback, -⟩ | ⟨back, rfl, hback⟩
  · exact ⟨back, hback.symm⟩
  · cases back with
    | nil => rw [List.append_nil]
    | cons d back =>
      obtain ⟨rfl, -⟩ := List.cons.inj hback
      exact absurd (bare_append_length.mpr ⟨hc, heven⟩) (hfree _)

/-- The part of a line before its comment is all that can be read without a bare semicolon. -/
theorem leads_uncommentedFrom (hbefore : ∀ i, ¬ Bare (· = ';') before i)
    (hquoted : quoted = false ↔ Even (before.count '"')) :
    Leads (· = ';') (before ++ uncommentedFrom quoted rest) (before ++ rest) := by
  induction rest generalizing before quoted with
  | nil =>
    rw [uncommentedFrom, List.append_nil]
    exact ⟨List.prefix_rfl, hbefore, fun q hq _ => hq⟩
  | cons c rest ih =>
    have hsplit := List.append_cons before c
    rw [uncommentedFrom]
    split
    next hc =>
      have hplain : ¬ decide (c = ';') = true := by
        rw [hc]
        decide
      rw [hsplit rest, hsplit (uncommentedFrom _ rest)]
      refine ih (not_bare_concat hbefore fun h => hplain h.1) ?_
      rw [hc, even_quote_concat, ← hquoted]
      cases quoted <;> simp
    next hc =>
      split
      next hcomment =>
        rw [List.append_nil]
        exact leads_of_bare hbefore (decide_eq_true hcomment.1) (hquoted.mp hcomment.2)
      next hcomment =>
        rw [hsplit rest, hsplit (uncommentedFrom _ rest)]
        refine ih (not_bare_concat hbefore fun h => hcomment ?_) ?_
        · exact ⟨of_decide_eq_true h.1, hquoted.mpr h.2⟩
        · rw [count_quote_concat hc, hquoted]

end

/-- A line has no tokens exactly if its number of quotes is odd. Otherwise its tokens are its pieces in
order, so that every place is in exactly one of them or holds a separator outside of quotes, and they
are found again behind single separators. The part of a line before its comment is the longest one
without a semicolon outside of quotes, and has no comment itself. A scan of the bytes that cuts the
tokens and this part out of the line finds the same. -/
theorem tokens_maximal (line : List Char) :
    (tokens? line = none ↔ Odd (line.count '"')) ∧
    (∀ tokens, tokens? line = some tokens →
      (∃ spans : List Span, spans.map (fun p => String.ofList (p.text line)) = tokens ∧
        spans.Pairwise (fun p q => p.stop < q.start) ∧ (∀ p, p ∈ spans ↔ p.IsPiece line) ∧
        ∀ i < line.length, (∃! p, p ∈ spans ∧ p.start ≤ i ∧ i < p.stop) ↔
          ¬ Bare isSeparator line i) ∧
      ∀ s, Joined tokens s → tokens? s = some tokens) ∧
    Leads (· = ';') (uncommented line) line ∧
    uncommented (uncommented line) = uncommented line ∧
    Checked.tokens line = some (tokens? line) ∧
    Checked.uncommented line = some (uncommented line) := by
  refine ⟨?_, fun tokens h => ⟨?_, fun s hjoined => ?_⟩, ?_, ?_, ?_, ?_⟩
  · rw [← Nat.not_even_iff_odd, ← isSome_tokens?, Option.not_isSome_iff_eq_none]
  · obtain ⟨spans, hcut⟩ := exists_pieces h
    refine ⟨spans, hcut.texts, hcut.ordered, fun p => ?_, fun i hi => hcut.existsUnique hi⟩
    rw [hcut.pieces p]
    exact and_iff_left (Nat.zero_le _)
  · exact (allPass_tokensFrom h fun front back => by
      rw [List.nil_append, List.append_nil]).tokens?_joined hjoined
  · have hnone : ∀ i, ¬ Bare (· = ';') [] i := fun i h => absurd (lt_length_of_bare h) (Nat.not_lt_zero i)
    exact leads_uncommentedFrom hnone (iff_of_true rfl Even.zero)
  · exact uncommentedFrom_uncommentedFrom false line
  · exact Checked.tokens_eq line
  · exact Checked.uncommentedFrom_eq (List.nil_append line).symm false

/-- Quotes may open and close inside of a token. -/
example : tokens? "a\"b ,c\"d,, é".toList = some ["a\"b ,c\"d", "é"] := by decide

end RegisterMachine.Assembly
