import Mathlib

/-!
# Bit stuffing

A stream of bits is cut into words of `width` bits.  A sender that has written
all bits of a word but the last, and all of them zero, puts a one there before it
goes on, so that no word of the stream is zero.  Sender and receiver count the
zeros of the word at hand; a receiver that has seen as many takes the one away.

## Strategy

`stuffBit` says what one bit becomes and `readBit` what is read back, both from the
same `Position`.  A read undoes a write and leaves the receiver at the position the
sender went to (`readBit_stuffBit`), so the two run in lockstep.  `WordsNonzero` is
the invariant of the sender that keeps zero words away.
-/

namespace BitStuffing

variable (width : ℕ)

theorem succ_in_word {width n : ℕ} (hne : (n + 1) % width ≠ 0) :
    (n + 1) / width = n / width ∧ (n + 1) % width = n % width + 1 := by
  have hquotient : (n + 1) / width = n / width :=
    Nat.succ_div_of_not_dvd fun hdvd => hne (Nat.eq_zero_of_dvd_of_lt
      ((Nat.dvd_mod_iff dvd_rfl).2 hdvd) (Nat.mod_lt _ (Nat.pos_of_ne_zero fun hzero => by
        subst hzero
        simp at hdvd)))
  refine ⟨hquotient, ?_⟩
  have hnext := Nat.div_add_mod' (n + 1) width
  have hold := Nat.div_add_mod' n width
  rw [hquotient] at hnext
  omega

/-- The place of the next bit of the stream and the zeros counted in its word. -/
structure Position where
  pos : ℕ
  zeros : ℕ
  deriving DecidableEq

namespace Position

/-- All bits of the word but the last are there, and zero. -/
def Full (position : Position) : Prop :=
  position.pos % width = width - 1 ∧ position.zeros = width - 1

instance (position : Position) : Decidable (position.Full width) :=
  inferInstanceAs (Decidable (_ ∧ _))

/-- The position after a bit.  Counting starts again with every word. -/
def count (position : Position) (bit : Bool) : Position where
  pos := position.pos + 1
  zeros := (if position.pos % width = 0 then 0 else position.zeros) + if bit then 0 else 1

/-- The position after the one that is put in. -/
def skip (position : Position) : Position :=
  { position with pos := position.pos + 1 }

@[simp] theorem pos_count (position : Position) (bit : Bool) :
    (position.count width bit).pos = position.pos + 1 := rfl

@[simp] theorem pos_skip (position : Position) : position.skip.pos = position.pos + 1 := rfl

/-- No more zeros are counted than the word at hand has bits. -/
def Counted (position : Position) : Prop :=
  position.pos % width ≠ 0 → position.zeros ≤ position.pos % width

/-- The word at hand has a one. -/
def HasOne (position : Position) : Prop :=
  position.pos % width ≠ 0 → position.zeros < position.pos % width

variable {width} {position : Position}

theorem Counted.count (hcounted : position.Counted width) (bit : Bool) :
    (position.count width bit).Counted width := by
  intro hne
  have hnext := (succ_in_word hne).2
  simp only [Position.count, hnext]
  have hbit : (if bit then 0 else 1) ≤ 1 := by split <;> omega
  split
  · omega
  · have := hcounted ‹_›
    omega

theorem Counted.hasOne (hcounted : position.Counted width) :
    (position.count width true).HasOne width := by
  intro hne
  have hnext := (succ_in_word hne).2
  simp only [Position.count, hnext, if_true, Nat.add_zero]
  split
  · omega
  · exact Nat.lt_succ_of_le (hcounted ‹_›)

theorem Full.ends_word (hfull : position.Full width) (hwidth : 0 < width) :
    (position.pos + 1) % width = 0 := by
  by_contra hinside
  have hnext := (succ_in_word hinside).2
  have hlt := Nat.mod_lt (position.pos + 1) hwidth
  have hlast := hfull.1
  omega

theorem HasOne.count (hone : position.HasOne width) (hstart : position.pos % width ≠ 0)
    (bit : Bool) : (position.count width bit).HasOne width := by
  intro hne
  have hnext := (succ_in_word hne).2
  have hlt := hone hstart
  have hbit : (if bit then 0 else 1) ≤ 1 := by split <;> omega
  simp only [Position.count, hnext, if_neg hstart]
  omega

theorem HasOne.not_full (hone : position.HasOne width) (hwidth : 1 < width) :
    ¬ position.Full width := by
  intro hfull
  have hlt := hone (by rw [hfull.1]; omega)
  rw [hfull.1, hfull.2] at hlt
  exact absurd hlt (lt_irrefl _)

end Position

/-! ## Sender and receiver -/

/-- What the sender writes for one bit, and where it goes on. -/
def stuffBit (position : Position) (bit : Bool) : List Bool × Position :=
  if position.Full width then ([true, bit], position.skip.count width bit)
  else ([bit], position.count width bit)

/-- The stream of some bits. -/
def stuff : Position → List Bool → List Bool × Position
  | position, [] => ([], position)
  | position, bit :: bits =>
      let written := stuffBit width position bit
      let rest := stuff written.2 bits
      (written.1 ++ rest.1, rest.2)

/-- Reads a bit; a zero in the place of the one that is put in ends the stream. -/
def readBit (stream : ℕ → Bool) (position : Position) : Option (Bool × Position) :=
  if position.Full width then
    if stream position.pos then
      some (stream (position.pos + 1), position.skip.count width (stream (position.pos + 1)))
    else none
  else some (stream position.pos, position.count width (stream position.pos))

variable {width} {position : Position} {stream : ℕ → Bool} {bit : Bool} {bits : List Bool}

/-- The stream holds `bits` from `start` on. -/
def Carries (stream : ℕ → Bool) (start : ℕ) (bits : List Bool) : Prop :=
  ∀ i (hi : i < bits.length), stream (start + i) = bits[i]

theorem Carries.append_left {start : ℕ} {more : List Bool}
    (hcarries : Carries stream start (bits ++ more)) : Carries stream start bits := by
  intro i hi
  rw [hcarries i (by simp; omega), List.getElem_append_left hi]

theorem Carries.append_right {start : ℕ} {more : List Bool}
    (hcarries : Carries stream start (bits ++ more)) :
    Carries stream (start + bits.length) more := by
  intro i hi
  have hbit := hcarries (bits.length + i) (by simp; omega)
  rw [List.getElem_append_right (by omega), ← Nat.add_assoc] at hbit
  simpa using hbit

theorem Carries.head {start : ℕ} (hcarries : Carries stream start (bit :: bits)) :
    stream start = bit :=
  hcarries 0 (by simp)

theorem Carries.tail {start : ℕ} (hcarries : Carries stream start (bit :: bits)) :
    Carries stream (start + 1) bits := by
  have hsplit : Carries stream start ([bit] ++ bits) := hcarries
  exact hsplit.append_right

theorem pos_stuffBit :
    (stuffBit width position bit).2.pos =
      position.pos + (stuffBit width position bit).1.length := by
  unfold stuffBit
  split <;> simp

theorem stuff_append (more : List Bool) :
    stuff width position (bits ++ more) =
      ((stuff width position bits).1 ++ (stuff width (stuff width position bits).2 more).1,
        (stuff width (stuff width position bits).2 more).2) := by
  induction bits generalizing position with
  | nil => rfl
  | cons bit bits ih => simp [stuff, ih]

theorem one_le_length_stuffBit : 1 ≤ (stuffBit width position bit).1.length := by
  unfold stuffBit
  split <;> simp

theorem length_le_stuff : bits.length ≤ (stuff width position bits).1.length := by
  induction bits generalizing position with
  | nil => simp
  | cons bit bits ih =>
      have hrest := @ih (stuffBit width position bit).2
      have hone := @one_le_length_stuffBit width position bit
      simp only [stuff, List.length_append, List.length_cons]
      omega

theorem pos_stuff :
    (stuff width position bits).2.pos = position.pos + (stuff width position bits).1.length := by
  induction bits generalizing position with
  | nil => simp [stuff]
  | cons bit bits ih =>
      simp only [stuff, List.length_append]
      rw [ih, pos_stuffBit, Nat.add_assoc]

theorem counted_stuffBit (hwidth : 0 < width) (hcounted : position.Counted width) :
    (stuffBit width position bit).2.Counted width := by
  unfold stuffBit
  by_cases hfull : position.Full width
  · rw [if_pos hfull]
    -- the bit is the first of its word
    intro hne
    have hstart := hfull.ends_word hwidth
    have hnext := (succ_in_word hne).2
    rw [Position.pos_skip, hstart] at hnext
    simp only [Position.count, Position.pos_skip, hstart, hnext, if_true]
    split <;> omega
  · rw [if_neg hfull]
    exact hcounted.count bit

theorem counted_stuff (hwidth : 0 < width) (hcounted : position.Counted width) :
    (stuff width position bits).2.Counted width := by
  induction bits generalizing position with
  | nil => exact hcounted
  | cons bit bits ih => exact ih (counted_stuffBit hwidth hcounted)

/-- **A read takes back a write**, and the receiver goes on where the sender does. -/
theorem readBit_stuffBit
    (hcarries : Carries stream position.pos (stuffBit width position bit).1) :
    readBit width stream position = some (bit, (stuffBit width position bit).2) := by
  unfold stuffBit readBit at *
  by_cases hfull : position.Full width
  · rw [if_pos hfull] at hcarries
    have hone : stream position.pos = true := hcarries.head
    have hbit : stream (position.pos + 1) = bit := hcarries.tail.head
    simp [hfull, hone, hbit]
  · rw [if_neg hfull] at hcarries
    have hbit : stream position.pos = bit := hcarries.head
    simp [hfull, hbit]

/-! ## Words are not zero -/

variable (width) in
/-- Every word that is complete has a one.  The word at hand has a one as well,
unless all its bits have been counted as zeros. -/
structure WordsNonzero (bits : List Bool) (position : Position) : Prop where
  length : position.pos = bits.length
  complete : ∀ word, (word + 1) * width ≤ bits.length →
    ∃ i < width, bits[word * width + i]? = some true
  partly : bits.length % width ≠ 0 →
    (∃ i < width, bits[bits.length / width * width + i]? = some true) ∨
      position.zeros = bits.length % width

variable {written : List Bool}

theorem wordsNonzero_nil (hwidth : 0 < width) : WordsNonzero width [] ⟨0, 0⟩ where
  length := rfl
  complete word hword := by
    have hpos : 0 < (word + 1) * width := by positivity
    simp only [List.length_nil] at hword
    omega
  partly hne := absurd (Nat.zero_mod width) hne

theorem getElem?_append_of_some {i : ℕ} {more : List Bool} (hone : written[i]? = some true) :
    (written ++ more)[i]? = some true := by
  obtain ⟨hlt, -⟩ := List.getElem?_eq_some_iff.1 hone
  rw [List.getElem?_append_left hlt, hone]

theorem WordsNonzero.count (hwidth : 1 < width) (hwords : WordsNonzero width written position)
    (hbit : bit = true ∨ ¬ position.Full width) :
    WordsNonzero width (written ++ [bit]) (position.count width bit) := by
  have hdiv := Nat.div_add_mod' written.length width
  have hpos : 0 < width := by omega
  have hmod := Nat.mod_lt written.length hpos
  -- the word of the new bit: it has a one, or all of it has been counted
  have hword : (∃ i < width, (written ++ [bit])[written.length / width * width + i]? = some true) ∨
      (bit = false ∧ (position.count width bit).zeros = written.length % width + 1) := by
    cases bit with
    | true =>
        refine .inl ⟨written.length % width, hmod, ?_⟩
        rw [hdiv, List.getElem?_concat_length]
    | false =>
        by_cases hstart : written.length % width = 0
        · exact .inr ⟨rfl, by simp [Position.count, hwords.length, hstart]⟩
        · rcases hwords.partly hstart with ⟨i, hi, hone⟩ | hzeros
          · exact .inl ⟨i, hi, getElem?_append_of_some hone⟩
          · exact .inr ⟨rfl, by simp [Position.count, hwords.length, hstart, hzeros]⟩
  refine ⟨by simp [hwords.length], fun word hcomplete => ?_, fun hne => ?_⟩
  · rw [List.length_append, List.length_singleton] at hcomplete
    rcases Nat.lt_or_ge written.length ((word + 1) * width) with hlast | hold
    · -- the new bit completes the word
      have hlength : written.length + 1 = (word + 1) * width := by omega
      have hsplit : written.length = word * width + (width - 1) := by
        rw [Nat.add_mul] at hlength
        omega
      have hquotient : written.length / width = word := by
        rw [hsplit, Nat.add_comm, Nat.add_mul_div_right _ _ hpos,
          Nat.div_eq_of_lt (by omega), Nat.zero_add]
      have hremainder : written.length % width = width - 1 := by
        rw [hsplit, Nat.add_comm, Nat.add_mul_mod_self_right, Nat.mod_eq_of_lt (by omega)]
      rw [hquotient] at hword
      rcases hword with hone | ⟨hzero, hzeros⟩
      · exact hone
      · exfalso
        refine (hbit.resolve_left (by simp [hzero])) ⟨by rw [hwords.length, hremainder], ?_⟩
        simp only [Position.count, hwords.length, hzero, Bool.false_eq_true, if_false,
          hremainder] at hzeros
        split at hzeros
        · omega
        · omega
    · obtain ⟨i, hi, hone⟩ := hwords.complete word hold
      exact ⟨i, hi, getElem?_append_of_some hone⟩
  · rw [List.length_append, List.length_singleton] at hne ⊢
    obtain ⟨hquotient, hremainder⟩ := succ_in_word hne
    rw [hquotient, hremainder]
    exact hword.imp_right And.right

theorem WordsNonzero.stuffBit (hwidth : 1 < width)
    (hwords : WordsNonzero width written position) :
    WordsNonzero width (written ++ (stuffBit width position bit).1)
      (stuffBit width position bit).2 := by
  unfold BitStuffing.stuffBit
  by_cases hfull : position.Full width
  · rw [if_pos hfull]
    have hone := hwords.count hwidth (.inl rfl : true = true ∨ _)
    -- the position behind the one starts a word, so nothing is counted there
    have hnext : (position.count width true).pos % width = 0 := hfull.ends_word (by omega)
    have hbit : WordsNonzero width (written ++ [true] ++ [bit])
        ((position.count width true).count width bit) :=
      hone.count hwidth (.inr fun hagain => by
        have := hagain.1
        omega)
    have hsame : (position.count width true).count width bit =
        position.skip.count width bit := by
      rw [Position.pos_count] at hnext
      simp [Position.count, Position.skip, hnext]
    rw [hsame, List.append_assoc] at hbit
    exact hbit
  · rw [if_neg hfull]
    exact hwords.count hwidth (.inr hfull)

/-- **No complete word of a stuffed stream is zero.** -/
theorem WordsNonzero.stuff (hwidth : 1 < width)
    (hwords : WordsNonzero width written position) :
    WordsNonzero width (written ++ (stuff width position bits).1)
      (stuff width position bits).2 := by
  induction bits generalizing written position with
  | nil => simpa [BitStuffing.stuff] using hwords
  | cons bit bits ih =>
      simp only [BitStuffing.stuff]
      rw [← List.append_assoc]
      exact ih (hwords.stuffBit hwidth)

end BitStuffing
