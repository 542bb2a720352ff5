import Wiselib.BlockMemory.ChunkMapBlock

/-!
# Searching the chunk map block

`find` and `summary` of `ChunkMapBlock`.  Both go through the words of each
mapped block and count runs of free chunks that touch the border of a word; both
leave a mapped block early when what is left of it cannot help them.

## Strategy

`longest` is the longest run counted in what is left of a mapped block, without
the early exits.

* `findFrom_isSome` and `summaryFrom_eq` say what both scans make of it, and
  `find_isSome_iff` puts them together.
* `findFrom_run`: the position `find` keeps is where the run it counts starts.
  It counts words by `BLOCKWORDS` and positions by `BLOCKBITS`.
-/

namespace Wiselib.ChunkMap

open WordBits

variable {k : ℕ}

/-! ## Runs at the ends of a word -/

def onesPrefixFrom : ℕ → BitVec k → ℕ
  | 0, _ => 0
  | fuel + 1, w => if w.getLsbD 0 then onesPrefixFrom fuel (w >>> 1) + 1 else 0

/-- `ones_prefix`; after as many shifts as there are bits nothing is left. -/
def onesPrefix (w : BitVec k) : ℕ := onesPrefixFrom k w

def onesPostfixFrom : ℕ → BitVec k → ℕ
  | 0, _ => 0
  | fuel + 1, w => if w.msb then onesPostfixFrom fuel (w <<< 1) + 1 else 0

/-- `ones_postfix`. -/
def onesPostfix (w : BitVec k) : ℕ := onesPostfixFrom k w

theorem onesPrefixFrom_bit {fuel : ℕ} {w : BitVec k} {i : ℕ} (hi : i < onesPrefixFrom fuel w) :
    w.getLsbD i = true := by
  induction fuel generalizing w i with
  | zero => simp [onesPrefixFrom] at hi
  | succ fuel ih =>
      rw [onesPrefixFrom] at hi
      split at hi
      · rename_i hfirst
        cases i with
        | zero => exact hfirst
        | succ i =>
            have hrest := ih (w := w >>> 1) (i := i) (by omega)
            rwa [BitVec.getLsbD_ushiftRight, Nat.add_comm] at hrest
      · omega

theorem onesPrefixFrom_le (fuel : ℕ) (w : BitVec k) : onesPrefixFrom fuel w ≤ fuel := by
  induction fuel generalizing w with
  | zero => exact le_rfl
  | succ fuel ih =>
      rw [onesPrefixFrom]
      split
      · exact Nat.succ_le_succ (ih _)
      · exact Nat.zero_le _

theorem onesPostfixFrom_le (fuel : ℕ) (w : BitVec k) : onesPostfixFrom fuel w ≤ fuel := by
  induction fuel generalizing w with
  | zero => exact le_rfl
  | succ fuel ih =>
      rw [onesPostfixFrom]
      split
      · exact Nat.succ_le_succ (ih _)
      · exact Nat.zero_le _

theorem onesPostfixFrom_bit {fuel : ℕ} {w : BitVec k} {i : ℕ} (hfuel : fuel ≤ k)
    (hi : i < onesPostfixFrom fuel w) : w.getLsbD (k - 1 - i) = true := by
  induction fuel generalizing w i with
  | zero => simp [onesPostfixFrom] at hi
  | succ fuel ih =>
      rw [onesPostfixFrom] at hi
      split at hi
      · rename_i hlast
        cases i with
        | zero => rwa [BitVec.msb_eq_getLsbD_last] at hlast
        | succ i =>
            have hle := onesPostfixFrom_le fuel (w <<< 1)
            have hrest := ih (w := w <<< 1) (i := i) (by omega) (by omega)
            rw [BitVec.getLsbD_shiftLeft] at hrest
            simp only [Bool.and_eq_true] at hrest
            rw [show k - 1 - (i + 1) = k - 1 - i - 1 by omega]
            exact hrest.2
      · omega

/-! ## The scans -/

section Scans

variable (layout : Layout) (data : layout.Data)

/-- The loop of `find` over the words of a mapped block.  None when it is left without a
return; what is returned is none for `-1`. -/
def findFrom (n block : ℕ) :
    (remaining word bitsLeft bitsFound : ℕ) → (start : Option ℕ) → Option (Option ℕ)
  | 0, _, _, _, _ => none
  | remaining + 1, word, bitsLeft, bitsFound, start =>
      let w := data (word + block * layout.blockWords)
      let here := block * layout.blockBits + word * layout.wordBits
      let left := bitsLeft - layout.wordBits
      if w = filled true then
        let bitsFound := bitsFound + layout.wordBits
        let start := start <|> some here
        if n ≤ bitsFound then some start
        else if bitsFound + left < n then none
        else findFrom n block remaining (word + 1) left bitsFound start
      else
        let pre := onesPrefix w
        let post := onesPostfix w
        let start := if pre ≠ 0 then start <|> some here else start
        if n ≤ bitsFound + pre then some start
        else if post ≠ 0 then
          let start := some (block * layout.blockBits + (word + 1) * layout.wordBits - post)
          if n ≤ post then some start
          else if post + left < n then none
          else findFrom n block remaining (word + 1) left post start
        else if left < n then none
        else findFrom n block remaining (word + 1) left 0 none

/-- The loop of `find` over the mapped blocks. -/
def findBlocks (n : ℕ) : (remaining block : ℕ) → Option ℕ
  | 0, _ => none
  | remaining + 1, block =>
      match findFrom layout data n block layout.blockWords 0 layout.blockBits 0 none with
      | some start => start
      | none => findBlocks n remaining (block + 1)

/-- `find`; none is `-1`. -/
def find (n : ℕ) : Option ℕ := findBlocks layout data n layout.blockBlocks 0

/-- `if(bits_found > s) { s = bits_found; }`, in `summary_t`. -/
def raise (s bitsFound : ℕ) : ℕ :=
  if s < bitsFound then bitsFound % 2 ^ layout.summaryBits else s

/-- The loop of `summary` over the words of a mapped block. -/
def summaryFrom (block : ℕ) : (remaining word bitsLeft bitsFound s : ℕ) → ℕ
  | 0, _, _, _, s => s
  | remaining + 1, word, bitsLeft, bitsFound, s =>
      let w := data (word + block * layout.blockWords)
      let left := bitsLeft - layout.wordBits
      if w = filled true then
        let bitsFound := bitsFound + layout.wordBits
        let s := raise layout s bitsFound
        if bitsFound + left ≤ s then s
        else summaryFrom block remaining (word + 1) left bitsFound s
      else
        let s := raise layout s (bitsFound + onesPrefix w)
        let bitsFound := onesPostfix w
        let s := raise layout s bitsFound
        if bitsFound + left ≤ s then s
        else summaryFrom block remaining (word + 1) left bitsFound s

/-- The loop of `summary` over the mapped blocks. -/
def summaryBlocks : (remaining block s : ℕ) → ℕ
  | 0, _, s => s
  | remaining + 1, block, s =>
      summaryBlocks remaining (block + 1)
        (summaryFrom layout data block layout.blockWords 0 layout.blockBits 0 s)

/-- `summary`. -/
def summary : ℕ := summaryBlocks layout data layout.blockBlocks 0 0

/-- The longest run that is counted in the words that are left. -/
def longest (block : ℕ) : (remaining word bitsFound : ℕ) → ℕ
  | 0, _, _ => 0
  | remaining + 1, word, bitsFound =>
      let w := data (word + block * layout.blockWords)
      if w = filled true then
        max (bitsFound + layout.wordBits)
          (longest block remaining (word + 1) (bitsFound + layout.wordBits))
      else
        max (max (bitsFound + onesPrefix w) (onesPostfix w))
          (longest block remaining (word + 1) (onesPostfix w))

end Scans

variable {layout : Layout} {data : layout.Data}

/-! ## Both scans count the same runs -/

theorem blockWords_mul_le (layout : Layout) :
    layout.blockWords * layout.wordBits ≤ layout.blockBits :=
  Nat.div_mul_le_self _ _

theorem longest_le (data : layout.Data) (block : ℕ) : ∀ remaining word bitsFound : ℕ,
    longest layout data block remaining word bitsFound ≤
      bitsFound + remaining * layout.wordBits
  | 0, _, _ => Nat.zero_le _
  | remaining + 1, word, bitsFound => by
      have hpre := onesPrefixFrom_le layout.wordBits (data (word + block * layout.blockWords))
      have hpost := onesPostfixFrom_le layout.wordBits (data (word + block * layout.blockWords))
      have hfull := longest_le data block remaining (word + 1) (bitsFound + layout.wordBits)
      have hrest := longest_le data block remaining (word + 1)
        (onesPostfix (data (word + block * layout.blockWords)))
      rw [longest, Nat.add_mul, Nat.one_mul]
      split
      · omega
      · rw [onesPrefix, onesPostfix] at *
        omega

/-- **`find`** returns from a mapped block when a run that is counted is long enough. -/
theorem findFrom_isSome {n block : ℕ} (hn : 1 ≤ n) : ∀ {remaining word bitsLeft bitsFound : ℕ}
    {start : Option ℕ}, remaining * layout.wordBits ≤ bitsLeft →
    ((findFrom layout data n block remaining word bitsLeft bitsFound start).isSome ↔
      n ≤ longest layout data block remaining word bitsFound)
  | 0, _, _, _, _, _ => by
      simp only [findFrom, longest, Option.isSome_none]
      simp
      omega
  | remaining + 1, word, bitsLeft, bitsFound, start, hleft => by
      rw [Nat.add_mul, Nat.one_mul] at hleft
      have hrest : remaining * layout.wordBits ≤ bitsLeft - layout.wordBits := by omega
      have hbound := longest_le data block remaining (word + 1)
      rw [findFrom, longest]
      dsimp only
      split
      · specialize hbound (bitsFound + layout.wordBits)
        split
        · simp only [Option.isSome_some, true_iff]
          omega
        · split
          · simp only [Option.isSome_none, Bool.false_eq_true, false_iff]
            omega
          · rw [findFrom_isSome hn hrest]
            omega
      · specialize hbound (onesPostfix (data (word + block * layout.blockWords)))
        split
        · simp only [Option.isSome_some, true_iff]
          omega
        · by_cases hpost : onesPostfix (data (word + block * layout.blockWords)) = 0
          · rw [if_neg (not_not.2 hpost)]
            rw [hpost] at hbound ⊢
            split
            · simp only [Option.isSome_none, Bool.false_eq_true, false_iff]
              omega
            · rw [findFrom_isSome hn hrest]
              omega
          · rw [if_pos hpost]
            split
            · simp only [Option.isSome_some, true_iff]
              omega
            · split
              · simp only [Option.isSome_none, Bool.false_eq_true, false_iff]
                omega
              · rw [findFrom_isSome hn hrest]
                omega

theorem raise_eq {s bitsFound : ℕ} (hfound : bitsFound < 2 ^ layout.summaryBits) :
    raise layout s bitsFound = max s bitsFound := by
  rw [raise]
  split
  · rw [Nat.mod_eq_of_lt hfound]
    omega
  · omega

/-- **`summary`** goes up to the longest run that is counted. -/
theorem summaryFrom_eq {block size : ℕ} (hsize : size < 2 ^ layout.summaryBits) :
    ∀ {remaining word bitsLeft bitsFound s : ℕ}, remaining * layout.wordBits ≤ bitsLeft →
      bitsFound + remaining * layout.wordBits ≤ size →
      summaryFrom layout data block remaining word bitsLeft bitsFound s =
        max s (longest layout data block remaining word bitsFound)
  | 0, _, _, _, s, _, _ => by rw [summaryFrom, longest, Nat.max_zero]
  | remaining + 1, word, bitsLeft, bitsFound, s, hleft, hfits => by
      rw [Nat.add_mul, Nat.one_mul] at hleft hfits
      have hrest : remaining * layout.wordBits ≤ bitsLeft - layout.wordBits := by omega
      have hbound := longest_le data block remaining (word + 1)
      have hpre := onesPrefixFrom_le layout.wordBits (data (word + block * layout.blockWords))
      have hpost := onesPostfixFrom_le layout.wordBits (data (word + block * layout.blockWords))
      rw [← onesPrefix] at hpre
      rw [← onesPostfix] at hpost
      rw [summaryFrom, longest]
      dsimp only
      split
      · specialize hbound (bitsFound + layout.wordBits)
        rw [raise_eq (by omega)]
        split
        · omega
        · rw [summaryFrom_eq hsize hrest (by omega)]
          omega
      · specialize hbound (onesPostfix (data (word + block * layout.blockWords)))
        rw [raise_eq (by omega), raise_eq (by omega)]
        split
        · omega
        · rw [summaryFrom_eq hsize hrest (by omega)]
          omega

/-! ## The position is where the run starts -/

/-- Bit `i` of the words of a mapped block. -/
def blockBit (data : layout.Data) (block i : ℕ) : Bool :=
  bit data (block * layout.blockWords * layout.wordBits + i)

theorem blockBit_word {block word j : ℕ} (hj : j < layout.wordBits) :
    blockBit data block (word * layout.wordBits + j) =
      (data (word + block * layout.blockWords)).getLsbD j := by
  have hpos : block * layout.blockWords * layout.wordBits + (word * layout.wordBits + j) =
      j + layout.wordBits * (word + block * layout.blockWords) := by ring
  rw [blockBit, bit, hpos, Nat.add_mul_div_left _ _ layout.wordBits_pos, Nat.div_eq_of_lt hj,
    Nat.zero_add, Nat.add_mul_mod_self_left, Nat.mod_eq_of_lt hj]

/-- What `find` knows in front of a word: the bits it has found end there, and `start` is where
they begin. -/
structure Counted (data : layout.Data) (block word bitsFound : ℕ) (start : Option ℕ) : Prop where
  start_eq : start = if bitsFound = 0 then none
    else some (block * layout.blockBits + (word * layout.wordBits - bitsFound))
  found_le : bitsFound ≤ word * layout.wordBits
  free : ∀ i, word * layout.wordBits - bitsFound ≤ i → i < word * layout.wordBits →
    blockBit data block i = true

/-- `n` free chunks in a row, from position `p` of the words of a mapped block. -/
def FreeFrom (data : layout.Data) (block n p : ℕ) : Prop :=
  ∀ i, p ≤ i → i < p + n → blockBit data block i = true

theorem counted_zero (data : layout.Data) (block word : ℕ) : Counted data block word 0 none :=
  ⟨rfl, Nat.zero_le _, fun i hi hlt => by omega⟩

theorem Counted.start_or {block word bitsFound : ℕ} {start : Option ℕ}
    (hcounted : Counted data block word bitsFound start) :
    (start <|> some (block * layout.blockBits + word * layout.wordBits)) =
      some (block * layout.blockBits + (word * layout.wordBits - bitsFound)) := by
  rw [hcounted.start_eq]
  split
  · rename_i hzero
    rw [hzero]
    rfl
  · rfl

theorem Counted.prefix_free {block word bitsFound count : ℕ} {start : Option ℕ}
    (hcounted : Counted data block word bitsFound start) (hcount : count ≤ layout.wordBits)
    (hones : ∀ j < count, (data (word + block * layout.blockWords)).getLsbD j = true) :
    FreeFrom data block (bitsFound + count) (word * layout.wordBits - bitsFound) := by
  intro i hi hlt
  have hle := hcounted.found_le
  rcases lt_or_ge i (word * layout.wordBits) with hbefore | hword
  · exact hcounted.free i hi hbefore
  · obtain ⟨j, rfl⟩ := Nat.exists_eq_add_of_le hword
    rw [blockBit_word (by omega)]
    exact hones j (by omega)

theorem postfix_free (data : layout.Data) (block word : ℕ) :
    FreeFrom data block (onesPostfix (data (word + block * layout.blockWords)))
      ((word + 1) * layout.wordBits - onesPostfix (data (word + block * layout.blockWords))) := by
  intro i hi hlt
  have hle := onesPostfixFrom_le layout.wordBits (data (word + block * layout.blockWords))
  rw [← onesPostfix] at hle
  rw [Nat.add_mul, Nat.one_mul] at hi hlt
  have hbit := onesPostfixFrom_bit (w := data (word + block * layout.blockWords))
    (i := word * layout.wordBits + layout.wordBits - 1 - i) le_rfl
    (by rw [← onesPostfix]; omega)
  obtain ⟨j, rfl⟩ := Nat.exists_eq_add_of_le (show word * layout.wordBits ≤ i by omega)
  rw [blockBit_word (by omega)]
  rwa [show layout.wordBits - 1 - (word * layout.wordBits + layout.wordBits - 1 -
    (word * layout.wordBits + j)) = j by omega] at hbit

theorem counted_of_free {block word bitsFound : ℕ}
    (hle : bitsFound ≤ (word + 1) * layout.wordBits)
    (hfree : FreeFrom data block bitsFound ((word + 1) * layout.wordBits - bitsFound)) :
    Counted data block (word + 1) bitsFound (if bitsFound = 0 then none
      else some (block * layout.blockBits + ((word + 1) * layout.wordBits - bitsFound))) :=
  ⟨rfl, hle, fun i hi hlt => hfree i hi (by omega)⟩

/-- **What `find` returns** from a mapped block is where a run of its words starts. -/
theorem findFrom_run {n block : ℕ} (hn : 1 ≤ n) :
    ∀ {remaining word bitsLeft bitsFound : ℕ} {start result : Option ℕ},
      Counted data block word bitsFound start →
      findFrom layout data n block remaining word bitsLeft bitsFound start = some result →
      ∃ p, result = some (block * layout.blockBits + p) ∧
        p + n ≤ (word + remaining) * layout.wordBits ∧ FreeFrom data block n p
  | 0, _, _, _, _, _, _, hfind => by simp [findFrom] at hfind
  | remaining + 1, word, bitsLeft, bitsFound, start, result, hcounted, hfind => by
      have hle := hcounted.found_le
      have hsize : (word + (remaining + 1)) * layout.wordBits =
          word * layout.wordBits + layout.wordBits + remaining * layout.wordBits := by ring
      have hnext : (word + 1) * layout.wordBits = word * layout.wordBits + layout.wordBits := by
        ring
      have hones : ∀ {count}, count ≤ layout.wordBits →
          (∀ j < count, (data (word + block * layout.blockWords)).getLsbD j = true) →
          FreeFrom data block (bitsFound + count) (word * layout.wordBits - bitsFound) :=
        fun hcount hbits => hcounted.prefix_free hcount hbits
      -- what is found at the end of the word is where the next one goes on
      have hgo : ∀ found : ℕ, found ≤ (word + 1) * layout.wordBits →
          FreeFrom data block found ((word + 1) * layout.wordBits - found) →
          findFrom layout data n block remaining (word + 1) (bitsLeft - layout.wordBits) found
            (if found = 0 then none else
              some (block * layout.blockBits + ((word + 1) * layout.wordBits - found))) =
            some result →
          ∃ p, result = some (block * layout.blockBits + p) ∧
            p + n ≤ (word + (remaining + 1)) * layout.wordBits ∧ FreeFrom data block n p := by
        intro found hfound hfree hrest
        obtain ⟨p, hresult, hend, hrun⟩ := findFrom_run hn (counted_of_free hfound hfree) hrest
        exact ⟨p, hresult, by rwa [show word + (remaining + 1) = word + 1 + remaining by omega],
          hrun⟩
      rw [findFrom] at hfind
      dsimp only at hfind
      split at hfind
      · rename_i hfull
        have hfree := hones le_rfl fun j hj => by rw [hfull, getLsbD_filled hj]
        rw [hcounted.start_or] at hfind
        split at hfind
        · obtain rfl := Option.some.inj hfind
          exact ⟨_, rfl, by omega, fun i hi hlt => hfree i hi (by omega)⟩
        · split at hfind
          · simp at hfind
          · have hpos := layout.wordBits_pos
            refine hgo (bitsFound + layout.wordBits) (by omega) ?_ ?_
            · rwa [hnext, Nat.add_sub_add_right]
            · rw [if_neg (by omega), hnext, Nat.add_sub_add_right]
              exact hfind
      · have hpre := onesPrefixFrom_le layout.wordBits (data (word + block * layout.blockWords))
        rw [← onesPrefix] at hpre
        have hfree := hones hpre fun j hj => onesPrefixFrom_bit hj
        have hpost := onesPostfixFrom_le layout.wordBits (data (word + block * layout.blockWords))
        rw [← onesPostfix] at hpost
        have hend := postfix_free data block word
        split at hfind
        · have hstart : (if onesPrefix (data (word + block * layout.blockWords)) ≠ 0 then
              start <|> some (block * layout.blockBits + word * layout.wordBits) else start) =
              some (block * layout.blockBits + (word * layout.wordBits - bitsFound)) := by
            split
            · exact hcounted.start_or
            · rw [hcounted.start_eq, if_neg (by omega)]
          rw [hstart] at hfind
          obtain rfl := Option.some.inj hfind
          exact ⟨_, rfl, by omega, fun i hi hlt => hfree i hi (by omega)⟩
        · have hplace : block * layout.blockBits + (word + 1) * layout.wordBits -
                onesPostfix (data (word + block * layout.blockWords)) =
              block * layout.blockBits + ((word + 1) * layout.wordBits -
                onesPostfix (data (word + block * layout.blockWords))) := by omega
          rw [hplace] at hfind
          split at hfind
          · rename_i hsome
            split at hfind
            · obtain rfl := Option.some.inj hfind
              exact ⟨_, rfl, by omega, fun i hi hlt => hend i hi (by omega)⟩
            · split at hfind
              · simp at hfind
              · refine hgo _ (by omega) hend ?_
                rw [if_neg hsome]
                exact hfind
          · split at hfind
            · simp at hfind
            · exact hgo 0 (Nat.zero_le _) (fun i hi hlt => by omega) hfind

/-! ## All mapped blocks -/

theorem findFrom_cases (data : layout.Data) {n : ℕ} (hn : 1 ≤ n) (block : ℕ) :
    (findFrom layout data n block layout.blockWords 0 layout.blockBits 0 none = none ∧
      longest layout data block layout.blockWords 0 0 < n) ∨
    ∃ p, findFrom layout data n block layout.blockWords 0 layout.blockBits 0 none =
        some (some (block * layout.blockBits + p)) ∧
      n ≤ longest layout data block layout.blockWords 0 0 ∧
      p + n ≤ layout.blockWords * layout.wordBits ∧ FreeFrom data block n p := by
  have hlongest : (findFrom layout data n block layout.blockWords 0 layout.blockBits 0
      none).isSome ↔ n ≤ longest layout data block layout.blockWords 0 0 :=
    findFrom_isSome hn (blockWords_mul_le layout)
  cases hfind : findFrom layout data n block layout.blockWords 0 layout.blockBits 0 none with
  | none =>
      rw [hfind, Option.isSome_none] at hlongest
      exact .inl ⟨rfl, not_le.1 fun h => by simpa using hlongest.2 h⟩
  | some result =>
      rw [hfind, Option.isSome_some] at hlongest
      obtain ⟨p, rfl, hend, hfree⟩ := findFrom_run hn (counted_zero data block 0) hfind
      exact .inr ⟨p, rfl, hlongest.1 rfl, by rwa [Nat.zero_add] at hend, hfree⟩

theorem findBlocks_cases (data : layout.Data) {n : ℕ} (hn : 1 ≤ n) : ∀ remaining block : ℕ,
    (findBlocks layout data n remaining block = none ∧
      ∀ b, block ≤ b → b < block + remaining →
        longest layout data b layout.blockWords 0 0 < n) ∨
    ∃ b p, findBlocks layout data n remaining block = some (b * layout.blockBits + p) ∧
      b < block + remaining ∧ block ≤ b ∧ n ≤ longest layout data b layout.blockWords 0 0 ∧
      p + n ≤ layout.blockWords * layout.wordBits ∧ FreeFrom data b n p
  | 0, block => .inl ⟨rfl, fun b hle hlt => by omega⟩
  | remaining + 1, block => by
      rw [findBlocks]
      obtain ⟨hfind, hshort⟩ | ⟨p, hfind, hlong, hend, hfree⟩ := findFrom_cases data hn block
      · rw [hfind]
        obtain ⟨hrest, hall⟩ | ⟨b, p, hrest, hlt, hle, hrun⟩ :=
          findBlocks_cases data hn remaining (block + 1)
        · refine .inl ⟨hrest, fun b hle hlt => ?_⟩
          rcases hle.eq_or_lt with rfl | hlater
          · exact hshort
          · exact hall b hlater (by omega)
        · exact .inr ⟨b, p, hrest, by omega, by omega, hrun⟩
      · rw [hfind]
        exact .inr ⟨block, p, rfl, by omega, le_rfl, hlong, hend, hfree⟩

theorem le_summaryBlocks_iff (data : layout.Data) {n : ℕ}
    (hsize : layout.blockWords * layout.wordBits < 2 ^ layout.summaryBits) :
    ∀ remaining block s : ℕ, n ≤ summaryBlocks layout data remaining block s ↔
      n ≤ s ∨ ∃ b, block ≤ b ∧ b < block + remaining ∧
        n ≤ longest layout data b layout.blockWords 0 0
  | 0, block, s => by
      rw [summaryBlocks]
      refine ⟨.inl, ?_⟩
      rintro (hs | ⟨b, hle, hlt, -⟩)
      · exact hs
      · omega
  | remaining + 1, block, s => by
      rw [summaryBlocks, le_summaryBlocks_iff data hsize,
        summaryFrom_eq hsize (blockWords_mul_le layout) (by rw [Nat.zero_add]), le_max_iff,
        or_assoc]
      refine or_congr_right ⟨?_, ?_⟩
      · rintro (hblock | ⟨b, hle, hlt, hb⟩)
        · exact ⟨block, le_rfl, by omega, hblock⟩
        · exact ⟨b, by omega, by omega, hb⟩
      · rintro ⟨b, hle, hlt, hb⟩
        rcases hle.eq_or_lt with rfl | hlater
        · exact .inl hb
        · exact .inr ⟨b, hlater, by omega, hb⟩

/-- **A search agrees with the summary**, and finds free chunks of one mapped block. -/
structure Agrees (data : layout.Data) (n : ℕ) : Prop where
  isSome_iff : (find layout data n).isSome ↔ n ≤ summary layout data
  inside : ∀ start, find layout data n = some start → start + n ≤ 8 * layout.blockSize
  mapped : ∀ start, find layout data n = some start →
    ∃ block, block * layout.blockBits ≤ start ∧ start + n ≤ (block + 1) * layout.blockBits
  free : ∀ start, find layout data n = some start →
    ∀ i, start ≤ i → i < start + n → used layout data i = false

/-- The chunks of a mapped block fill whole words (or none), and `summary_t` can hold their
number. -/
def Layout.Fitting (layout : Layout) : Prop :=
  (layout.blockBits < layout.wordBits ∨ layout.blockBits % layout.wordBits = 0) ∧
    layout.blockWords * layout.wordBits < 2 ^ layout.summaryBits

theorem blockBlocks_mul_le (layout : Layout) :
    layout.blockBlocks * layout.blockBits ≤ 8 * layout.blockSize := by
  rw [Layout.blockBlocks, Nat.mul_comm 8]
  exact Nat.div_mul_le_self _ _

theorem agrees_of_fitting (hfitting : layout.Fitting) (data : layout.Data) {n : ℕ} (hn : 1 ≤ n) :
    Agrees data n := by
  obtain ⟨hwords, hsize⟩ := hfitting
  have hsummary := le_summaryBlocks_iff data (n := n) hsize layout.blockBlocks 0 0
  obtain ⟨hnone, hshort⟩ | ⟨b, p, hsome, hlt, -, hlong, hend, hfree⟩ :=
    findBlocks_cases data hn layout.blockBlocks 0
  · have hfind : find layout data n = none := hnone
    refine ⟨?_, ?_, ?_, ?_⟩
    · rw [hfind, summary, hsummary]
      simp only [Option.isSome_none, Bool.false_eq_true, false_iff]
      rintro (hzero | ⟨b, hle, hlt, hb⟩)
      · omega
      · exact absurd (hshort b hle hlt) (by omega)
    all_goals simp [hfind]
  · have hfind : find layout data n = some (b * layout.blockBits + p) := hsome
    have hfull : layout.blockWords * layout.wordBits = layout.blockBits := by
      refine hwords.elim (fun hsmall => ?_) fun hmod =>
        Nat.div_mul_cancel (Nat.dvd_of_mod_eq_zero hmod)
      rw [Layout.blockWords, Nat.div_eq_of_lt hsmall, Nat.zero_mul] at hend
      omega
    have hstop : (b + 1) * layout.blockBits ≤ 8 * layout.blockSize :=
      (Nat.mul_le_mul_right _ (by omega)).trans (blockBlocks_mul_le layout)
    rw [Nat.add_mul, Nat.one_mul] at hstop
    refine ⟨?_, ?_, ?_, ?_⟩
    · rw [hfind, summary, hsummary]
      exact iff_of_true rfl (.inr ⟨b, Nat.zero_le b, hlt, hlong⟩)
    · rintro start hstart
      obtain rfl := Option.some.inj (hfind.symm.trans hstart)
      omega
    · rintro start hstart
      obtain rfl := Option.some.inj (hfind.symm.trans hstart)
      exact ⟨b, by omega, by rw [Nat.add_mul, Nat.one_mul]; omega⟩
    · rintro start hstart i hi hlast
      obtain rfl := Option.some.inj (hfind.symm.trans hstart)
      obtain ⟨j, rfl⟩ := Nat.exists_eq_add_of_le (show b * layout.blockBits ≤ i by omega)
      have hbit := hfree j (by omega) (by omega)
      rw [blockBit, Nat.mul_assoc, hfull] at hbit
      rw [used, hbit]
      rfl

/-! ## Where they do not fit -/

theorem raise_lt {s bitsFound : ℕ} (hs : s < 2 ^ layout.summaryBits) :
    raise layout s bitsFound < 2 ^ layout.summaryBits := by
  rw [raise]
  split
  · exact Nat.mod_lt _ (Nat.two_pow_pos _)
  · exact hs

theorem summaryFrom_lt {block : ℕ} : ∀ {remaining word bitsLeft bitsFound s : ℕ},
    s < 2 ^ layout.summaryBits →
      summaryFrom layout data block remaining word bitsLeft bitsFound s < 2 ^ layout.summaryBits
  | 0, _, _, _, _, hs => hs
  | remaining + 1, _, _, _, _, hs => by
      rw [summaryFrom]
      dsimp only
      split
      · split
        · exact raise_lt hs
        · exact summaryFrom_lt (raise_lt hs)
      · split
        · exact raise_lt (raise_lt hs)
        · exact summaryFrom_lt (raise_lt (raise_lt hs))

theorem summary_lt (data : layout.Data) : summary layout data < 2 ^ layout.summaryBits := by
  have hblocks : ∀ remaining block s : ℕ, s < 2 ^ layout.summaryBits →
      summaryBlocks layout data remaining block s < 2 ^ layout.summaryBits := by
    intro remaining
    induction remaining with
    | zero => exact fun _ _ hs => hs
    | succ remaining ih => exact fun block s hs => ih _ _ (summaryFrom_lt hs)
  exact hblocks _ _ _ (Nat.two_pow_pos _)

theorem longest_filled {block : ℕ} : ∀ {remaining word bitsFound : ℕ}, 0 < remaining →
    (∀ w, word ≤ w → w < word + remaining → data (w + block * layout.blockWords) = filled true) →
    bitsFound + remaining * layout.wordBits ≤
      longest layout data block remaining word bitsFound
  | remaining + 1, word, bitsFound, _, hfull => by
      rw [longest, if_pos (hfull word le_rfl (by omega)), Nat.add_mul, Nat.one_mul]
      rcases Nat.eq_zero_or_pos remaining with rfl | hpos
      · omega
      · have hrest : bitsFound + layout.wordBits + remaining * layout.wordBits ≤
            longest layout data block remaining (word + 1) (bitsFound + layout.wordBits) :=
          longest_filled hpos fun w hle hlt => hfull w (by omega) (by omega)
        omega

theorem two_le_blockBlocks (layout : Layout) : 2 ≤ layout.blockBlocks := by
  have hpos : 0 < layout.blockBits := Nat.div_pos layout.chunkSize_le layout.chunkSize_pos
  have hle : layout.blockBits ≤ layout.blockSize := Nat.div_le_self _ _
  rw [Layout.blockBlocks, Nat.le_div_iff_mul_le hpos]
  omega

/-- A mapped block whose chunks are all free is found. -/
theorem find_isSome_of_filled (data : layout.Data) {block : ℕ}
    (hblock : block < layout.blockBlocks)
    (hwords : 0 < layout.blockWords) (hfull : ∀ w, w < layout.blockWords →
      data (w + block * layout.blockWords) = filled true) :
    ∃ b p, find layout data (layout.blockWords * layout.wordBits) =
        some (b * layout.blockBits + p) ∧
      p + layout.blockWords * layout.wordBits ≤ layout.blockWords * layout.wordBits ∧
      FreeFrom data b (layout.blockWords * layout.wordBits) p := by
  have hlong : 0 + layout.blockWords * layout.wordBits ≤
      longest layout data block layout.blockWords 0 0 :=
    longest_filled hwords fun w _ hlt => hfull w (by omega)
  obtain ⟨-, hshort⟩ | ⟨b, p, hfind, -, -, -, hend, hfree⟩ :=
    findBlocks_cases data (Nat.mul_pos hwords layout.wordBits_pos) layout.blockBlocks 0
  · have := hshort block (Nat.zero_le _) (by omega)
    omega
  · exact ⟨b, p, hfind, hend, hfree⟩

/-- With everything free, a summary that is too narrow misses what `find` finds. -/
theorem summary_fits (hall : ∀ (data : layout.Data) (n : ℕ), 1 ≤ n → Agrees data n) :
    layout.blockWords * layout.wordBits < 2 ^ layout.summaryBits := by
  by_contra hwide
  rw [not_lt] at hwide
  have hpos := (Nat.two_pow_pos layout.summaryBits).trans_le hwide
  have hwords : 0 < layout.blockWords := Nat.pos_of_mul_pos_right hpos
  let data : layout.Data := fun _ => filled true
  have hagrees := hall data _ hpos
  obtain ⟨b, p, hfind, -⟩ := find_isSome_of_filled data
    (zero_lt_two.trans_le (two_le_blockBlocks layout)) hwords fun _ _ => rfl
  have hsummary := hagrees.isSome_iff.1 (by rw [hfind]; rfl)
  have := summary_lt data
  omega

/-- With only the second mapped block free, the position lies behind what is free. -/
theorem words_fit (hall : ∀ (data : layout.Data) (n : ℕ), 1 ≤ n → Agrees data n) :
    layout.blockBits < layout.wordBits ∨ layout.blockBits % layout.wordBits = 0 := by
  by_contra hbad
  rw [not_or, not_lt] at hbad
  have hk := layout.wordBits_pos
  have hwords : 0 < layout.blockWords := Nat.div_pos hbad.1 hk
  have hpos := Nat.mul_pos hwords hk
  let data : layout.Data := fun w =>
    filled (decide (layout.blockWords ≤ w ∧ w < 2 * layout.blockWords))
  have hdata : ∀ pos, bit data pos = decide (layout.blockWords ≤ pos / layout.wordBits ∧
      pos / layout.wordBits < 2 * layout.blockWords) := fun pos =>
    getLsbD_filled (Nat.mod_lt pos hk)
  have hsecond : ∀ w, w < layout.blockWords → data (w + 1 * layout.blockWords) = filled true := by
    intro w hw
    simp only [data]
    rw [decide_eq_true (by omega)]
  obtain ⟨b, p, hfind, hend, hfree⟩ :=
    find_isSome_of_filled data (two_le_blockBlocks layout) hwords hsecond
  obtain rfl : p = 0 := by omega
  -- only the second block can have been found
  have hfirst := hfree 0 le_rfl (by omega)
  rw [blockBit, hdata, decide_eq_true_eq, Nat.add_zero, Nat.mul_div_cancel _ hk] at hfirst
  obtain rfl : b = 1 := by
    have hlt := Nat.lt_of_mul_lt_mul_right hfirst.2
    have hne : b ≠ 0 := by
      rintro rfl
      omega
    omega
  have hlast := (hall data _ hpos).free _ hfind
    (1 * layout.blockBits + 0 + layout.blockWords * layout.wordBits - 1) (by omega) (by omega)
  rw [used, hdata, Bool.not_eq_false', decide_eq_true_eq, Nat.div_lt_iff_lt_mul hk,
    Nat.mul_assoc] at hlast
  have hbits := Nat.div_add_mod' layout.blockBits layout.wordBits
  rw [← Layout.blockWords] at hbits
  omega

/-- **Searches agree with the summary**, for every content and length, exactly where the
chunks of a mapped block fill whole words and their number fits. -/
theorem agrees_iff_fitting (layout : Layout) :
    (∀ (data : layout.Data) (n : ℕ), 1 ≤ n → Agrees data n) ↔ layout.Fitting :=
  ⟨fun hall => ⟨words_fit hall, summary_fits hall⟩,
    fun hfitting data _ hn => agrees_of_fitting hfitting data hn⟩

/-- Words and `unsigned long` of 32 bits, and chunks of 9 bytes: 56 to a block. -/
def chunksOfNine : Layout where
  blockSize := 512
  chunkSize := 9
  wordBits := 32
  longBits := 32
  intBits := 32
  summaryBits := 8
  chunkSize_pos := by decide
  chunkSize_le := by decide
  wordBits_pos := by decide
  wordBits_le := by decide
  map_lt := by decide

/-- Only the second word is free: a run of 32 is reported from chunk 56 on. -/
theorem not_agrees_chunksOfNine :
    ¬ ∀ (layout : Layout) (data : layout.Data) (n : ℕ), 1 ≤ n → Agrees data n := by
  intro hall
  have hagrees := hall chunksOfNine (fun w => if w = 1 then filled true else filled false) 32
    (by decide)
  have hfind : find chunksOfNine (fun w => if w = 1 then filled true else filled false) 32 =
    some 56 := by decide +kernel
  have hlast := hagrees.free 56 hfind 64 (by decide) (by decide)
  revert hlast
  decide +kernel

end Wiselib.ChunkMap
