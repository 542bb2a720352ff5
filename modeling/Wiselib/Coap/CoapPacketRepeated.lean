import Wiselib.Coap.CoapPacketNumbers

/-!
# Encoding a packet twice

`packetToBuffer` counts the options in `opt_count_` of the packet while it writes
them, and starts from the count it finds there.

## Strategy

* A step of the encoder writes the same bytes whatever the buffer and the count
  were before: `Adds` says so, and gives the sizes of the options it writes.
* The steps of all options are put together by `Uniform.bind`; a loop that does
  not end does not end for any buffer and count.
* So the second encoding can differ from the first in the count only, and it
  does so unless the options are a multiple of sixteen (`sameAgain_iff`).
-/

namespace Wiselib.Coap

open ByteBuffer

namespace CoapPacket

/-! ## What a packet is written as -/

/-- The sizes of what `set_int_opt_value` writes behind the option number `delta`. -/
def intSizes (option : CoapOption) (delta : ℕ) (value : UInt32) : List ℕ :=
  (if option.number - delta > 15 then [1] else []) ++ [(intBytes value).length + 1]

/-- The size of the option for a segment.  Its length is taken from eight-bit indices. -/
def segmentSize (index length : ℕ) : ℕ :=
  if (index + length + 1) % 256 - index - 1 > 15 then length + 2 else length + 1

/-- The sizes of the options for the segments of a path from `index` on. -/
def segmentSizes (path : List UInt8) (pathLen index : ℕ) : List ℕ :=
  if index < pathLen then
    let length := mystrcspn (path.drop index)
    segmentSize index length :: segmentSizes path pathLen (index + length + 1)
  else []
termination_by pathLen - index

/-- The number of the last of some options that is set. -/
def lastOption (packet : CoapPacket) (options : List CoapOption) : ℕ :=
  options.foldl (fun delta option => if packet.isOption option then option.number else delta) 0

/-- The sizes of an option when it is set. -/
def sizesIf (packet : CoapPacket) (option : CoapOption) (sizes : List ℕ) : List ℕ :=
  if packet.isOption option then sizes else []

/-- The sizes of the options a packet is written as, with a fence post before a block option
that is too far from the option before it. -/
def writtenSizes (packet : CoapPacket) : List ℕ :=
  packet.sizesIf .contentType [(intBytes packet.contentType.toUInt32).length + 1] ++
  (packet.sizesIf .maxAge [(intBytes packet.maxAge).length + 1] ++
  (packet.sizesIf .uriHost [(intBytes packet.uriHost.toUInt32).length + 1] ++
  (packet.sizesIf .uriPort [(intBytes packet.uriPort.toUInt32).length + 1] ++
  (packet.sizesIf .uriPath (segmentSizes packet.uriPath packet.uriPathLen 0) ++
  (packet.sizesIf .observe [(intBytes packet.observe.toUInt32).length + 1] ++
  (packet.sizesIf .token [packet.tokenLen.toNat + 1] ++
  (packet.sizesIf .accept [(intBytes packet.accept.toUInt32).length + 1] ++
    packet.sizesIf .block2 (intSizes .block2
      (packet.lastOption [.contentType, .maxAge, .uriHost, .uriPort, .uriPath, .observe, .token,
        .accept]) packet.blockValue))))))))

/-- The number of options a packet is written as. -/
def optionsWritten (packet : CoapPacket) : ℕ := packet.writtenSizes.length

/-- Where the payload starts; the index has eight bits. -/
def payloadStart (packet : CoapPacket) : ℕ :=
  (coapHeaderLen + 1 + packet.writtenSizes.sum) % 256

/-- The byte with the count is no part of what is produced: the length has wrapped around to
less than two bytes, or the payload starts in front of that byte and is written over it. -/
def CountHidden (packet : CoapPacket) : Prop :=
  (packet.payloadStart + packet.payloadLen.toNat) % 256 ≤ 1 ∨
    packet.payloadStart ≤ 1 ∧
      1 < packet.payloadStart + (packet.payload.take packet.payloadLen.toNat).length

instance (packet : CoapPacket) : Decidable packet.CountHidden :=
  inferInstanceAs (Decidable (_ ∨ _))

/-- A second encoding, into the buffer of the first, produces as many bytes and the same. -/
def SameAgain (encoded : CoapPacket) (bytes : ℕ → UInt8) (length : UInt8) : Prop :=
  ∃ again written, encoded.packetToBuffer bytes = some (again, written, length) ∧
    read written 0 length.toNat = read bytes 0 length.toNat

/-! ## Steps that do not look at the buffer -/

/-- A step, from the index `index` and the option number `delta` on, adds options of some
sizes: the same bytes in every buffer, and as many to every count. -/
def Adds (step : Writer → Option Writer) (index delta : ℕ) (sizes : List ℕ) (next : ℕ) : Prop :=
  ∃ patch, Patching patch ∧ ∀ buffer count,
    step ⟨buffer, index % 256, delta, count⟩ =
      some ⟨patch buffer, (index + sizes.sum) % 256, next, count + UInt8.ofNat sizes.length⟩

/-- A step adds options, or does not end in any buffer and with any count. -/
def Uniform (step : Writer → Option Writer) (index delta : ℕ) (sizes : List ℕ) (next : ℕ) :
    Prop :=
  (∀ buffer count, step ⟨buffer, index % 256, delta, count⟩ = none) ∨
    Adds step index delta sizes next

theorem Uniform.bind {first second : Writer → Option Writer} {index delta middle next : ℕ}
    {sizes more : List ℕ} (hfirst : Uniform first index delta sizes middle)
    (hsecond : Uniform second (index + sizes.sum) middle more next) :
    Uniform (fun writer => first writer >>= second) index delta (sizes ++ more) next := by
  rcases hfirst with hnone | ⟨patch, hpatch, hfirst⟩
  · left
    intro buffer count
    simp only [hnone buffer count, Option.bind_eq_bind, Option.bind_none]
  · rcases hsecond with hnone | ⟨later, hlater, hsecond⟩
    · left
      intro buffer count
      simp only [hfirst buffer count, Option.bind_eq_bind, Option.bind_some, hnone]
    · right
      refine ⟨fun buffer => later (patch buffer), hlater.comp hpatch, ?_⟩
      intro buffer count
      simp only [hfirst buffer count, Option.bind_eq_bind, Option.bind_some, hsecond,
        List.sum_append, List.length_append, UInt8.ofNat_add, Nat.add_assoc, UInt8.add_assoc]

theorem Uniform.writeIf {packet : CoapPacket} {option : CoapOption}
    {step : Writer → Option Writer} {index delta : ℕ} {sizes : List ℕ}
    (hstep : Uniform step index delta sizes option.number) :
    Uniform (CoapPacket.writeIf (packet.isOption option) step) index delta
      (packet.sizesIf option sizes)
      (if packet.isOption option then option.number else delta) := by
  by_cases hset : packet.isOption option = true
  · simpa only [Uniform, Adds, CoapPacket.writeIf, sizesIf, hset, if_true] using hstep
  · right
    refine ⟨fun buffer => buffer, patching_id, ?_⟩
    intro buffer count
    simp [CoapPacket.writeIf, sizesIf, hset]

/-! ## The steps of the options -/

theorem adds_setIntOptValue (option : CoapOption) (value : UInt32) (index delta : ℕ) :
    Adds (fun writer => some (setIntOptValue option value writer)) index delta
      (intSizes option delta value) option.number := by
  have hle := length_intBytes_le value
  have hshort : (intBytes value).length < 15 := by omega
  by_cases hfar : option.number - delta > 15
  · refine ⟨fun buffer => write (write (write buffer (index % 256)
        (setOptHeader (14 - delta % 14) 0)) (index % 256 + 1 + 1) (intBytes value))
        (index % 256 + 1) (setOptHeader (option.number - 14) (intBytes value).length),
      ((patching_id.write _ _).write _ _).write _ _, ?_⟩
    intro buffer count
    have hfence : addFenceOpt option.number option.number ⟨buffer, index % 256, delta, count⟩ 0 =
        _ := addFenceOpt_far hfar
    simp [setIntOptValue, hfence, fencePost, intSizes, hfar, setOptHeader_short hshort]
    refine ⟨by omega, ?_⟩
    rw [UInt8.add_assoc]
    rfl
  · refine ⟨fun buffer => write (write buffer (index % 256 + 1) (intBytes value))
        (index % 256) (setOptHeader (option.number - delta) (intBytes value).length),
      (patching_id.write _ _).write _ _, ?_⟩
    intro buffer count
    have hfence : addFenceOpt option.number option.number ⟨buffer, index % 256, delta, count⟩ 0 =
        _ := addFenceOpt_near hfar
    simp [setIntOptValue, hfence, intSizes, hfar, setOptHeader_short hshort]

theorem intSizes_near {option : CoapOption} {value : UInt32} (delta : ℕ)
    (hsmall : option.number ≤ 15) :
    intSizes option delta value = [(intBytes value).length + 1] := by
  have hnear : ¬ option.number - delta > 15 := by omega
  simp only [intSizes, if_neg hnear, List.nil_append]

theorem adds_setToken (packet : CoapPacket) (index delta : ℕ) :
    Adds (fun writer => some (packet.setToken writer)) index delta [packet.tokenLen.toNat + 1]
      CoapOption.token.number := by
  refine ⟨fun buffer => write (write buffer (index % 256)
      [UInt8.ofNat ((CoapOption.token.number - delta) <<< 4 ||| packet.tokenLen.toNat)])
      ((index % 256 + 1) % 256) (packet.token.take packet.tokenLen.toNat),
    (patching_id.write _ _).write _ _, ?_⟩
  intro buffer count
  simp [setToken]
  omega

theorem powerOfTwo_zero (rounds : ℕ) : powerOfTwo rounds 0 = none := by
  induction rounds with
  | zero => rfl
  | succ rounds ih => simp [powerOfTwo, ih]

/-- The loop of `power_of_two` halves until one is left. -/
theorem powerOfTwo_log {rounds num : ℕ} (hpositive : 0 < num) (hnum : num < 2 ^ rounds) :
    powerOfTwo rounds num = some (Nat.log 2 num) := by
  induction rounds generalizing num with
  | zero => omega
  | succ rounds ih =>
      by_cases hone : num = 1
      · simp [powerOfTwo, hone]
      · have hhalf : num >>> 1 = num / 2 := Nat.shiftRight_eq_div_pow num 1
        have hless : num / 2 < 2 ^ rounds := by
          rw [Nat.pow_succ] at hnum
          omega
        rw [powerOfTwo, if_pos hone, hhalf, ih (by omega) hless, Option.map_some,
          Nat.log_of_one_lt_of_le (by decide) (by omega : 2 ≤ num)]

/-- A block size of zero has no power: the loop does not end. -/
theorem uniform_block (packet : CoapPacket) (index delta : ℕ) :
    Uniform (fun writer => (powerOfTwo 16 packet.block2Size.toNat).map fun exponent =>
        setIntOptValue .block2 (block packet.block2Num packet.block2More exponent) writer)
      index delta (intSizes .block2 delta packet.blockValue) CoapOption.block2.number := by
  rcases Nat.eq_zero_or_pos packet.block2Size.toNat with hzero | hpositive
  · left
    intro buffer count
    simp only [hzero, powerOfTwo_zero, Option.map_none]
  · right
    have hlog := powerOfTwo_log hpositive packet.block2Size.toNat_lt
    simp only [hlog, Option.map_some]
    exact adds_setIntOptValue .block2 packet.blockValue index delta

/-! ## The path -/

section Path

variable {path : List UInt8} {pathLen : ℕ}

/-- A segment ends at a separator, at a null character and at the end of the text. -/
def EndsAt (path : List UInt8) (i : ℕ) : Prop :=
  path.getD i 0 = separator ∨ path.getD i 0 = 0

theorem endsAt_mystrcspn (path : List UInt8) : EndsAt path (mystrcspn path) := by
  induction path with
  | nil => exact .inr rfl
  | cons c rest ih =>
      by_cases hinside : c ≠ separator ∧ c ≠ 0
      · have hlength : mystrcspn (c :: rest) = mystrcspn rest + 1 := by
          simp [mystrcspn, hinside]
        rw [hlength]
        simpa only [EndsAt, List.getD_cons_succ] using ih
      · have hlength : mystrcspn (c :: rest) = 0 := by
          simp only [mystrcspn, List.takeWhile_cons, hinside, decide_false, Bool.false_eq_true,
            if_false, List.length_nil]
        rw [hlength]
        simp only [EndsAt, List.getD_cons_zero]
        tauto

theorem endsAt_drop {index i : ℕ} : EndsAt (path.drop index) i ↔ EndsAt path (index + i) := by
  simp only [EndsAt, List.getD_eq_getElem?_getD, List.getElem?_drop]

theorem mystrcspn_le {i : ℕ} (hends : EndsAt path i) : mystrcspn path ≤ i := by
  induction path generalizing i with
  | nil => exact Nat.zero_le i
  | cons c rest ih =>
      by_cases hinside : c ≠ separator ∧ c ≠ 0
      · have hlength : mystrcspn (c :: rest) = mystrcspn rest + 1 := by
          simp [mystrcspn, hinside]
        cases i with
        | zero =>
            simp only [EndsAt, List.getD_cons_zero] at hends
            tauto
        | succ i =>
            simp only [EndsAt, List.getD_cons_succ] at hends
            have hrest : mystrcspn rest ≤ i := ih hends
            omega
      · have hlength : mystrcspn (c :: rest) = 0 := by
          simp only [mystrcspn, List.takeWhile_cons, hinside, decide_false, Bool.false_eq_true,
            if_false, List.length_nil]
        omega

/-- From inside a segment its end is the same. -/
theorem mystrcspn_drop {i : ℕ} (hle : i ≤ mystrcspn path) :
    i + mystrcspn (path.drop i) = mystrcspn path := by
  induction path generalizing i with
  | nil => simpa [mystrcspn] using hle
  | cons c rest ih =>
      cases i with
      | zero => simp only [List.drop_zero, Nat.zero_add]
      | succ i =>
          by_cases hinside : c ≠ separator ∧ c ≠ 0
          · have hlength : mystrcspn (c :: rest) = mystrcspn rest + 1 := by
              simp [mystrcspn, hinside]
            have hrest := ih (i := i) (by omega)
            rw [List.drop_succ_cons]
            omega
          · have hlength : mystrcspn (c :: rest) = 0 := by
              simp only [mystrcspn, List.takeWhile_cons, hinside, decide_false, Bool.false_eq_true,
                if_false, List.length_nil]
            omega

/-- Where the index of the next segment, in eight bits, always is one of the path. -/
def Endless (path : List UInt8) (pathLen : ℕ) : Prop :=
  ∀ i < pathLen, (i + mystrcspn (path.drop i) + 1) % 256 < pathLen

/-- A segment that starts in the path and ends so far behind that its end wraps around into
the path again: the loop comes back to it from everywhere. -/
theorem endless_of_wrap {index : ℕ} (hstart : index = 0 ∨ EndsAt path (index - 1))
    (hinside : index < pathLen) (hlong : 256 ≤ index + mystrcspn (path.drop index) + 1)
    (hwrap : (index + mystrcspn (path.drop index) + 1) % 256 < pathLen) :
    Endless path pathLen := by
  intro i hi
  rcases Nat.lt_or_ge i index with hbefore | hbehind
  · have hends : EndsAt (path.drop i) (index - 1 - i) := by
      rw [endsAt_drop, Nat.add_sub_cancel' (by omega)]
      exact hstart.resolve_left (by omega)
    have hle := mystrcspn_le hends
    have hmod := Nat.mod_le (i + mystrcspn (path.drop i) + 1) 256
    omega
  · rcases Nat.lt_or_ge (index + mystrcspn (path.drop index)) i with houtside | hsegment
    · omega
    · have hsame : i - index + mystrcspn ((path.drop index).drop (i - index)) =
          mystrcspn (path.drop index) := mystrcspn_drop (by omega)
      rw [List.drop_drop, Nat.add_sub_cancel' hbehind] at hsame
      have hend : i + mystrcspn (path.drop i) + 1 = index + mystrcspn (path.drop index) + 1 := by
        omega
      rw [hend]
      exact hwrap

theorem splitSegment_index (base opt : ℕ) (s : Splitter) :
    (splitSegment path base opt s).index =
      (s.index + mystrcspn (path.drop s.index) + 1) % 256 := by
  simp only [splitSegment]
  split <;> rfl

theorem splitLoop_endless {base opt : ℕ} (hendless : Endless path pathLen) (rounds : ℕ)
    (s : Splitter) (hindex : s.index < pathLen) :
    splitLoop path pathLen base opt rounds s = none := by
  induction rounds generalizing s with
  | zero => simp only [splitLoop, if_pos hindex]
  | succ rounds ih =>
      rw [splitLoop, if_pos hindex]
      apply ih
      rw [splitSegment_index]
      exact hendless s.index hindex

theorem splitSegment_uniform (path : List UInt8) (base opt delta index shift : ℕ) :
    ∃ patch shift', Patching patch ∧
      (index + mystrcspn (path.drop index) + 1 + shift') % 256 =
        (index + shift + segmentSize index (mystrcspn (path.drop index))) % 256 ∧
      ∀ buffer count,
        splitSegment path base opt
            ⟨buffer, delta, count, index, (index + shift) % 256, index, shift⟩ =
          ⟨patch buffer, opt, count + 1, (index + mystrcspn (path.drop index) + 1) % 256,
            ((index + mystrcspn (path.drop index) + 1) % 256 + shift') % 256,
            (index + mystrcspn (path.drop index) + 1) % 256, shift'⟩ := by
  refine ⟨fun buffer => (splitSegment path base opt
      ⟨buffer, delta, 0, index, (index + shift) % 256, index, shift⟩).buffer,
    if (index + mystrcspn (path.drop index) + 1) % 256 - index - 1 > 15 then (shift + 1) % 256
    else shift, ?_⟩
  by_cases hlarge : (index + mystrcspn (path.drop index) + 1) % 256 - index - 1 > 15
  · simp only [splitSegment, segmentSize, if_pos hlarge]
    exact ⟨(patching_id.write _ _).write _ _, by omega, fun _ _ => trivial⟩
  · simp only [splitSegment, segmentSize, if_neg hlarge]
    exact ⟨(patching_id.write _ _).write _ _, by omega, fun _ _ => by simp only⟩

theorem splitLoop_done {base opt : ℕ} (rounds : ℕ) {s : Splitter} (hdone : ¬ s.index < pathLen) :
    splitLoop path pathLen base opt rounds s = some s := by
  cases rounds with
  | zero => rw [splitLoop, if_neg hdone]
  | succ rounds => rw [splitLoop, if_neg hdone]

theorem segmentSizes_done {index : ℕ} (hdone : ¬ index < pathLen) :
    segmentSizes path pathLen index = [] := by
  rw [segmentSizes, if_neg hdone]

/-- The loop, from the start of a segment on, writes the options of the segments from there on,
or it does not end. -/
theorem splitLoop_uniform (path : List UInt8) (pathLen base opt rounds : ℕ) {index : ℕ}
    (delta shift : ℕ)
    (hstart : index = 0 ∨ EndsAt path (index - 1)) (hindex : index < 256) :
    (∀ buffer count, splitLoop path pathLen base opt rounds
        ⟨buffer, delta, count, index, (index + shift) % 256, index, shift⟩ = none) ∨
      ∃ patch delta' index' pathLast shift', Patching patch ∧ ∀ buffer count,
        splitLoop path pathLen base opt rounds
            ⟨buffer, delta, count, index, (index + shift) % 256, index, shift⟩ =
          some ⟨patch buffer, delta', count + UInt8.ofNat (segmentSizes path pathLen index).length,
            index', (index + shift + (segmentSizes path pathLen index).sum) % 256, pathLast,
            shift'⟩ := by
  induction rounds generalizing index delta shift with
  | zero =>
      by_cases hinside : index < pathLen
      · left
        intro buffer count
        rw [splitLoop, if_pos hinside]
      · right
        refine ⟨fun buffer => buffer, delta, index, index, shift, patching_id, ?_⟩
        intro buffer count
        rw [splitLoop_done 0 hinside, segmentSizes_done hinside]
        simp
  | succ rounds ih =>
      by_cases hinside : index < pathLen
      · obtain ⟨patch, shift', hpatch, hshift, hround⟩ :=
          splitSegment_uniform path base opt delta index shift
        have hsizes : segmentSizes path pathLen index =
            segmentSize index (mystrcspn (path.drop index)) ::
              segmentSizes path pathLen (index + mystrcspn (path.drop index) + 1) := by
          rw [segmentSizes, if_pos hinside]
        rcases Nat.lt_or_ge (index + mystrcspn (path.drop index) + 1) 256 with hnext | hwrap
        · -- the next segment starts behind this one
          have hmod : (index + mystrcspn (path.drop index) + 1) % 256 =
              index + mystrcspn (path.drop index) + 1 := Nat.mod_eq_of_lt hnext
          have hstart' : index + mystrcspn (path.drop index) + 1 = 0 ∨
              EndsAt path (index + mystrcspn (path.drop index) + 1 - 1) := by
            rw [Nat.add_sub_cancel]
            exact .inr (endsAt_drop.1 (endsAt_mystrcspn (path.drop index)))
          rw [hmod] at hround
          rcases ih opt shift' hstart' hnext with hnone | ⟨later, d, i, l, sh, hlater, hrest⟩
          · left
            intro buffer count
            rw [splitLoop, if_pos hinside, hround]
            exact hnone (patch buffer) (count + 1)
          · right
            refine ⟨fun buffer => later (patch buffer), d, i, l, sh, hlater.comp hpatch, ?_⟩
            intro buffer count
            have hcount (more : ℕ) :
                count + 1 + UInt8.ofNat more = count + UInt8.ofNat (more + 1) := by
              rw [UInt8.ofNat_add, UInt8.add_assoc, UInt8.add_comm 1]
              rfl
            have hlast (more : ℕ) :
                (index + mystrcspn (path.drop index) + 1 + shift' + more) % 256 =
                  (index + shift + (segmentSize index (mystrcspn (path.drop index)) + more)) %
                    256 := by omega
            rw [splitLoop, if_pos hinside, hround, hrest, hsizes, List.length_cons, List.sum_cons,
              hcount, hlast]
        · rcases Nat.lt_or_ge ((index + mystrcspn (path.drop index) + 1) % 256) pathLen with
            hback | hbehind
          · -- the index wraps around into the path
            left
            intro buffer count
            exact splitLoop_endless (endless_of_wrap hstart hinside hwrap hback) _ _ hinside
          · right
            refine ⟨patch, opt, (index + mystrcspn (path.drop index) + 1) % 256,
              (index + mystrcspn (path.drop index) + 1) % 256, shift', hpatch, ?_⟩
            intro buffer count
            have hdone : ¬ index + mystrcspn (path.drop index) + 1 < pathLen := by
              have hmod := Nat.mod_lt (index + mystrcspn (path.drop index) + 1)
                (by decide : 256 > 0)
              omega
            rw [splitLoop, if_pos hinside, hround, splitLoop_done _ (by simpa using hbehind), hsizes,
              segmentSizes_done hdone]
            simpa using hshift
      · right
        refine ⟨fun buffer => buffer, delta, index, index, shift, patching_id, ?_⟩
        intro buffer count
        rw [splitLoop_done _ hinside, segmentSizes_done hinside]
        simp

end Path

theorem uniform_splitOption (packet : CoapPacket) (index delta : ℕ) :
    Uniform packet.splitOption index delta (segmentSizes packet.uriPath packet.uriPathLen 0)
      CoapOption.uriPath.number := by
  rcases splitLoop_uniform packet.uriPath packet.uriPathLen (index % 256)
    CoapOption.uriPath.number 256 delta 0 (.inl rfl) (by decide) with
    hnone | ⟨patch, d, i, l, sh, hpatch, hloop⟩
  · left
    intro buffer count
    simp only [splitOption]
    rw [hnone buffer count, Option.map_none]
  · right
    refine ⟨patch, hpatch, ?_⟩
    intro buffer count
    simp only [splitOption]
    rw [hloop buffer count, Option.map_some]
    simp only [Nat.zero_add, Nat.add_zero, Nat.mod_add_mod, Nat.add_mod_mod]

/-! ## All options -/

theorem uniform_int (packet : CoapPacket) (option : CoapOption) (value : UInt32)
    (hsmall : option.number ≤ 15) (index delta : ℕ) :
    Uniform (writeIf (packet.isOption option)
        (fun writer => some (setIntOptValue option value writer))) index delta
      (packet.sizesIf option [(intBytes value).length + 1])
      (if packet.isOption option then option.number else delta) := by
  apply Uniform.writeIf
  have hadds := adds_setIntOptValue option value index delta
  rw [intSizes_near delta hsmall] at hadds
  exact .inr hadds

theorem uniform_writeOptions (packet : CoapPacket) :
    ∃ next, Uniform packet.writeOptions (coapHeaderLen + 1) 0 packet.writtenSizes next :=
  ⟨_, (packet.uniform_int .contentType _ (by decide) _ _).bind <|
    (packet.uniform_int .maxAge _ (by decide) _ _).bind <|
    (packet.uniform_int .uriHost _ (by decide) _ _).bind <|
    (packet.uniform_int .uriPort _ (by decide) _ _).bind <|
    (Uniform.writeIf (packet.uniform_splitOption _ _)).bind <|
    (packet.uniform_int .observe _ (by decide) _ _).bind <|
    (Uniform.writeIf (.inr (packet.adds_setToken _ _))).bind <|
    (packet.uniform_int .accept _ (by decide) _ _).bind <|
    Uniform.writeIf (packet.uniform_block _ _)⟩

/-! ## The count of the options -/

/-- The bytes in front of the options, with a count. -/
def countedHeader (packet : CoapPacket) (count : UInt8) : List UInt8 :=
  [wiselibMidCoapResp, headerByte packet.version packet.type count, packet.code,
    (packet.mid >>> 8).toUInt8, packet.mid.toUInt8]

/-- Header and payload over the options. -/
def produced (packet : CoapPacket) (patch : (ℕ → UInt8) → ℕ → UInt8) (count : UInt8)
    (buffer : ℕ → UInt8) : ℕ → UInt8 :=
  write (write (patch buffer) 0 (packet.countedHeader count)) packet.payloadStart
    (packet.payload.take packet.payloadLen.toNat)

theorem packetToBuffer_cases (packet : CoapPacket) :
    (∀ buffer count, { packet with optCount := count }.packetToBuffer buffer = none) ∨
      ∃ patch, Patching patch ∧ ∀ buffer count,
        { packet with optCount := count }.packetToBuffer buffer =
          some ({ packet with optCount := count + UInt8.ofNat packet.optionsWritten },
            packet.produced patch (count + UInt8.ofNat packet.optionsWritten) buffer,
            UInt8.ofNat (packet.payloadStart + packet.payloadLen.toNat)) := by
  obtain ⟨next, hnone | ⟨patch, hpatch, hadds⟩⟩ := uniform_writeOptions packet
  · left
    intro buffer count
    have hcount : { packet with optCount := count }.writeOptions
        ⟨buffer, coapHeaderLen + 1, 0, count⟩ = none := hnone buffer count
    simp only [packetToBuffer, hcount, Option.bind_eq_bind, Option.bind_none]
  · right
    refine ⟨patch, hpatch, ?_⟩
    intro buffer count
    have hcount : { packet with optCount := count }.writeOptions
        ⟨buffer, coapHeaderLen + 1, 0, count⟩ = _ := hadds buffer count
    simp only [packetToBuffer, hcount, Option.bind_eq_bind, Option.bind_some]
    rfl

theorem patching_produced (packet : CoapPacket) {patch : (ℕ → UInt8) → ℕ → UInt8}
    (hpatch : Patching patch) (count : UInt8) : Patching (packet.produced patch count) :=
  (hpatch.write _ _).write _ _

theorem produced_congr (packet : CoapPacket) (patch : (ℕ → UInt8) → ℕ → UInt8)
    (count other : UInt8) (buffer : ℕ → UInt8) {i : ℕ}
    (hi : i ≠ 1 ∨ packet.payloadStart ≤ 1 ∧
      1 < packet.payloadStart + (packet.payload.take packet.payloadLen.toNat).length) :
    packet.produced patch count buffer i = packet.produced patch other buffer i := by
  by_cases hpayload : packet.payloadStart ≤ i ∧
      i - packet.payloadStart < (packet.payload.take packet.payloadLen.toNat).length
  · simp only [produced, write, if_pos hpayload.1, List.getElem?_eq_getElem hpayload.2,
      Option.getD_some]
  · have hone : i ≠ 1 := by
      rintro rfl
      rcases hi with hi | hi
      · exact hi rfl
      · omega
    have hheader : (packet.countedHeader count)[i]? = (packet.countedHeader other)[i]? := by
      rcases i with _ | _ | i
      · rfl
      · contradiction
      · rfl
    have hinner : write (patch buffer) 0 (packet.countedHeader count) i =
        write (patch buffer) 0 (packet.countedHeader other) i := by
      simp only [write, Nat.sub_zero, hheader]
    by_cases hle : packet.payloadStart ≤ i
    · have hnone : (packet.payload.take packet.payloadLen.toNat)[i - packet.payloadStart]? =
          none := List.getElem?_eq_none (by omega)
      simp only [produced, write, if_pos hle, hnone, Option.getD_none] at hinner ⊢
      exact hinner
    · simp only [produced, write, if_neg hle] at hinner ⊢
      exact hinner

theorem produced_count (packet : CoapPacket) (patch : (ℕ → UInt8) → ℕ → UInt8) (count : UInt8)
    (buffer : ℕ → UInt8)
    (hfree : ¬ (packet.payloadStart ≤ 1 ∧
      1 < packet.payloadStart + (packet.payload.take packet.payloadLen.toNat).length)) :
    packet.produced patch count buffer 1 = headerByte packet.version packet.type count := by
  have hheader : write (patch buffer) 0 (packet.countedHeader count) 1 =
      headerByte packet.version packet.type count := rfl
  rcases Nat.lt_or_ge 1 packet.payloadStart with hbelow | habove
  · rw [produced, write_below hbelow, hheader]
  · rw [produced, write_above (by omega), hheader]

theorem headerByte_eq_iff (version type count other : UInt8) :
    headerByte version type count = headerByte version type other ↔
      count.toNat % 16 = other.toNat % 16 := by
  have hlow (c : UInt8) : (c &&& (0x0f : UInt8)).toNat = c.toNat % 16 := by
    rw [UInt8.toNat_and]
    exact Nat.and_two_pow_sub_one_eq_mod c.toNat 4
  constructor
  · intro heq
    have hcounts := congrArg (· &&& (0x0f : UInt8)) heq
    simp only [count_headerByte] at hcounts
    rw [← hlow, ← hlow, hcounts]
  · intro hcounts
    have hand : (0x0f : UInt8) &&& count = (0x0f : UInt8) &&& other := by
      rw [UInt8.and_comm, UInt8.and_comm (0x0f : UInt8)]
      apply UInt8.toNat_inj.1
      rw [hlow, hlow, hcounts]
    rw [headerByte, headerByte, hand]

/-- The second encoding of a packet produces the bytes of the first again exactly when the
number of its options is a multiple of sixteen, or the byte with the count is hidden. -/
theorem sameAgain_iff {packet encoded : CoapPacket} {buffer bytes : ℕ → UInt8} {length : UInt8}
    (hfirst : packet.packetToBuffer buffer = some (encoded, bytes, length)) :
    SameAgain encoded bytes length ↔ 16 ∣ packet.optionsWritten ∨ packet.CountHidden := by
  rcases packetToBuffer_cases packet with hnone | ⟨patch, hpatch, hsome⟩
  · exact absurd ((hnone buffer packet.optCount).symm.trans hfirst) (by simp)
  · obtain ⟨rfl, rfl, rfl⟩ : _ ∧ _ ∧ _ := by
      simpa only [Option.some.injEq, Prod.mk.injEq] using
        (hsome buffer packet.optCount).symm.trans hfirst
    have hagain := hsome (packet.produced patch (packet.optCount +
      UInt8.ofNat packet.optionsWritten) buffer)
      (packet.optCount + UInt8.ofNat packet.optionsWritten)
    have hlength : (UInt8.ofNat (packet.payloadStart + packet.payloadLen.toNat)).toNat =
        (packet.payloadStart + packet.payloadLen.toNat) % 256 := by simp
    have hcounts : (packet.optCount + UInt8.ofNat packet.optionsWritten +
          UInt8.ofNat packet.optionsWritten).toNat % 16 =
        (packet.optCount + UInt8.ofNat packet.optionsWritten).toNat % 16 ↔
          16 ∣ packet.optionsWritten := by
      simp only [UInt8.toNat_add, UInt8.toNat_ofNat']
      omega
    constructor
    · rintro ⟨again, written, heq, hread⟩
      obtain ⟨rfl, rfl, -⟩ : _ ∧ _ ∧ _ := by
        simpa only [Option.some.injEq, Prod.mk.injEq] using hagain.symm.trans heq
      by_cases hhidden : packet.CountHidden
      · exact .inr hhidden
      · left
        obtain ⟨hlong, hfree⟩ := not_or.1 hhidden
        have hone := (read_inj.1 hread) 1 (by omega)
        rw [Nat.zero_add, produced_count _ _ _ _ hfree, produced_count _ _ _ _ hfree,
          headerByte_eq_iff] at hone
        exact hcounts.1 hone
    · intro hsame
      refine ⟨_, _, hagain, read_congr fun i _ hi => ?_⟩
      by_cases hcovered : i ≠ 1 ∨ packet.payloadStart ≤ 1 ∧
          1 < packet.payloadStart + (packet.payload.take packet.payloadLen.toNat).length
      · rw [packet.produced_congr patch _
          (packet.optCount + UInt8.ofNat packet.optionsWritten) _ hcovered,
          (packet.patching_produced hpatch _).again]
      · obtain ⟨hone, hfree⟩ := not_or.1 hcovered
        obtain rfl : i = 1 := not_not.1 hone
        have hmultiple : 16 ∣ packet.optionsWritten := by
          rcases hsame with hmultiple | hshort | hcover
          · exact hmultiple
          · omega
          · exact absurd hcover hfree
        rw [produced_count _ _ _ _ hfree, produced_count _ _ _ _ hfree, headerByte_eq_iff]
        exact hcounts.2 hmultiple

/-- A packet with a content type and nothing else. -/
def typedPacket : CoapPacket :=
  CoapPacket.setOption
    { version := coapVersion, type := 0, optCount := 0, code := 69, mid := 7, options := 0,
      contentType := 40, maxAge := 0, uriHost := 0, uriPort := 0, uriPathLen := 0, uriPath := [],
      observe := 0, tokenLen := 0, token := [], accept := 0, block2Num := 0, block2More := 0,
      block2Size := 0, block2Offset := 0, payloadLen := 0, payload := [] } .contentType

theorem sameAgain_iff_typed :
    ∃ bytes, typedPacket.packetToBuffer (fun _ => 0) =
        some ({ typedPacket with optCount := 1 }, bytes, 7) ∧
      (SameAgain { typedPacket with optCount := 1 } bytes 7 ↔
        16 ∣ typedPacket.optionsWritten ∨ typedPacket.CountHidden) :=
  ⟨_, rfl, sameAgain_iff (show typedPacket.packetToBuffer (fun _ => 0) = _ from rfl)⟩

/-- The second encoding of the packet announces two options. -/
theorem not_sameAgain :
    ¬ ∀ (packet encoded : CoapPacket) (buffer bytes : ℕ → UInt8) (length : UInt8),
      packet.packetToBuffer buffer = some (encoded, bytes, length) →
        SameAgain encoded bytes length := by
  intro hsame
  obtain ⟨again, written, heq, hread⟩ := hsame typedPacket _ (fun _ => 0) _ _ rfl
  have hone := (read_inj.1 hread) 1 (by decide)
  have htwice := congrArg (fun result => result.map fun encoding => encoding.2.1 1) heq
  simp only [Option.map_some, hone] at htwice
  exact absurd htwice (by decide)

end CoapPacket

end Wiselib.Coap
