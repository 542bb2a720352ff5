import Wiselib.Routing.DsdvBroadcastMessage

/-!
# The bytes of a DSR routing message

`DsrRoutingMessage` of `algorithms/routing/dsr/dsr_routing_msg.h`.  One buffer holds
the header, the ids of the path, the payload size and the payload; where the latter
are depends on the number of ids, which is part of the header.

## Strategy

What `set_path` writes is one contiguous region from the number of ids on
(`setPath_eq`): the payload is taken out before and put back behind the new path.  A
buffer that holds such a region is read as the path and the payload it was made of
(`path_of_holds`, `payload_of_holds`).

`buffer_size` leaves out the byte of the payload size, which its comment counts, so
the last byte of the region is not sent.
-/

namespace Wiselib.Routing.DsrMessage

open ByteBuffer
open Wiselib.Routing.Dsdv (NodeIdFormat)

variable {Node : Type*}

/-- The sizes of a message: of a `message_id_t`, of the ids of nodes, of a `Path` and of the
buffer. -/
structure Format (Node : Type*) where
  idSize : ℕ
  ids : NodeIdFormat Node
  pathSize : ℕ
  maxMessageLength : ℕ

/-- `buffer`. -/
abbrev Buffer := ℕ → UInt8

section Code

variable (format : Format Node) (buffer : Buffer)

def idxPos : ℕ := format.idSize
def sourcePos : ℕ := idxPos format + 1
def destPos : ℕ := sourcePos format + format.ids.size
def entryCntPos : ℕ := destPos format + format.ids.size
def pathPos : ℕ := entryCntPos format + 1

/-- `entry_cnt`. -/
def entryCnt : UInt8 := buffer (entryCntPos format)

/-- `set_entry_cnt`. -/
def setEntryCnt (entryCnt : UInt8) : Buffer := write buffer (entryCntPos format) [entryCnt]

/-- The offset of the payload size. -/
def payloadSizePos : ℕ := pathPos format + (entryCnt format buffer).toNat * format.ids.size

/-- `payload_size`. -/
def payloadSize : UInt8 := buffer (payloadSizePos format buffer)

/-- `set_payload_size`. -/
def setPayloadSize (size : UInt8) : Buffer := write buffer (payloadSizePos format buffer) [size]

/-- `set_payload`. -/
def setPayload (data : List UInt8) : Buffer :=
  write buffer (payloadSizePos format buffer + 1) data

/-- The bytes at `payload()`. -/
def payload : List UInt8 :=
  read buffer (payloadSizePos format buffer + 1) (payloadSize format buffer).toNat

/-- The loop of `set_path`, from the id number `idx` on. -/
def setEntries : ℕ → List Node → Buffer → Buffer
  | _, [], buffer => buffer
  | idx, node :: rest, buffer =>
      setEntries (idx + 1) rest
        (write buffer (pathPos format + idx * format.ids.size) (format.ids.bytes node))

/-- `set_path`. -/
def setPath (path : List Node) : Buffer :=
  let psize := payloadSize format buffer
  let pdata := payload format buffer
  let buffer := setEntries format 0 path buffer
  let buffer := setEntryCnt format buffer (UInt8.ofNat path.length)
  let buffer := setPayloadSize format buffer psize
  if psize > 0 then setPayload format buffer pdata else buffer

/-- `path`.  A `Path` that is full takes no more ids. -/
def path : List Node :=
  ((List.range (entryCnt format buffer).toNat).map fun i =>
    format.ids.value (read buffer (pathPos format + i * format.ids.size) format.ids.size)).take
    format.pathSize

/-- `buffer_size`. -/
def bufferSize : ℕ :=
  pathPos format + (entryCnt format buffer).toNat * format.ids.size +
    (payloadSize format buffer).toNat

/-- The buffer of a receiver that gets `size` bytes of a message. -/
def received (size : ℕ) (buffer memory : Buffer) : Buffer :=
  fun i => if i < size then buffer i else memory i

end Code

/-! ## The region of path and payload -/

section Region

variable {format : Format Node} {buffer memory : Buffer} {nodes : List Node} {data : List UInt8}

/-- The bytes from the number of ids on. -/
def region (format : Format Node) (nodes : List Node) (data : List UInt8) : List UInt8 :=
  UInt8.ofNat nodes.length :: (nodes.flatMap format.ids.bytes ++ UInt8.ofNat data.length :: data)

theorem length_flatMap_bytes (nodes : List Node) :
    (nodes.flatMap format.ids.bytes).length = nodes.length * format.ids.size := by
  induction nodes with
  | nil => simp
  | cons node nodes ih =>
      rw [List.flatMap_cons, List.length_append, ih, format.ids.length_bytes, List.length_cons,
        Nat.succ_mul, Nat.add_comm]

theorem setEntries_eq (idx : ℕ) (nodes : List Node) (buffer : Buffer) :
    setEntries format idx nodes buffer =
      write buffer (pathPos format + idx * format.ids.size) (nodes.flatMap format.ids.bytes) := by
  induction nodes generalizing idx buffer with
  | nil => simp [setEntries]
  | cons node nodes ih =>
      rw [setEntries, ih, List.flatMap_cons, write_append, format.ids.length_bytes, Nat.succ_mul,
        Nat.add_assoc]

theorem toNat_ofNat_length {α : Type*} {list : List α} (hfits : list.length < 256) :
    (UInt8.ofNat list.length).toNat = list.length := by
  rw [UInt8.toNat_ofNat', Nat.mod_eq_of_lt hfits]

/-- Where the payload size is behind a path. -/
def behind (format : Format Node) (nodes : List Node) : ℕ :=
  pathPos format + nodes.length * format.ids.size

theorem setPath_eq (hnodes : nodes.length < 256) :
    setPath format buffer nodes =
      write (write (write (write buffer (pathPos format) (nodes.flatMap format.ids.bytes))
        (entryCntPos format) [UInt8.ofNat nodes.length])
        (behind format nodes) [payloadSize format buffer])
        (behind format nodes + 1) (payload format buffer) := by
  have hentries : setEntries format 0 nodes buffer =
      write buffer (pathPos format) (nodes.flatMap format.ids.bytes) := by
    rw [setEntries_eq, Nat.zero_mul, Nat.add_zero]
  -- the number of ids says where the payload size is, and is not written again
  have hcounted : ∀ other : Buffer, other (entryCntPos format) = UInt8.ofNat nodes.length →
      payloadSizePos format other = behind format nodes := by
    intro other hother
    rw [payloadSizePos, entryCnt, hother, toNat_ofNat_length hnodes, behind]
  have habove : entryCntPos format < behind format nodes := by
    unfold behind pathPos
    omega
  rw [setPath, hentries]
  rw [setEntryCnt, setPayloadSize, hcounted _ (write_cons_self ..), setPayload, hcounted _ (by
    rw [write_below habove, write_cons_self])]
  split
  · rfl
  · rename_i hempty
    have hzero : payloadSize format buffer = 0 := by
      simpa using hempty
    have hnothing : payload format buffer = [] := by
      rw [payload, hzero]
      rfl
    rw [hnothing, write_nil]

theorem length_payload : (payload format buffer).length = (payloadSize format buffer).toNat :=
  length_read

theorem length_payload_lt : (payload format buffer).length < 256 := by
  rw [length_payload]
  exact UInt8.toNat_lt _

theorem ofNat_length_payload :
    UInt8.ofNat (payload format buffer).length = payloadSize format buffer := by
  rw [length_payload, UInt8.ofNat_toNat]

/-- **What `set_path` writes** is a region with the new path and the payload from before. -/
theorem holds_setPath (hnodes : nodes.length < 256) :
    Holds (setPath format buffer nodes) (entryCntPos format)
      (region format nodes (payload format buffer)) := by
  have hlength := @length_flatMap_bytes _ format nodes
  have habove : entryCntPos format < behind format nodes := by
    unfold behind pathPos
    omega
  have hids : entryCntPos format + 1 + (nodes.flatMap format.ids.bytes).length =
      behind format nodes := by
    rw [hlength]
    rfl
  rw [setPath_eq hnodes, region, ofNat_length_payload, holds_cons, holds_append, holds_cons, hids]
  refine ⟨?_, ?_, ?_, holds_write⟩
  · rw [write_below (by omega), write_below habove, write_cons_self]
  · refine Holds.write_of_le (Holds.write_of_le ?_ hids.le) (hids.le.trans (Nat.le_succ _))
    -- the number of ids is in front of them
    refine holds_write.congr fun i hi _ => write_above ?_
    exact hi
  · rw [write_below (by omega), write_cons_self]

theorem map_value_read {start : ℕ} (hholds : Holds buffer start (nodes.flatMap format.ids.bytes)) :
    ((List.range nodes.length).map fun i =>
      format.ids.value (read buffer (start + i * format.ids.size) format.ids.size)) = nodes := by
  induction nodes generalizing start with
  | nil => rfl
  | cons node nodes ih =>
      rw [List.flatMap_cons, holds_append, format.ids.length_bytes] at hholds
      have hrest := ih hholds.2
      have hfirst : read buffer start format.ids.size = format.ids.bytes node :=
        hholds.1.read_eq (format.ids.length_bytes node).symm
      rw [List.length_cons, List.range_succ_eq_map, List.map_cons, List.map_map, Nat.zero_mul,
        Nat.add_zero, hfirst, format.ids.value_bytes]
      refine congrArg (node :: ·) ((List.map_congr_left fun i _ => ?_).trans hrest)
      rw [Function.comp_apply, Nat.succ_mul, Nat.add_comm (i * format.ids.size), Nat.add_assoc]

variable (hholds : Holds buffer (entryCntPos format) (region format nodes data))
  (hnodes : nodes.length < 256)

include hholds hnodes

theorem entryCnt_of_holds : (entryCnt format buffer).toNat = nodes.length := by
  rw [region, holds_cons] at hholds
  rw [entryCnt, hholds.1, toNat_ofNat_length hnodes]

/-- **The path is read.** -/
theorem path_of_holds (hcapacity : nodes.length ≤ format.pathSize) : path format buffer = nodes := by
  have hcount := entryCnt_of_holds hholds hnodes
  rw [region, holds_cons, holds_append] at hholds
  rw [path, hcount]
  have hmap := map_value_read hholds.2.1
  exact (congrArg (List.take format.pathSize) hmap).trans (List.take_of_length_le hcapacity)

/-- **The payload is read.** -/
theorem payload_of_holds (hdata : data.length < 256) :
    (payloadSize format buffer).toNat = data.length ∧ payload format buffer = data := by
  have hcount := entryCnt_of_holds hholds hnodes
  have hbehind : payloadSizePos format buffer = behind format nodes := by
    rw [payloadSizePos, hcount, behind]
  have hids : entryCntPos format + 1 + (nodes.flatMap format.ids.bytes).length =
      behind format nodes := by
    rw [length_flatMap_bytes]
    rfl
  rw [region, holds_cons, holds_append, holds_cons, hids] at hholds
  obtain ⟨-, -, hsize, hcells⟩ := hholds
  have hpsize : (payloadSize format buffer).toNat = data.length := by
    rw [payloadSize, hbehind, hsize, toNat_ofNat_length hdata]
  refine ⟨hpsize, ?_⟩
  rw [payload, hbehind, hpsize]
  exact hcells.read_eq rfl

end Region

/-! ## What a receiver reads -/

section Received

variable {format : Format Node} {buffer memory : Buffer} {nodes : List Node} {data : List UInt8}

/-- The last byte of a region. -/
def lastByte (data : List UInt8) : UInt8 := data.getLast?.getD 0

/-- The last byte of a region is behind as many bytes as its payload has. -/
theorem apply_last (hholds : Holds buffer (entryCntPos format) (region format nodes data)) :
    buffer (behind format nodes + data.length) = lastByte data := by
  have hids : entryCntPos format + 1 + (nodes.flatMap format.ids.bytes).length =
      behind format nodes := by
    rw [length_flatMap_bytes]
    rfl
  rw [region, holds_cons, holds_append, holds_cons, hids] at hholds
  obtain ⟨-, -, hsize, hcells⟩ := hholds
  rcases List.eq_nil_or_concat' data with rfl | ⟨init, last, rfl⟩
  · exact hsize
  · rw [holds_append, holds_cons] at hcells
    have hplace : behind format nodes + (init ++ [last]).length =
        behind format nodes + 1 + init.length := by
      rw [List.length_append, List.length_singleton]
      omega
    rw [hplace, hcells.2.1, lastByte, List.getLast?_concat, Option.getD_some]

theorem length_region : entryCntPos format + (region format nodes data).length =
    behind format nodes + data.length + 1 := by
  simp only [region, List.length_cons, List.length_append, length_flatMap_bytes]
  unfold behind pathPos
  omega

/-- **A receiver of all bytes but the last** reads the path and the payload exactly if the last
byte is in its memory already. -/
theorem received_iff (hholds : Holds buffer (entryCntPos format) (region format nodes data))
    (hnodes : nodes.length < 256) (hcapacity : nodes.length ≤ format.pathSize)
    (hdata : data.length < 256) :
    path format (received (behind format nodes + data.length) buffer memory) = nodes ∧
        payload format (received (behind format nodes + data.length) buffer memory) = data ↔
      memory (behind format nodes + data.length) = lastByte data := by
  have hlast := apply_last hholds
  have hsent : ∀ i < behind format nodes + data.length,
      received (behind format nodes + data.length) buffer memory i = buffer i := fun i hi =>
    if_pos hi
  have hmemory : received (behind format nodes + data.length) buffer memory
      (behind format nodes + data.length) = memory (behind format nodes + data.length) :=
    if_neg (lt_irrefl _)
  constructor
  · rintro ⟨-, hpayload⟩
    have hcount : (buffer (entryCntPos format)).toNat = nodes.length :=
      entryCnt_of_holds hholds hnodes
    have habove : entryCntPos format < behind format nodes := by
      unfold behind pathPos
      omega
    have hbehind : payloadSizePos format
        (received (behind format nodes + data.length) buffer memory) = behind format nodes := by
      rw [payloadSizePos, entryCnt, hsent _ (by omega), hcount, behind]
    have hlength := congrArg List.length hpayload
    rw [length_payload, payloadSize, hbehind] at hlength
    rcases List.eq_nil_or_concat' data with rfl | ⟨init, last, rfl⟩
    · -- the byte that is missing is the payload size itself
      rw [← hmemory]
      exact UInt8.toNat_inj.1 hlength
    · have hcell : Holds (received (behind format nodes + (init ++ [last]).length) buffer memory)
          (behind format nodes + 1) (init ++ [last]) := by
        rw [payload, payloadSize, hbehind, hlength] at hpayload
        exact hpayload
      rw [holds_append, holds_cons] at hcell
      have hplace : behind format nodes + 1 + init.length =
          behind format nodes + (init ++ [last]).length := by
        rw [List.length_append, List.length_singleton]
        omega
      have hend := hcell.2.1
      rw [hplace] at hend
      rw [← hmemory, hend, lastByte, List.getLast?_concat, Option.getD_some]
  · intro hsame
    have hall : Holds (received (behind format nodes + data.length) buffer memory)
        (entryCntPos format) (region format nodes data) := by
      refine hholds.congr fun i _ hi => ?_
      rw [length_region] at hi
      rcases Nat.lt_or_ge i (behind format nodes + data.length) with hlt | hge
      · exact hsent i hlt
      · obtain rfl : i = behind format nodes + data.length := by omega
        rw [hmemory, hsame, hlast]
    exact ⟨path_of_holds hall hnodes hcapacity, (payload_of_holds hall hnodes hdata).2⟩

end Received

/-- **A path is embedded** and the payload is kept; a receiver of `buffer_size()` bytes lacks the
last one. -/
theorem path_embedding_right_iff (format : Format Node) (buffer : Buffer) (nodes : List Node)
    (hnodes : nodes.length < 256) (hcapacity : nodes.length ≤ format.pathSize)
    (hroom : pathPos format + nodes.length * format.ids.size + 1 +
      (payload format buffer).length ≤ format.maxMessageLength) :
    (payload format (setPath format buffer nodes) = payload format buffer ∧
      payloadSize format (setPath format buffer nodes) = payloadSize format buffer ∧
      path format (setPath format buffer nodes) = nodes ∧
      ∀ i, i < entryCntPos format ∨ format.maxMessageLength ≤ i →
        setPath format buffer nodes i = buffer i) ∧
    (∀ memory : Buffer,
      path format (received (bufferSize format (setPath format buffer nodes))
            (setPath format buffer nodes) memory) = nodes ∧
          payload format (received (bufferSize format (setPath format buffer nodes))
            (setPath format buffer nodes) memory) = payload format buffer ↔
        memory (pathPos format + nodes.length * format.ids.size + (payload format buffer).length) =
          lastByte (payload format buffer)) ∧
    ¬ ∀ memory : Buffer,
      path format (received (bufferSize format (setPath format buffer nodes))
            (setPath format buffer nodes) memory) = nodes ∧
          payload format (received (bufferSize format (setPath format buffer nodes))
            (setPath format buffer nodes) memory) = payload format buffer := by
  have hholds := @holds_setPath _ format buffer _ hnodes
  have hread := payload_of_holds hholds hnodes length_payload_lt
  have hsize : bufferSize format (setPath format buffer nodes) =
      behind format nodes + (payload format buffer).length := by
    rw [bufferSize, entryCnt_of_holds hholds hnodes, hread.1, behind]
  have hreceived : ∀ memory : Buffer, _ := fun memory =>
    @received_iff _ _ _ memory _ _ hholds hnodes hcapacity length_payload_lt
  rw [hsize]
  refine ⟨⟨hread.2, ?_, path_of_holds hholds hnodes hcapacity, fun i hi => ?_⟩, hreceived, ?_⟩
  · rw [← ofNat_length_payload, hread.2, ofNat_length_payload]
  · have hlength := @length_flatMap_bytes _ format nodes
    have hcount : pathPos format = entryCntPos format + 1 := rfl
    rw [setPath_eq hnodes]
    rcases hi with hi | hi
    · rw [write_below (by unfold behind; omega), write_below (by unfold behind; omega),
        write_below hi, write_below (by omega)]
    · rw [write_above (by unfold behind; omega), write_above (by simp; unfold behind; omega),
        write_above (by simp; omega), write_above (by omega)]
  · intro hall
    have hwrong := (hreceived fun _ => lastByte (payload format buffer) + 1).1 (hall _)
    exact absurd hwrong (by simp)

/-- Node ids of one byte, paths of four, messages of thirty bytes. -/
def sampleFormat : Format UInt8 where
  idSize := 1
  ids :=
    { size := 1
      bytes := fun node => [node]
      value := fun bytes => bytes.headD 0
      nullNodeId := 255
      length_bytes := fun _ => rfl
      value_bytes := fun _ => rfl }
  pathSize := 4
  maxMessageLength := 30

/-- A message with an empty path and a payload of two bytes. -/
def sampleMessage : Buffer :=
  setPayload sampleFormat (setPayloadSize sampleFormat (setEntryCnt sampleFormat (fun _ => 0) 0) 2)
    [7, 9]

/-- The payload is moved behind a path of three. -/
theorem path_embedding_right_iff_three :
    payload sampleFormat (setPath sampleFormat sampleMessage [1, 2, 3]) =
      payload sampleFormat sampleMessage :=
  (path_embedding_right_iff sampleFormat sampleMessage [1, 2, 3] (by decide) (by decide)
    (by decide)).1.1

/-- A receiver with an empty memory reads the payload without its last byte. -/
theorem path_embedding_wrong :
    payload sampleFormat sampleMessage = [7, 9] ∧
      payload sampleFormat
        (received (bufferSize sampleFormat (setPath sampleFormat sampleMessage [1, 2, 3]))
          (setPath sampleFormat sampleMessage [1, 2, 3]) fun _ => 0) = [7, 0] := by
  decide

end Wiselib.Routing.DsrMessage
