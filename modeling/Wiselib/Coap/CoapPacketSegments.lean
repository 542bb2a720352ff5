import Wiselib.Coap.CoapPacketRestored

/-!
# Segments of 15 bytes

The encoder gives a segment of 15 bytes a header of one byte whose length code
tells the decoder that a second one follows.  The decoder takes the first
character for it and reads a segment that is longer by as many bytes.

A packet with such a segment never comes back.  Up to the segment the decoder
is on the right track.  What it makes of the segment ends behind the next
header, and from then on the path can only grow by separators and more text.
For this to be the path of the packet the characters of the segment would all
have to be the code itself, and then the separator that comes next would have
to stand in the middle of the segment after it.
-/

namespace Wiselib.Coap

open ByteBuffer

namespace CoapPacket

/-! ## Paths only grow -/

/-- A packet whose path is that of another or goes on behind it. -/
def PathGrown (packet next : CoapPacket) : Prop :=
  next.uriPathLen > 0 ∧ (next.uriPath = packet.uriPath ∨
    ∃ more, next.uriPath = packet.uriPath ++ separator :: more)

theorem PathGrown.trans {packet middle last : CoapPacket} (hfirst : PathGrown packet middle)
    (hsecond : PathGrown middle last) : PathGrown packet last := by
  refine ⟨hsecond.1, ?_⟩
  rcases hsecond.2 with hsame | ⟨more, hmore⟩
  · rw [hsame]
    exact hfirst.2
  · rcases hfirst.2 with hsame | ⟨text, htext⟩
    · exact .inr ⟨more, by rw [hmore, hsame]⟩
    · exact .inr ⟨text ++ separator :: more, by rw [hmore, htext]; simp⟩

theorem absorb_pathGrown {packet : CoapPacket} (hpos : packet.uriPathLen > 0)
    (opt : ℕ × List UInt8) : PathGrown packet (absorb packet opt) := by
  unfold absorb
  split_ifs
  · exact ⟨hpos, .inl rfl⟩
  · cases CoapOption.ofNumber opt.1 with
    | none => exact ⟨hpos, .inl rfl⟩
    | some option =>
        cases option with
        | uriPath =>
            have hjoin : store .uriPath opt.2 packet =
                { packet.setOption .uriPath with
                  uriPath := packet.uriPath ++ separator :: opt.2
                  uriPathLen := packet.uriPathLen + 1 + opt.2.length } := by
              simp [store, setOption, hpos]
            show PathGrown packet (store .uriPath opt.2 packet)
            rw [hjoin]
            exact ⟨by simp only; omega, .inr ⟨opt.2, rfl⟩⟩
        | _ => exact ⟨hpos, .inl rfl⟩

/-- Whatever the decoder reads next, it keeps the path it has. -/
theorem readOptions_pathGrown (count : ℕ) :
    ∀ {reader last : Reader}, reader.PathBelow → reader.view.uriPathLen > 0 →
      readOptions count reader = .ok last → PathGrown reader.view last.view := by
  induction count with
  | zero =>
      intro reader last _ hpos hread
      cases hread
      exact ⟨hpos, .inl rfl⟩
  | succ count ih =>
      intro reader last hbelow hpos hread
      rw [readOptions] at hread
      cases hstep : readOption reader with
      | error failed => simp [hstep, Except.bind] at hread
      | ok next =>
          rw [hstep] at hread
          have habsorbed := readOption_spec hbelow hstep
          have hgrown : PathGrown reader.view next.view := by
            rw [habsorbed.view]
            exact absorb_pathGrown hpos _
          exact hgrown.trans (ih habsorbed.below hgrown.1 hread)

/-! ## The segment and what is read for it -/

/-- What the decoder reads for a segment of 15 bytes is no beginning of the path. -/
theorem long_segment_differs {memory : ℕ → UInt8} {start : ℕ} {segment : List UInt8}
    {rest : List (List UInt8)} {opts : List (ℕ × List UInt8)} (hlength : segment.length = 15)
    (hrest : ∀ text ∈ rest, text ≠ [] ∧ ∀ c ∈ text, c ≠ separator ∧ c ≠ 0)
    (hfirst : memory start ≠ 0)
    (hholds : Holds memory start (segment ++ wire CoapOption.uriPath.number
      ((rest.map fun text => (CoapOption.uriPath.number, text)) ++ opts)))
    (hpath : [separator].intercalate (segment :: rest) =
        read memory (start + 1) ((memory start).toNat + 15) ∨
      ∃ more, [separator].intercalate (segment :: rest) =
        read memory (start + 1) ((memory start).toNat + 15) ++ separator :: more) : False := by
  have hpos : 0 < (memory start).toNat := by
    rw [Nat.pos_iff_ne_zero]
    exact fun h => hfirst (UInt8.toNat_inj.1 h)
  obtain ⟨hsegment, hnext⟩ := holds_append.1 hholds
  -- the path agrees with what is read as far as this goes
  have hagree : ∀ i < (memory start).toNat + 15,
      ([separator].intercalate (segment :: rest))[i]? = some (memory (start + 1 + i)) := by
    intro i hi
    rcases hpath with hsame | ⟨more, hmore⟩
    · rw [hsame, getElem?_read hi]
    · rw [hmore, List.getElem?_append_left (by simpa using hi), getElem?_read hi]
  have hchar : ∀ i (hi : i < 15), segment[i]? = some (memory (start + i)) := by
    intro i hi
    conv_lhs => rw [← hsegment]
    exact getElem?_read (by omega)
  cases rest with
  | nil =>
      have h15 := hagree 15 (by omega)
      rw [List.intercalate_singleton, List.getElem?_eq_none (by omega)] at h15
      simp at h15
  | cons text rest =>
      obtain ⟨htext, hclean⟩ := hrest text List.mem_cons_self
      have hjoin : [separator].intercalate (segment :: text :: rest) =
          segment ++ separator :: [separator].intercalate (text :: rest) := by
        rw [List.intercalate_cons_cons]
        simp
      rw [hjoin] at hagree hpath
      -- behind the segment the path has a separator, and the buffer has the next header
      have hsep : memory (start + 16) = separator := by
        have h15 := hagree 15 (by omega)
        rw [List.getElem?_append_right (by omega), hlength] at h15
        simpa [Nat.add_assoc] using h15.symm
      simp only [List.map_cons, List.cons_append, wire, headerOf, if_true, Nat.sub_self,
        List.append_assoc] at hnext
      rw [hlength, holds_append] at hnext
      obtain ⟨hheader, hbehind⟩ := hnext
      by_cases hlong : text.length > 15
      · -- a long segment, whose header takes two bytes
        rw [segmentHeader, if_pos hlong, holds_cons, holds_cons] at hheader
        obtain ⟨hcode, hext, -⟩ := hheader
        have htextLong : text.length ≥ 62 := by
          rw [show start + 15 + 1 = start + 16 from rfl, hsep] at hext
          have hvalue := congrArg UInt8.toNat hext
          rw [UInt8.toNat_ofNat'] at hvalue
          have h47 : separator.toNat = 47 := rfl
          omega
        -- character by character the segment is the code that announces a long one
        have hsame : ∀ i ≤ 15, memory (start + (15 - i)) = 15 := by
          intro i
          induction i with
          | zero => intro _; exact hcode
          | succ i ih =>
              intro hi
              have hleft := hagree (15 - (i + 1)) (by omega)
              rw [List.getElem?_append_left (by omega), hchar _ (by omega)] at hleft
              rw [Option.some.inj hleft, ← ih (by omega)]
              congr 1
              omega
        have hcount : (memory start).toNat + 15 = 30 := by
          have h0 : memory start = 15 := by simpa using hsame 15 le_rfl
          rw [h0]
          rfl
        rw [hcount] at hpath
        obtain ⟨tail, htail⟩ : ∃ tail, [separator].intercalate (text :: rest) = text ++ tail := by
          cases rest with
          | nil => exact ⟨[], by simp⟩
          | cons next rest => exact ⟨_, by rw [List.intercalate_cons_cons, List.append_assoc]⟩
        rw [htail] at hpath
        rcases hpath with hend | ⟨more, hmore⟩
        · have hlengths := congrArg List.length hend
          simp only [List.length_append, List.length_cons, length_read] at hlengths
          omega
        · have h30 := congrArg (fun path => path[30]?) hmore
          rw [List.getElem?_append_right (by omega), hlength, List.getElem?_append_right (by simp),
            length_read] at h30
          simp only [Nat.reduceSub, List.getElem?_cons_zero, List.getElem?_cons_succ] at h30
          rw [List.getElem?_append_left (by omega)] at h30
          exact (hclean separator (List.mem_of_getElem? h30)).1 rfl
      · -- a short segment starts where the separator should be
        rw [segmentHeader, if_neg hlong] at hbehind
        obtain ⟨c, tail, rfl⟩ := List.exists_cons_of_ne_nil htext
        have hc := (holds_cons.1 (holds_append.1 hbehind).1).1
        rw [List.length_singleton, Nat.add_assoc, hsep] at hc
        exact (hclean c List.mem_cons_self).1 hc.symm

/-! ## Packets with such a segment -/

theorem intercalate_append {texts more : List (List UInt8)} (hmore : more ≠ []) :
    texts ≠ [] → [separator].intercalate (texts ++ more) =
      [separator].intercalate texts ++ separator :: [separator].intercalate more := by
  induction texts with
  | nil => intro hne; exact absurd rfl hne
  | cons text rest ih =>
      intro _
      cases rest with
      | nil =>
          obtain ⟨next, rest, rfl⟩ := List.exists_cons_of_ne_nil hmore
          simp
      | cons next rest =>
          have hrest := ih (List.cons_ne_nil next rest)
          rw [List.cons_append] at hrest
          rw [List.cons_append, List.cons_append, List.intercalate_cons_cons, hrest,
            List.intercalate_cons_cons]
          simp

theorem exists_front {texts : List (List UInt8)} (htexts : ∀ text ∈ texts, text ≠ []) :
    ∃ front, (∀ value : List UInt8,
        (joinSegment (texts.foldl joinSegment ([], 0)) value).1 = front ++ value) ∧
      ∀ more, more ≠ [] → [separator].intercalate (texts ++ more) =
        front ++ [separator].intercalate more := by
  cases texts with
  | nil => exact ⟨[], fun value => rfl, fun more _ => rfl⟩
  | cons text rest =>
      have hne : text ≠ [] := htexts text List.mem_cons_self
      have hfirst : joinSegment ([], 0) text = (text, text.length) := by
        simp [joinSegment]
      have hlength : ([separator].intercalate (text :: rest)).length > 0 := by
        cases rest with
        | nil => simpa [List.length_pos_iff] using hne
        | cons next rest => rw [List.intercalate_cons_cons]; simp
      refine ⟨[separator].intercalate (text :: rest) ++ [separator], ?_, ?_⟩
      · intro value
        rw [List.foldl_cons, hfirst, foldl_joinSegment hne]
        simp [joinSegment, hlength]
      · intro more hmore
        rw [intercalate_append hmore (List.cons_ne_nil text rest)]
        simp

theorem exists_first_long {texts : List (List UInt8)}
    (hlong : ∃ text ∈ texts, text.length = 15) :
    ∃ before segment after, texts = before ++ segment :: after ∧ segment.length = 15 ∧
      ∀ text ∈ before, text.length ≠ 15 := by
  induction texts with
  | nil => simp at hlong
  | cons text rest ih =>
      by_cases htext : text.length = 15
      · exact ⟨[], text, rest, rfl, htext, by simp⟩
      · obtain ⟨other, hmem, hother⟩ := hlong
        rcases List.mem_cons.1 hmem with rfl | hrest
        · exact absurd hother htext
        · obtain ⟨before, segment, after, hsplit, hsegment, hbefore⟩ := ih ⟨other, hrest, hother⟩
          refine ⟨text :: before, segment, after, by rw [hsplit]; rfl, hsegment, ?_⟩
          intro t ht
          rcases List.mem_cons.1 ht with rfl | ht
          · exact htext
          · exact hbefore t ht

theorem lastNumber_le {bound : ℕ} {opts : List (ℕ × List UInt8)}
    (hopts : ∀ opt ∈ opts, opt.1 ≤ bound) :
    ∀ {delta : ℕ}, delta ≤ bound → lastNumber delta opts ≤ bound := by
  induction opts with
  | nil => intro delta hdelta; exact hdelta
  | cons opt rest ih =>
      intro delta _
      exact ih (fun opt hopt => hopts opt (List.mem_cons_of_mem _ hopt))
        (hopts opt List.mem_cons_self)

/-- The options in front of the path. -/
def frontOptions (packet : CoapPacket) : List (ℕ × List UInt8) :=
  packet.optionIf .contentType [intBytes packet.contentType.toUInt32] ++
  packet.optionIf .maxAge [intBytes packet.maxAge] ++
  packet.optionIf .uriHost [intBytes packet.uriHost.toUInt32] ++
  packet.optionIf .uriPort [intBytes packet.uriPort.toUInt32]

/-- The options behind the path. -/
def backOptions (packet : CoapPacket) : List (ℕ × List UInt8) :=
  packet.optionIf .observe [intBytes packet.observe.toUInt32] ++
  packet.optionIf .token [packet.token] ++
  packet.optionIf .accept [intBytes packet.accept.toUInt32] ++
  packet.optionIf .block2 [intBytes packet.blockValue]

/-- The options of the path. -/
def pathOptions (texts : List (List UInt8)) : List (ℕ × List UInt8) :=
  texts.map fun text => (CoapOption.uriPath.number, text)

theorem plainOptions_eq {packet : CoapPacket} (hset : packet.isOption .uriPath) :
    packet.plainOptions =
      packet.frontOptions ++ pathOptions packet.segments ++ packet.backOptions := by
  simp [plainOptions, frontOptions, backOptions, pathOptions, optionIf, hset]

theorem frontOptions_lt {packet : CoapPacket} {opt : ℕ × List UInt8}
    (hopt : opt ∈ packet.frontOptions) : opt.1 < CoapOption.uriPath.number := by
  simp only [frontOptions, List.mem_append, mem_optionIf] at hopt
  rcases hopt with ((hopt | hopt) | hopt) | hopt <;>
    · rw [hopt.2.1]
      decide

theorem fenced_pathOptions (texts : List (List UInt8)) (delta : ℕ) :
    fenced delta (pathOptions texts) = pathOptions texts := by
  apply fenced_of_le
  intro opt hopt
  obtain ⟨text, _, rfl⟩ := List.mem_map.1 hopt
  show CoapOption.uriPath.number ≤ 15
  decide

theorem view_path {packet memory : CoapPacket} {before : List (List UInt8)} :
    let view := (fenced 0 (packet.frontOptions ++ pathOptions before)).foldl absorb
      (started packet memory)
    (view.uriPath, view.uriPathLen) = before.foldl joinSegment ([], 0) := by
  have hfield := field_of_fenced (fun p => (p.uriPath, p.uriPathLen)) joinSegment .uriPath
    (by decide) (fun value start => rfl)
    (fun other value start hne => by cases other <;> first | rfl | exact absurd rfl hne)
    (packet.frontOptions ++ pathOptions before) 0 (started packet memory)
  have hfront : packet.frontOptions.filter (fun opt => opt.1 = CoapOption.uriPath.number) = [] := by
    apply List.filter_eq_nil_iff.2
    intro opt hopt
    have hlt := frontOptions_lt hopt
    simp only [decide_eq_true_eq]
    omega
  have hpath : ((pathOptions before).filter fun opt => opt.1 = CoapOption.uriPath.number).map
      Prod.snd = before := by
    simp [pathOptions, List.filter_map, Function.comp_def]
  rw [List.filter_append, hfront, List.nil_append, hpath] at hfield
  exact hfield

/-- The decoder reads a segment of 15 bytes as a longer one. -/
theorem optionHeader_long {reader : Reader} {segment bytes : List UInt8}
    (hdelta : reader.currentDelta ≤ CoapOption.uriPath.number) (hlength : segment.length = 15)
    (hholds : Holds reader.buffer reader.currentOpt
      (headerOf CoapOption.uriPath.number (CoapOption.uriPath.number - reader.currentDelta)
        segment.length ++ bytes)) :
    optionHeader reader = (CoapOption.uriPath.number,
        (reader.buffer (reader.currentOpt + 1)).toNat + 15, reader.currentOpt + 2) ∧
      Holds reader.buffer (reader.currentOpt + 1) bytes := by
  have hheader : headerOf CoapOption.uriPath.number
      (CoapOption.uriPath.number - reader.currentDelta) segment.length =
        [UInt8.ofNat ((CoapOption.uriPath.number - reader.currentDelta) <<< 4 ||| 15)] := by
    simp [headerOf, segmentHeader, hlength]
  have hsmall : CoapOption.uriPath.number - reader.currentDelta < 16 := by
    have h9 : CoapOption.uriPath.number = 9 := rfl
    omega
  rw [hheader, holds_append, holds_cons] at hholds
  obtain ⟨⟨hhead, -⟩, hbytes⟩ := hholds
  have hfull : ¬ (UInt8.ofNat ((CoapOption.uriPath.number - reader.currentDelta) <<< 4 ||| 15) &&&
      0x0f) < 15 := by
    rw [UInt8.lt_iff_toNat_lt, header_length hsmall (by omega)]
    simp
  have hnumber : (reader.currentDelta + (CoapOption.uriPath.number - reader.currentDelta)) % 256 =
      CoapOption.uriPath.number := by
    have h9 : CoapOption.uriPath.number = 9 := rfl
    omega
  refine ⟨?_, hbytes⟩
  simp only [optionHeader, hhead, if_neg hfull, header_delta hsmall (show 15 < 16 by omega),
    hnumber]

/-- With a segment of 15 bytes the path that is read is not the path of the packet. -/
theorem path_ne_of_long {packet memory : CoapPacket} {written : ℕ → UInt8} {last : Reader}
    (hbuilt : Built packet) (hset : packet.isOption .uriPath)
    (hfits : packet.encodedLength ≤ 255) (hlong : ∃ text ∈ packet.segments, text.length = 15)
    (hholds : Holds written 0
      (packet.headerBytes ++ wire 0 packet.wireOptions ++ packet.payload))
    (hread : readOptions packet.wireOptions.length (startReader memory written) = .ok last) :
    last.view.uriPath ≠ packet.uriPath := by
  obtain ⟨before, segment, after, hsplit, hlength, hbefore⟩ := exists_first_long hlong
  have htexts := hbuilt.segment hset
  rw [hsplit] at htexts
  have hplain : packet.plainOptions = (packet.frontOptions ++ pathOptions before) ++
      ((CoapOption.uriPath.number, segment) :: (pathOptions after ++ packet.backOptions)) := by
    rw [plainOptions_eq hset, hsplit]
    simp [pathOptions]
  have hlast : lastNumber 0 (packet.frontOptions ++ pathOptions before) ≤
      CoapOption.uriPath.number := by
    apply lastNumber_le _ (Nat.zero_le _)
    intro opt hopt
    rcases List.mem_append.1 hopt with hfront | hpath
    · exact (frontOptions_lt hfront).le
    · obtain ⟨text, _, rfl⟩ := List.mem_map.1 hpath
      exact le_rfl
  obtain ⟨back, hback⟩ : ∃ back, packet.wireOptions =
      fenced 0 (packet.frontOptions ++ pathOptions before) ++
        (CoapOption.uriPath.number, segment) :: (pathOptions after ++ back) := by
    refine ⟨fenced (lastNumber CoapOption.uriPath.number (pathOptions after)) packet.backOptions, ?_⟩
    have h9 : CoapOption.uriPath.number = 9 := rfl
    have hafter : fenced CoapOption.uriPath.number (pathOptions after ++ packet.backOptions) =
        pathOptions after ++
          fenced (lastNumber CoapOption.uriPath.number (pathOptions after)) packet.backOptions := by
      rw [fenced_append, fenced_pathOptions]
    rw [wireOptions, hplain, fenced_append, fenced, if_neg (by omega), hafter]
  have hlegal := legal_part hplain hfits (by
    intro opt hopt hnumber
    rcases List.mem_append.1 hopt with hfront | hpath
    · exact absurd hnumber (frontOptions_lt hfront).ne
    · obtain ⟨text, htext, rfl⟩ := List.mem_map.1 hpath
      exact hbefore text htext)
  have hwire := holds_startReader memory hholds
  rw [hback, wire_append, holds_append] at hwire
  obtain ⟨hfront, hrest⟩ := hwire
  -- up to the segment the decoder reads what was written
  obtain ⟨reader, hreader, hloop⟩ :=
    readOptions_wire (pathBelow_startReader memory written) hlegal hfront
  rw [hback, List.length_append, List.length_cons, hloop, readOptions] at hread
  have hdelta : reader.currentDelta ≤ CoapOption.uriPath.number := by
    rw [hreader.delta, show (startReader memory written).currentDelta = 0 from rfl,
      lastNumber_fenced]
    exact hlast
  have hbytes : Holds reader.buffer reader.currentOpt
      (wire reader.currentDelta ((CoapOption.uriPath.number, segment) ::
        (pathOptions after ++ back))) := by
    rw [hreader.opt, hreader.delta]
    apply hrest.congr
    intro i hi _
    apply hreader.behind
    rw [hreader.opt]
    exact hi
  rw [wire, List.append_assoc] at hbytes
  obtain ⟨hheader, hbytes⟩ := optionHeader_long hdelta hlength hbytes
  cases hstep : readOption reader with
  | error failed => simp [hstep, Except.bind] at hread
  | ok next =>
      rw [hstep] at hread
      have habsorbed := readOption_spec hreader.below hstep
      have hview := habsorbed.view
      rw [hheader, hreader.view, view_startReader hholds, absorb_plain (by decide)] at hview
      set read := read reader.buffer (reader.currentOpt + 2)
        ((reader.buffer (reader.currentOpt + 1)).toNat + 15) with hreadText
      have hpath : (next.view.uriPath, next.view.uriPathLen) =
          joinSegment (before.foldl joinSegment ([], 0)) read := by
        rw [hview, ← view_path]
        rfl
      obtain ⟨front, hjoin, hpacket⟩ :=
        exists_front fun text htext => (htexts text (List.mem_append_left _ htext)).1
      have hnextPath : next.view.uriPath = front ++ read := by
        rw [← hjoin, ← hpath]
      have hnextLen : next.view.uriPathLen > 0 := by
        have hlen := congrArg Prod.snd hpath
        simp only [joinSegment] at hlen
        rw [hlen, hreadText, length_read]
        split_ifs <;> omega
      have hwhole : packet.uriPath = front ++ [separator].intercalate (segment :: after) := by
        rw [← hpacket _ (List.cons_ne_nil _ _), ← hsplit]
        exact (List.intercalate_splitOn separator).symm
      have hgrown := (readOptions_pathGrown _ habsorbed.below hnextLen hread).2
      intro hsame
      have hchar : reader.buffer (reader.currentOpt + 1) ≠ 0 := by
        obtain ⟨hne, hclean⟩ := htexts segment (by simp)
        obtain ⟨c, tail, rfl⟩ := List.exists_cons_of_ne_nil hne
        rw [(holds_cons.1 (holds_append.1 hbytes).1).1]
        exact (hclean c List.mem_cons_self).2
      apply long_segment_differs hlength
        (fun text htext => htexts text (by simp [htext])) hchar hbytes
      rw [hsame, hnextPath, hwhole] at hgrown
      rcases hgrown with hend | ⟨more, hmore⟩
      · exact .inl (List.append_cancel_left hend)
      · rw [List.append_assoc] at hmore
        exact .inr ⟨more, List.append_cancel_left hmore⟩

end CoapPacket

end Wiselib.Coap
