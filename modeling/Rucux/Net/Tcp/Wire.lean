import Rucux.Net.Ipv4
import Rucux.Net.Tcp.Ops

/-! The buffers behind the segments: what `send_segment`, `copy_segment` and `acknowledge` do to the bytes,
and that it is what the model of the PCB says of the segment. -/

namespace Rucux.Net
open List hiding Vector
attribute [local simp] store16 store32

def Holds (bytes : List UInt8) (seg : Segment) : Prop :=
  ∃ sum, bytes = tcpHeader seg sum ++ seg.payload

def dataOffset (bytes : List UInt8) : Nat := (byteAt bytes 12 >>> 4).toNat*4

def writeChecksum (src dst : BitVec 32) (bytes : List UInt8) : List UInt8 :=
  writeAt 16 bytes (store16 (checksumPseudo src dst ipprotoTcp (writeAt 16 bytes (store16 0))))

/-- The buffer of `send_segment`, before a reliable segment is copied. -/
def buildBuffer (p : Pcb) (flags : BitVec 8) (data : List UInt8) (probe : Bool) : Option Netbuf := do
  let buf ← Netbuf.alloc.put data
  let buf ← buf.push (tcpHeader (makeSegment p flags data probe) 0)
  some { buf with
    data := writeChecksum p.localIp p.remoteIp buf.data
    srcIp := p.localIp, dstIp := p.remoteIp }

def limitPayload (bytes : List UInt8) (limit : Nat) : List UInt8 :=
  if limit < bytes.length-dataOffset bytes then
    writeAt 13 (bytes.take (dataOffset bytes+limit)) [⟨byteAt bytes 13 &&& (0xFF ^^^ tcpFin)⟩]
  else bytes

/-- The acknowledgement, if the segment has one, and the window are brought up to date. -/
def refreshHeader (p : Pcb) (bytes : List UInt8) : List UInt8 :=
  let bytes := if has (byteAt bytes 13) tcpAck then writeAt 8 bytes (store32 (htonl p.rcvNxt))
    else bytes
  writeAt 14 bytes (store16 (htons (BitVec.ofNat 16 p.rcvWnd)))

def copyBuffer (p : Pcb) (original : Netbuf) (limit : Nat) : Option Netbuf := do
  let copy ← Netbuf.alloc.put original.data
  some { copy with
    data := writeChecksum p.localIp p.remoteIp (refreshHeader p (limitPayload copy.data limit))
    srcIp := p.localIp, dstIp := p.remoteIp }

def sendBuffer (p : Pcb) (flags : BitVec 8) (data : List UInt8) (probe : Bool) : Option Netbuf := do
  let buf ← buildBuffer p flags data probe
  if reliable flags data then copyBuffer p buf localMss else some buf

theorem tcpHeader_length (seg : Segment) (sum : BitVec 16) :
    (tcpHeader seg sum).length = tcpHeaderLength seg.flags := by
  simp [tcpHeader,tcpHeaderLength,tcpHeaderLen]
  omega

theorem tcpHeaderLength_eq (flags : BitVec 8) :
    tcpHeaderLength flags = if has flags tcpSyn then 24 else 20 := by
  unfold tcpHeaderLength tcpOptions
  split <;> rfl

section
variable (seg : Segment) (sum : BitVec 16) (rest : List UInt8)

theorem tcpHeader_offset : dataOffset (tcpHeader seg sum ++ rest) = tcpHeaderLength seg.flags := by
  have h : byteAt (tcpHeader seg sum ++ rest) 12 = BitVec.ofNat 8 (tcpHeaderLength seg.flags / 4*16) := by
    simp [tcpHeader,byteAt]
  rw [dataOffset,h,tcpHeaderLength_eq]
  split <;> decide

@[simp] theorem tcpHeader_flags : byteAt (tcpHeader seg sum ++ rest) 13 = seg.flags := by
  simp [tcpHeader,byteAt]

theorem write_ack (x : BitVec 32) : writeAt 8 (tcpHeader seg sum ++ rest) (store32 (htonl x)) =
    tcpHeader { seg with ack := x } sum ++ rest := by
  simp [writeAt,tcpHeader]

theorem write_flags {x : BitVec 8} (h : has x tcpSyn = has seg.flags tcpSyn) :
    writeAt 13 (tcpHeader seg sum ++ rest) [⟨x⟩] = tcpHeader { seg with flags := x } sum ++ rest := by
  simp [writeAt,tcpHeader,tcpHeaderLength,tcpOptions,h]

theorem write_window (x : BitVec 16) : writeAt 14 (tcpHeader seg sum ++ rest) (store16 (htons x)) =
    tcpHeader { seg with window := x } sum ++ rest := by
  simp [writeAt,tcpHeader]

theorem write_sum (x : BitVec 16) : writeAt 16 (tcpHeader seg sum ++ rest) (store16 x) =
    tcpHeader seg x ++ rest := by
  simp [writeAt,tcpHeader]

end

section
variable {bytes : List UInt8} {seg : Segment}

theorem writeChecksum_bytes (h : Holds bytes seg) :
    writeChecksum seg.srcIp seg.dstIp bytes = segmentBytes seg := by
  obtain ⟨sum,rfl⟩ := h
  rw [writeChecksum,write_sum,write_sum,segmentBytes]

theorem segmentBytes_holds (seg : Segment) : Holds (segmentBytes seg) seg := ⟨_,rfl⟩

theorem Holds.length (h : Holds bytes seg) :
    bytes.length = tcpHeaderLength seg.flags+seg.payload.length := by
  obtain ⟨sum,rfl⟩ := h
  rw [length_append,tcpHeader_length]

theorem Holds.dataOffset (h : Holds bytes seg) : dataOffset bytes = tcpHeaderLength seg.flags := by
  obtain ⟨sum,rfl⟩ := h
  exact tcpHeader_offset seg sum seg.payload

theorem limitPayload_holds (h : Holds bytes seg) (limit : Nat) : Holds (limitPayload bytes limit)
      { seg with
        flags := if limit < seg.payload.length then seg.flags &&& (0xFF ^^^ tcpFin) else seg.flags
        payload := seg.payload.take limit } := by
  have hlong : bytes.length-dataOffset bytes = seg.payload.length := by
    rw [h.length,h.dataOffset]
    omega
  unfold limitPayload
  rw [hlong]
  split
  · rw [h.dataOffset]
    obtain ⟨sum,rfl⟩ := h
    refine ⟨sum,?_⟩
    rw [← tcpHeader_length seg sum,take_length_add_append,tcpHeader_flags,
      write_flags _ _ _ (has_clearFin_syn seg.flags)]
    rfl
  rename_i hl
  obtain ⟨sum,rfl⟩ := h
  rw [take_of_length_le (by omega)]
  exact ⟨sum,rfl⟩

theorem refreshHeader_holds (p : Pcb) (h : Holds bytes seg) : Holds (refreshHeader p bytes)
      { seg with
        ack := if has seg.flags tcpAck then p.rcvNxt else seg.ack
        window := BitVec.ofNat 16 p.rcvWnd } := by
  obtain ⟨sum,rfl⟩ := h
  unfold refreshHeader
  rw [tcpHeader_flags]
  split
  · exact ⟨sum,by rw [write_ack,write_window]⟩
  · exact ⟨sum,by rw [write_window]⟩

theorem copyBuffer_bytes (p : Pcb) {original : Netbuf} (h : Holds original.data seg)
    (hl : original.data.length ≤ 1920) (limit : Nat) :
    copyBuffer p original limit = some { Netbuf.alloc with
        data := segmentBytes (segmentCopy p seg limit)
        tailroom := 1920-original.data.length, srcIp := p.localIp, dstIp := p.remoteIp } := by
  have hput : Netbuf.alloc.put original.data = some
      { Netbuf.alloc with data := original.data, tailroom := 1920-original.data.length } := by
    simp [Netbuf.put,Netbuf.alloc,hl]
  have hcopy : Holds (refreshHeader p (limitPayload original.data limit)) (segmentCopy p seg limit) := by
    obtain ⟨sum,hs⟩ := refreshHeader_holds p (limitPayload_holds h limit)
    exact ⟨sum,hs⟩
  rw [copyBuffer,hput,← writeChecksum_bytes hcopy]
  rfl

end

variable {data : List UInt8}

section
variable (p : Pcb) (flags : BitVec 8) (probe : Bool)

theorem segmentCopy_makeSegment (hl : data.length ≤ localMss) :
    segmentCopy p (makeSegment p flags data probe) localMss = makeSegment p flags data probe := by
  have hn : ¬ localMss < data.length := by omega
  have hack : (if has flags tcpAck then p.rcvNxt else if has flags tcpAck then p.rcvNxt else 0) =
      if has flags tcpAck then p.rcvNxt else 0 := by
    split <;> rfl
  simp only [segmentCopy,makeSegment,hn,if_false,take_of_length_le hl,hack]

theorem buildBuffer_bytes (hl : data.length ≤ 1920) : buildBuffer p flags data probe = some
      { headroom := 128-tcpHeaderLength flags
        data := segmentBytes (makeSegment p flags data probe)
        tailroom := 1920-data.length, srcIp := p.localIp, dstIp := p.remoteIp } := by
  have hput : Netbuf.alloc.put data = some
      { Netbuf.alloc with data := data, tailroom := 1920-data.length } := by
    simp [Netbuf.put,Netbuf.alloc,hl]
  have hh := tcpHeader_length (makeSegment p flags data probe) 0
  have hflags : (makeSegment p flags data probe).flags = flags := rfl
  have hroom : ¬ tcpHeaderLength flags > 128 := by
    rw [tcpHeaderLength_eq]
    split <;> omega
  have hholds : Holds (tcpHeader (makeSegment p flags data probe) 0 ++ data)
      (makeSegment p flags data probe) := ⟨0,rfl⟩
  rw [buildBuffer,hput]
  simp only [Option.bind_eq_bind,Option.bind_some,Netbuf.push,Netbuf.alloc,hh,hflags,hroom,if_false,
    ← writeChecksum_bytes hholds]
  rfl

theorem sendBuffer_bytes (hl : data.length ≤ localMss) :
    ∃ buf, sendBuffer p flags data probe = some buf ∧ 34 ≤ buf.headroom ∧
      buf.data = segmentBytes (makeSegment p flags data probe) ∧
      buf.srcIp = p.localIp ∧ buf.dstIp = p.remoteIp := by
  have hm : localMss = 1460 := rfl
  have hlen : tcpHeaderLength flags ≤ 24 := by
    rw [tcpHeaderLength_eq]
    split <;> omega
  rw [sendBuffer,buildBuffer_bytes p flags probe (by omega)]
  simp only [Option.bind_eq_bind,Option.bind_some]
  split
  · have hholds := segmentBytes_holds (makeSegment p flags data probe)
    have hsize : (segmentBytes (makeSegment p flags data probe)).length ≤ 1920 := by
      rw [hholds.length]
      change tcpHeaderLength flags+data.length ≤ 1920
      omega
    rw [copyBuffer_bytes p hholds hsize,segmentCopy_makeSegment p flags probe hl]
    exact ⟨_,rfl,show 34 ≤ 128 by decide,rfl,rfl,rfl⟩
  · exact ⟨_,rfl,show 34 ≤ 128-tcpHeaderLength flags by omega,rfl,rfl,rfl⟩

end

theorem segmentBytes_verifies {seg : Segment} (hl : seg.payload.length ≤ 65000) :
    checksumPseudo seg.srcIp seg.dstIp ipprotoTcp (segmentBytes seg) = 0 := by
  have hsplit : ∀ x, tcpHeader seg x ++ seg.payload =
      (store16 seg.srcPort ++ store16 seg.dstPort ++ store32 (htonl seg.seq) ++ store32 (htonl seg.ack) ++
        [⟨BitVec.ofNat 8 (tcpHeaderLength seg.flags / 4*16)⟩,⟨seg.flags⟩] ++
        store16 (htons seg.window)) ++ store16 x ++
      (store16 0 ++ tcpOptions seg.flags ++ seg.payload) := by
    intro x
    simp [tcpHeader]
  have hopt : (tcpOptions seg.flags).length ≤ 4 := by
    unfold tcpOptions
    split <;> simp
  rw [segmentBytes,hsplit,hsplit]
  apply checksumPseudo_verifies
  · simp
  simp only [length_append,store16,store32,length_cons,length_nil]
  omega

theorem parseOptions_header (seg : Segment) (sum : BitVec 16) (rest : List UInt8) :
    parseOptions (tcpHeader seg sum ++ rest) (tcpHeaderLength seg.flags) =
      some (if seg.syn then localMss else defaultMss) := by
  unfold Segment.syn
  cases h : has seg.flags tcpSyn with
  | false =>
    rw [tcpHeaderLength_eq,h]
    rfl
  | true =>
    have hbytes : byteAt (tcpHeader seg sum ++ rest) 20 = 2 ∧
        byteAt (tcpHeader seg sum ++ rest) 21 = 4 ∧ byteAt (tcpHeader seg sum ++ rest) 22 = 5 ∧
        byteAt (tcpHeader seg sum ++ rest) 23 = 180 := by
      simp [tcpHeader,byteAt,tcpOptions,h]
    rw [tcpHeaderLength_eq,h]
    simp [parseOptions,parseOptionsLoop,tcpHeaderLen,hbytes,localMss]

theorem tcpParse_holds {bytes : List UInt8} {seg : Segment} (h : Holds bytes seg) (src dst : BitVec 32) :
    tcpParse src dst bytes =
      if checksumPseudo src dst ipprotoTcp bytes = 0 then
        some { seg with
          srcIp := src, dstIp := dst, mss := if seg.syn then localMss else defaultMss }
      else none := by
  have hlen := h.length
  have hoff : (byteAt bytes 12 >>> 4).toNat*4 = tcpHeaderLength seg.flags := h.dataOffset
  have hlo : tcpHeaderLen ≤ tcpHeaderLength seg.flags := Nat.le_add_right ..
  unfold tcpParse
  rw [if_neg (by omega),hoff]
  by_cases hs : checksumPseudo src dst ipprotoTcp bytes = 0
  · rw [if_neg (by simp only [hs,ne_eq,not_true,or_false]; omega),if_pos hs]
    obtain ⟨sum,rfl⟩ := h
    rw [parseOptions_header]
    have hdrop : (tcpHeader seg sum ++ seg.payload).drop (tcpHeaderLength seg.flags) = seg.payload := by
      rw [← tcpHeader_length seg sum,drop_left]
    rw [hdrop]
    simp [tcpHeader,load16,load32,byteAt,join16,join32]
  · rw [if_pos (.inr (.inr hs)),if_neg hs]

def Delivered.Sees (seg : Segment) (d : Delivered) : Prop :=
  ∃ buf, d = .tcp buf ∧ tcpParse buf.srcIp buf.dstIp buf.data = some seg

/-- What the driver of the receiver finds: the destination is filled in and the frame
may be padded. -/
def framed (mac : Vector UInt8 6) (frame padding : List UInt8) : List UInt8 :=
  mac.toList ++ frame.drop 6 ++ padding

/-- Every interface that owns the destination hands `seg` to `tcp_input`. -/
def Forwarded.Reaches (seg : Segment) : Forwarded → Prop
  | .dropped => False
  | .transmit _ packet => ∀ (m : Netifs) (dest : Netif) (got : Netbuf) (padding : List UInt8),
      m.owns dest seg.dstIp = true → got.data = packet.data ++ padding →
      (ipv4Input m dest got).Sees seg
  | .resolve _ frame _ =>
      ∀ (m : Netifs) (dest : Netif) (got : Netbuf) (mac : Vector UInt8 6) (padding : List UInt8),
      m.owns dest seg.dstIp = true → got.data = framed mac frame.data padding →
      (ethernetInput m dest got).Sees seg

theorem ipv4Input_sees {p : Pcb} {flags : BitVec 8} {probe : Bool} (hl : data.length ≤ localMss)
    (m : Netifs) (dest : Netif) {got : Netbuf} {id : BitVec 16} {padding : List UInt8}
    (howns : m.owns dest p.remoteIp = true)
    (hgot : got.data = ipv4Packet id ipprotoTcp p.localIp p.remoteIp
      (segmentBytes (makeSegment p flags data probe)) ++ padding) :
    (ipv4Input m dest got).Sees (makeSegment p flags data probe) := by
  have hpay : (makeSegment p flags data probe).payload.length ≤ 1460 := hl
  have hholds := segmentBytes_holds (makeSegment p flags data probe)
  have hlen : (segmentBytes (makeSegment p flags data probe)).length ≤ 65515 := by
    rw [hholds.length,tcpHeaderLength_eq]
    split <;> omega
  rw [ipv4Input_packet m dest hgot hlen howns]
  refine ⟨_,rfl,?_⟩
  exact (tcpParse_holds hholds _ _).trans (if_pos (segmentBytes_verifies (by omega)))

theorem packet_round_trip (p : Pcb) (flags : BitVec 8) (data : List UInt8) (probe : Bool)
    (hl : data.length ≤ 1460) :
    (∃ buf, sendBuffer p flags data probe = some buf ∧
      ∀ (n : Netifs) (id : BitVec 16), n.Carries (20+buf.len) buf.dstIp →
        (ipv4Output n id buf buf.srcIp buf.dstIp ipprotoTcp).Reaches (makeSegment p flags data probe)) ∧
    ((makeSegment p flags data probe).syn = true → (makeSegment p flags data probe).mss = 1460) ∧
    ∀ front back : List UInt8, front.length % 2 = 0 → (front ++ back).length ≤ 65535 →
      checksum (front ++ store16 (checksum (front ++ store16 0 ++ back)) ++ back) = 0 ∧
      ∀ src dst protocol, checksumPseudo src dst protocol (front ++
        store16 (checksumPseudo src dst protocol (front ++ store16 0 ++ back)) ++ back) = 0 := by
  refine ⟨?_,fun hsyn => if_pos hsyn,fun front back he hb =>
    ⟨checksum_verifies he hb,fun src dst protocol => checksumPseudo_verifies src dst protocol he hb⟩⟩
  obtain ⟨buf,hbuf,hroom,hdata,hsrc,hdst⟩ := sendBuffer_bytes p flags probe hl
  refine ⟨buf,hbuf,fun n id hway => ?_⟩
  rw [hdst] at hway
  rw [hsrc,hdst]
  obtain ⟨iface,packet,hout,hbytes⟩ | ⟨iface,frame,nextHop,hout,hbytes⟩ :=
    ipv4Output_carries id p.localIp ipprotoTcp hroom hway
  · rw [hout]
    intro m dest got padding howns hgot
    rw [hbytes,hdata] at hgot
    exact ipv4Input_sees hl m dest howns hgot
  rw [hout]
  intro m dest got mac padding howns hgot
  have hframe : framed mac frame.data padding = mac.toList ++ iface.mac.toList ++
      store16 (htons ethTypeIpv4) ++ (ipv4Packet id ipprotoTcp p.localIp p.remoteIp
        (segmentBytes (makeSegment p flags data probe)) ++ padding) := by
    rw [framed,hbytes,hdata,ethernetHeader]
    simp
  rw [ethernetInput_frame m dest mac iface.mac (hgot.trans hframe)]
  exact ipv4Input_sees hl m dest howns rfl

/-- An address on 10.0.0.0/24 and the interface that has it. -/
def Pcb.onLan : Pcb :=
  { Pcb.fresh 1 with
    state := .established, localIp := 0x0100000A, localPort := 7, remoteIp := 0x0200000A
    remotePort := 9 }

def Netifs.lan : Netifs :=
  ⟨[⟨1,.replicate 6 2,0x0100000A,0x00FFFFFF,0,1500⟩],none⟩

theorem packet_round_trip_onLan : ∃ buf, sendBuffer .onLan tcpAck [1,2,3] false = some buf ∧
    (ipv4Output .lan 7 buf buf.srcIp buf.dstIp ipprotoTcp).Reaches
      (makeSegment .onLan tcpAck [1,2,3] false) := by
  obtain ⟨⟨buf,hbuf,hreach⟩,-⟩ := packet_round_trip .onLan tcpAck [1,2,3] false (by decide)
  have hfields : (sendBuffer .onLan tcpAck [1,2,3] false).map (fun b => (b.len,b.dstIp)) =
      some (23,0x0200000A) := by decide +kernel
  rw [hbuf] at hfields
  injection hfields with hfields
  injection hfields with hlen hdst
  exact ⟨buf,hbuf,hreach _ _ ⟨_,by rw [hdst]; rfl,by rw [hlen]; decide,by rw [hdst]; decide⟩⟩

end Rucux.Net
