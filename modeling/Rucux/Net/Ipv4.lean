import Rucux.Net.Netbuf
import Mathlib.Data.Vector.Defs

/-!
Interfaces, the IPv4 header and the Ethernet framing around it: the way of a packet
from a transport protocol to the driver, and from the driver of the receiver up again.
-/

namespace Rucux.Net
open List hiding Vector

/-- `id` is the address of the interface object: interfaces are compared by it. -/
structure Netif where
  id : Nat
  mac : Vector UInt8 6
  addr : BitVec 32
  netmask : BitVec 32
  gateway : BitVec 32
  mtu : Nat
  deriving DecidableEq

/-- `g_iface_list`, the last one registered first, and `g_loopback`. -/
structure Netifs where
  list : List Netif
  loopback : Option Netif

def Netifs.isLoopback (n : Netifs) (iface : Netif) : Bool := n.loopback.any (·.id = iface.id)

def Netifs.default (n : Netifs) : Option Netif :=
  (n.list.find? (·.gateway ≠ 0)).or ((n.list.find? (!n.isLoopback ·)).or n.loopback)

def Netifs.route (n : Netifs) (dst : BitVec 32) : Option Netif :=
  if dst = 0x0100007F then n.loopback else n.default

def ipv4HeaderLen : Nat := 20
def ethHeaderLen : Nat := 14
def ethTypeIpv4 : BitVec 16 := 0x0800
def ethTypeArp : BitVec 16 := 0x0806

/-- Where a packet goes: nowhere, to the loopback, or to `arp_output` for the next hop. -/
inductive Forwarded where
  | dropped
  | transmit (iface : Netif) (packet : Netbuf)
  | resolve (iface : Netif) (frame : Netbuf) (nextHop : BitVec 32)

/-- Version 4 and five words of header, Don't Fragment, TTL 64. -/
def ipv4Header (length : Nat) (id : BitVec 16) (protocol : BitVec 8) (src dst : BitVec 32)
    (sum : BitVec 16) : List UInt8 :=
  [0x45,0] ++ store16 (htons (BitVec.ofNat 16 length)) ++ store16 (htons id) ++
    store16 (htons 0x4000) ++ [64,⟨protocol⟩] ++ store16 sum ++ store32 src ++ store32 dst

def ipv4Packet (id : BitVec 16) (protocol : BitVec 8) (src dst : BitVec 32) (data : List UInt8) :
    List UInt8 :=
  let header := ipv4Header (ipv4HeaderLen+data.length) id protocol src dst
  header (checksum (header 0)) ++ data

def Netif.onLink (iface : Netif) (dst : BitVec 32) : Bool :=
  dst = 0xFFFFFFFF || dst &&& iface.netmask = iface.addr &&& iface.netmask

/-- The destination of the frame stays zero until `arp_output` has it. -/
def ethernetHeader (iface : Netif) (ethertype : BitVec 16) : List UInt8 :=
  replicate 6 0 ++ iface.mac.toList ++ store16 (htons ethertype)

def ethernetOutput (iface : Netif) (buf : Netbuf) (dst : BitVec 32) (ethertype : BitVec 16) : Forwarded :=
  if !iface.onLink dst && iface.gateway = 0 then .dropped
  else
    match buf.push (ethernetHeader iface ethertype) with
    | none => .dropped
    | some frame => .resolve iface frame (if iface.onLink dst then dst else iface.gateway)

/-- `id` is the value of `g_ip_id`. -/
def ipv4Output (n : Netifs) (id : BitVec 16) (buf : Netbuf) (src dst : BitVec 32)
    (protocol : BitVec 8) : Forwarded :=
  let header := ipv4Header (ipv4HeaderLen+buf.len) id protocol src dst
  match buf.push (header (checksum (header 0))) with
  | none => .dropped
  | some packet =>
    match n.route dst with
    | none => .dropped
    | some iface =>
      if packet.len > iface.mtu then .dropped
      else if n.isLoopback iface then .transmit iface packet
      else ethernetOutput iface packet dst ethTypeIpv4

inductive Delivered where
  | dropped
  | tcp (buf : Netbuf)
  | udp (buf : Netbuf)
  | arp (buf : Netbuf)

def dispatch (protocol : BitVec 8) (buf : Netbuf) : Delivered :=
  if protocol = ipprotoTcp then .tcp buf
  else if protocol = ipprotoUdp then .udp buf
  else .dropped

def Netifs.owns (n : Netifs) (iface : Netif) (dst : BitVec 32) : Bool :=
  dst = iface.addr || dst = 0xFFFFFFFF || dst = iface.addr ||| ~~~iface.netmask || n.isLoopback iface

def ipv4Input (n : Netifs) (iface : Netif) (buf : Netbuf) : Delivered :=
  if buf.len < ipv4HeaderLen then .dropped
  else if byteAt buf.data 0 >>> 4 ≠ 4 then .dropped
  else
    let hdrLen := (byteAt buf.data 0 &&& 0x0F).toNat*4
    let total := (ntohs (load16 buf.data 2)).toNat
    if hdrLen < ipv4HeaderLen ∨ hdrLen > buf.len ∨ total < hdrLen ∨ total > buf.len ∨
        ntohs (load16 buf.data 6) &&& 0xBFFF ≠ 0 ∨ byteAt buf.data 8 = 0 ∨
        checksum (buf.data.take hdrLen) ≠ 0 then .dropped
    else if !n.owns iface (load32 buf.data 16) then .dropped
    else
      -- what lies behind the total length is padding of the frame
      let whole := { buf.setLen total with
        srcIp := load32 buf.data 12, dstIp := load32 buf.data 16 }
      match whole.pull hdrLen with
      | none => .dropped
      | some segment => dispatch (byteAt buf.data 9) segment

def ethernetInput (n : Netifs) (iface : Netif) (buf : Netbuf) : Delivered :=
  match buf.pull ethHeaderLen with
  | none => .dropped
  | some packet =>
    let type := ntohs (load16 buf.data 12)
    if type = ethTypeIpv4 then ipv4Input n iface packet
    else if type = ethTypeArp then .arp packet
    else .dropped

section
variable (length : Nat) (id : BitVec 16) (protocol : BitVec 8) (src : BitVec 32) (dst : BitVec 32)

theorem ipv4Header_length (sum : BitVec 16) : (ipv4Header length id protocol src dst sum).length = 20 := by
  simp [ipv4Header,store16,store32]

theorem ipv4Header_verifies : checksum (ipv4Header length id protocol src dst
      (checksum (ipv4Header length id protocol src dst 0))) = 0 := by
  have hsplit : ∀ x, ipv4Header length id protocol src dst x =
      ([0x45,0] ++ store16 (htons (BitVec.ofNat 16 length)) ++ store16 (htons id) ++
        store16 (htons 0x4000) ++ [64,⟨protocol⟩]) ++ store16 x ++ (store32 src ++ store32 dst) := by
    intro x
    simp [ipv4Header]
  rw [hsplit,hsplit]
  apply checksum_verifies <;> simp [store16,store32]

end

section
variable (length : Nat) (id : BitVec 16) (protocol : BitVec 8) (src dst : BitVec 32)
  (sum : BitVec 16) (rest : List UInt8)

theorem ipv4Header_fields : byteAt (ipv4Header length id protocol src dst sum ++ rest) 0 = 0x45 ∧
    ntohs (load16 (ipv4Header length id protocol src dst sum ++ rest) 2) = BitVec.ofNat 16 length ∧
    ntohs (load16 (ipv4Header length id protocol src dst sum ++ rest) 6) = 0x4000 ∧
    byteAt (ipv4Header length id protocol src dst sum ++ rest) 8 = 64 ∧
    byteAt (ipv4Header length id protocol src dst sum ++ rest) 9 = protocol ∧
    load32 (ipv4Header length id protocol src dst sum ++ rest) 12 = src ∧
    load32 (ipv4Header length id protocol src dst sum ++ rest) 16 = dst := by
  simp [ipv4Header,load16,load32,byteAt,store16,store32,join16,join32]

end

theorem ipv4Input_packet (n : Netifs) (iface : Netif) {buf : Netbuf} {id : BitVec 16}
    {protocol : BitVec 8} {src dst : BitVec 32} {data padding : List UInt8}
    (hdata : buf.data = ipv4Packet id protocol src dst data ++ padding)
    (hl : data.length ≤ 65515) (howns : n.owns iface dst = true) :
    ipv4Input n iface buf = dispatch protocol
      { headroom := buf.headroom+20, data := data, tailroom := buf.tailroom+padding.length
        srcIp := src, dstIp := dst } := by
  have hh := ipv4Header_length (20+data.length) id protocol src dst
    (checksum (ipv4Header (20+data.length) id protocol src dst 0))
  have hv := ipv4Header_verifies (20+data.length) id protocol src dst
  have hf := ipv4Header_fields (20+data.length) id protocol src dst
    (checksum (ipv4Header (20+data.length) id protocol src dst 0)) (data ++ padding)
  have hbuf : buf.data = ipv4Header (20+data.length) id protocol src dst
      (checksum (ipv4Header (20+data.length) id protocol src dst 0)) ++ (data ++ padding) := by
    rw [hdata,ipv4Packet,append_assoc]
    rfl
  generalize ipv4Header (20+data.length) id protocol src dst
    (checksum (ipv4Header (20+data.length) id protocol src dst 0)) = header at hh hv hf hbuf
  rw [← hbuf] at hf
  obtain ⟨h0,h2,h6,h8,h9,h12,h16⟩ := hf
  have hlen : buf.len = 20+data.length+padding.length := by
    rw [Netbuf.len,hbuf]
    simp only [length_append,hh]
    omega
  have htotal : (BitVec.ofNat 16 (20+data.length)).toNat = 20+data.length :=
    Nat.mod_eq_of_lt (by omega)
  have htake : buf.data.take 20 = header := by rw [hbuf,← hh,take_left]
  have hwhole : (buf.data.take (20+data.length)).drop 20 = data := by
    rw [hbuf,← hh,take_length_add_append,drop_left,take_left]
  have hhdr : ((0x45 : BitVec 8) &&& 0x0F).toNat*4 = 20 := by decide
  unfold ipv4Input
  rw [h0,h2,h6,h8,h9,h12,h16,htotal,hhdr,hlen]
  dsimp only
  rw [htake,hv,howns]
  rw [if_neg (by simp [ipv4HeaderLen]; omega),if_neg (by decide),
    if_neg (by simp [ipv4HeaderLen]; omega),if_neg (by decide)]
  have hpull : ({ buf.setLen (20+data.length) with srcIp := src, dstIp := dst } : Netbuf).pull 20 =
      some { headroom := buf.headroom+20, data := data, tailroom := buf.tailroom+padding.length
             srcIp := src, dstIp := dst } := by
    have hset : (buf.setLen (20+data.length)).data = buf.data.take (20+data.length) := rfl
    have hroom : buf.tailroom+(buf.len-(20+data.length)) = buf.tailroom+padding.length := by omega
    have hlong : ¬ 20 > (buf.data.take (20+data.length)).length := by
      rw [length_take,← Netbuf.len,hlen]
      omega
    simp only [Netbuf.pull,Netbuf.len,hset,hlong,if_false,hwhole]
    simp only [Netbuf.setLen,hroom]
  simp only [hpull]

def Netifs.Carries (n : Netifs) (length : Nat) (dst : BitVec 32) : Prop :=
  ∃ iface, n.route dst = some iface ∧ length ≤ iface.mtu ∧
    (n.isLoopback iface || iface.onLink dst || iface.gateway != 0) = true

theorem ipv4Output_carries {n : Netifs} {buf : Netbuf} (id : BitVec 16) (src : BitVec 32)
    {dst : BitVec 32} (protocol : BitVec 8) (hroom : 34 ≤ buf.headroom) (hway : n.Carries (20+buf.len) dst) :
    (∃ iface packet, ipv4Output n id buf src dst protocol = .transmit iface packet ∧
      packet.data = ipv4Packet id protocol src dst buf.data) ∨
    ∃ iface frame nextHop, ipv4Output n id buf src dst protocol = .resolve iface frame nextHop ∧
      frame.data = ethernetHeader iface ethTypeIpv4 ++ ipv4Packet id protocol src dst buf.data := by
  obtain ⟨iface,hroute,hmtu,hout⟩ := hway
  have hh := ipv4Header_length (ipv4HeaderLen+buf.len) id protocol src dst
    (checksum (ipv4Header (ipv4HeaderLen+buf.len) id protocol src dst 0))
  obtain ⟨packet,hpush,hdata,hleft⟩ := buf.push_some (hh.trans_le (by omega))
  have hlen : packet.len = 20+buf.len := by
    rw [Netbuf.len,hdata,length_append,hh]
    rfl
  simp only [ipv4Output,hpush,hroute]
  rw [if_neg (by omega)]
  cases hlo : n.isLoopback iface with
  | true => exact .inl ⟨iface,packet,rfl,hdata⟩
  | false =>
    have hway : ¬ (!iface.onLink dst && iface.gateway = 0) = true := by
      rw [hlo] at hout
      cases ho : iface.onLink dst <;> simp_all
    have heth : (ethernetHeader iface ethTypeIpv4).length = 14 := by simp [ethernetHeader,store16]
    obtain ⟨frame,hframe,hbytes,-⟩ := packet.push_some (heth.trans_le (by omega))
    rw [if_neg (by decide),ethernetOutput,if_neg hway,hframe]
    exact .inr ⟨iface,frame,_,rfl,by rw [hbytes,hdata]; rfl⟩

theorem ethernetInput_frame (n : Netifs) (iface : Netif) (dst src : Vector UInt8 6) {buf : Netbuf}
    {rest : List UInt8}
    (hdata : buf.data = dst.toList ++ src.toList ++ store16 (htons ethTypeIpv4) ++ rest) :
    ethernetInput n iface buf =
      ipv4Input n iface { buf with headroom := buf.headroom+14, data := rest } := by
  have hm : (dst.toList ++ src.toList).length = 12 := by simp
  generalize dst.toList ++ src.toList = macs at hm hdata
  have hlong : (macs ++ store16 (htons ethTypeIpv4)).length = 14 := by simp [hm,store16]
  have htype : ntohs (load16 buf.data 12) = ethTypeIpv4 := by
    rw [hdata,← hm,append_assoc,load16_append,ntohs_htons]
  have hdrop : buf.data.drop 14 = rest := by rw [hdata,← hlong,drop_left]
  have hlen : ¬ 14 > buf.len := by
    rw [Netbuf.len,hdata,length_append,hlong]
    omega
  have hpull : buf.pull ethHeaderLen = some { buf with headroom := buf.headroom+14, data := rest } := by
    simp only [Netbuf.pull,ethHeaderLen,hlen,if_false,hdrop]
  simp only [ethernetInput,hpull,htype,if_true]

end Rucux.Net
