import Rucux.Net.Netbuf

/-! The TCP header as `tcp_input` reads it, up to the point where a segment is
looked up: lengths, checksum and options. -/

namespace Rucux.Net

def tcpFin : BitVec 8 := 0x01
def tcpSyn : BitVec 8 := 0x02
def tcpRst : BitVec 8 := 0x04
def tcpPsh : BitVec 8 := 0x08
def tcpAck : BitVec 8 := 0x10

def tcpHeaderLen : Nat := 20
def localMss : Nat := 1460
def defaultMss : Nat := 536

def has (flags mask : BitVec 8) : Bool := flags &&& mask != 0

/-- A segment with its header fields in host order. Ports and addresses are kept
as the packet holds them; `mss` is what `parse_options` makes of the options. -/
structure Segment where
  srcIp : BitVec 32
  dstIp : BitVec 32
  srcPort : BitVec 16
  dstPort : BitVec 16
  seq : BitVec 32
  ack : BitVec 32
  flags : BitVec 8
  window : BitVec 16
  mss : Nat
  payload : List UInt8
  deriving DecidableEq, Repr

namespace Segment

def syn (seg : Segment) : Bool := has seg.flags tcpSyn
def fin (seg : Segment) : Bool := has seg.flags tcpFin
def rst (seg : Segment) : Bool := has seg.flags tcpRst
def hasAck (seg : Segment) : Bool := has seg.flags tcpAck

/-- Sequence numbers taken up: the payload, and one each for SYN and FIN. -/
def span (seg : Segment) : Nat := seg.payload.length+seg.syn.toNat+seg.fin.toNat

end Segment

/-- The option loop of `parse_options`. Each round consumes at least one byte, so
`header` rounds are enough. -/
def parseOptionsLoop (bytes : List UInt8) (header : Nat) : Nat → Nat → Nat → Bool → Option Nat
  | 0, _, mss, _ => some mss
  | fuel+1, pos, mss, seenMss =>
    if header ≤ pos then some mss
    else
      let kind := byteAt bytes pos
      if kind = 0 then some mss
      else if kind = 1 then parseOptionsLoop bytes header fuel (pos+1) mss seenMss
      else if header ≤ pos+1 then none
      else
        let length := (byteAt bytes (pos+1)).toNat
        let body := pos+2
        if length < 2 ∨ header-body < length-2 then none
        else if kind = 2 then
          if length ≠ 4 ∨ seenMss then none
          else
            let value := 256*(byteAt bytes body).toNat+(byteAt bytes (body+1)).toNat
            if value = 0 then none
            else parseOptionsLoop bytes header fuel (body+(length-2))
              (if value < localMss then value else localMss) true
        else parseOptionsLoop bytes header fuel (body+(length-2)) mss seenMss

def parseOptions (bytes : List UInt8) (header : Nat) : Option Nat :=
  parseOptionsLoop bytes header header tcpHeaderLen defaultMss false

/-- The checks of `tcp_input` ahead of the PCB lookup; `none` frees the buffer. -/
def tcpParse (src dst : BitVec 32) (bytes : List UInt8) : Option Segment :=
  if bytes.length < tcpHeaderLen then none
  else
    let header := (byteAt bytes 12 >>> 4).toNat*4
    if header < tcpHeaderLen ∨ bytes.length < header ∨
        checksumPseudo src dst ipprotoTcp bytes ≠ 0 then none
    else
      match parseOptions bytes header with
      | none => none
      | some mss => some
        { srcIp := src, dstIp := dst
          srcPort := load16 bytes 0, dstPort := load16 bytes 2
          seq := ntohl (load32 bytes 4), ack := ntohl (load32 bytes 8)
          flags := byteAt bytes 13, window := ntohs (load16 bytes 14)
          mss := mss, payload := bytes.drop header }

def tcpOptions (flags : BitVec 8) : List UInt8 :=
  if has flags tcpSyn then [2,4,5,180] else []

def tcpHeaderLength (flags : BitVec 8) : Nat := tcpHeaderLen+(tcpOptions flags).length

def tcpHeader (seg : Segment) (sum : BitVec 16) : List UInt8 :=
  store16 seg.srcPort ++ store16 seg.dstPort ++ store32 (htonl seg.seq) ++ store32 (htonl seg.ack) ++
    [⟨BitVec.ofNat 8 (tcpHeaderLength seg.flags / 4*16)⟩,⟨seg.flags⟩] ++
    store16 (htons seg.window) ++ store16 sum ++ store16 0 ++ tcpOptions seg.flags

/-- Header and payload, with the checksum over both and the pseudo header. -/
def segmentBytes (seg : Segment) : List UInt8 :=
  tcpHeader seg (checksumPseudo seg.srcIp seg.dstIp ipprotoTcp (tcpHeader seg 0 ++ seg.payload)) ++
    seg.payload

theorem has_clearFin_syn (flags : BitVec 8) :
    has (flags &&& (0xFF ^^^ tcpFin)) tcpSyn = has flags tcpSyn := by
  unfold has
  rw [BitVec.and_assoc]
  rfl

theorem has_clearFin_fin (flags : BitVec 8) : has (flags &&& (0xFF ^^^ tcpFin)) tcpFin = false := by
  unfold has
  rw [BitVec.and_assoc]
  simp [tcpFin]

theorem parseOptionsLoop_bounds (bytes : List UInt8) (header fuel pos mss : Nat) (seen : Bool)
    (hlo : 1 ≤ mss) (hhi : mss ≤ localMss) {m : Nat}
    (h : parseOptionsLoop bytes header fuel pos mss seen = some m) :
    1 ≤ m ∧ m ≤ localMss := by
  induction fuel generalizing pos mss seen with
  | zero =>
    cases h
    exact ⟨hlo,hhi⟩
  | succ fuel ih =>
    have hval : ∀ value, value ≠ 0 → 1 ≤ (if value < localMss then value else localMss) ∧
          (if value < localMss then value else localMss) ≤ localMss := by
      intro value hv
      have hl : localMss = 1460 := rfl
      split <;> omega
    simp only [parseOptionsLoop] at h
    split at h
    · cases h; exact ⟨hlo,hhi⟩
    split at h
    · cases h; exact ⟨hlo,hhi⟩
    split at h
    · exact ih _ _ _ hlo hhi h
    split at h
    · cases h
    split at h
    · cases h
    split at h
    · split at h
      · cases h
      split at h
      · cases h
      rename_i hv
      exact ih _ _ _ (hval _ hv).1 (hval _ hv).2 h
    · exact ih _ _ _ hlo hhi h

theorem tcpParse_mss {src dst : BitVec 32} {bytes : List UInt8} {seg : Segment}
    (h : tcpParse src dst bytes = some seg) : 1 ≤ seg.mss ∧ seg.mss ≤ localMss := by
  simp only [tcpParse] at h
  split at h
  · cases h
  split at h
  · cases h
  split at h
  · cases h
  rename_i mss hm
  cases h
  exact parseOptionsLoop_bounds bytes _ _ _ _ _ (by decide) (by decide) hm

/-! What `parse_options` accepts, as a grammar over the option bytes of a header. -/

open List

/-- Option bytes with the value of their MSS option. What follows an end-of-options byte is free. -/
inductive Options : List UInt8 → Option Nat → Prop where
  | nil : Options [] none
  | stop (rest : List UInt8) : Options (0 :: rest) none
  | nop {rest : List UInt8} {v : Option Nat} : Options rest v → Options (1 :: rest) v
  | other {kind length : UInt8} {body rest : List UInt8} {v : Option Nat} :
      kind ≠ 0 ∧ kind ≠ 1 ∧ kind ≠ 2 → length.toNat = body.length+2 → Options rest v →
      Options (kind :: length :: (body ++ rest)) v
  | mss {hi lo : UInt8} {rest : List UInt8} : 256*hi.toNat+lo.toNat ≠ 0 → Options rest none →
      Options (2 :: 4 :: hi :: lo :: rest) (some (256*hi.toNat+lo.toNat))

/-- The positions that the loop of `parse_options` reads, in its order. -/
def optionReads (bytes : List UInt8) (header : Nat) : Nat → Nat → Bool → List Nat
  | 0, _, _ => []
  | fuel+1, pos, seenMss =>
    if header ≤ pos then []
    else
      let kind := byteAt bytes pos
      pos :: if kind = 0 then []
      else if kind = 1 then optionReads bytes header fuel (pos+1) seenMss
      else if header ≤ pos+1 then []
      else
        let length := (byteAt bytes (pos+1)).toNat
        let body := pos+2
        (pos+1) :: if length < 2 ∨ header-body < length-2 then []
        else if kind = 2 then
          if length ≠ 4 ∨ seenMss then []
          else body :: (body+1) ::
            if 256*(byteAt bytes body).toNat+(byteAt bytes (body+1)).toNat = 0 then []
            else optionReads bytes header fuel (body+(length-2)) true
        else optionReads bytes header fuel (body+(length-2)) seenMss

theorem optionReads_inside (bytes : List UInt8) (header fuel pos : Nat) (seen : Bool) :
    ∀ i ∈ optionReads bytes header fuel pos seen, pos ≤ i ∧ i < header := by
  induction fuel generalizing pos seen with
  | zero => nofun
  | succ fuel ih =>
    intro i hi
    simp only [optionReads] at hi
    split_ifs at hi <;> simp only [mem_cons,not_mem_nil] at hi <;> grind

theorem drop_take_cons {l : List UInt8} {h p : Nat} (hl : h ≤ l.length) (hp : p < h) :
    (l.take h).drop p = l.getD p 0 :: (l.take h).drop (p+1) := by
  rw [drop_eq_getElem_cons (by rw [length_take]; omega),getElem_take,getD_eq_getElem?_getD,
    getElem?_eq_getElem (by omega)]
  rfl

section
variable {kind length : UInt8} {rest : List UInt8} {v : Option Nat}

theorem options_nil : Options [] v ↔ v = none := ⟨fun h => by cases h; rfl,fun h => h ▸ .nil⟩

theorem options_stop : Options (0 :: rest) v ↔ v = none :=
  ⟨fun h => by cases h <;> simp_all,fun h => h ▸ .stop rest⟩

theorem options_nop : Options (1 :: rest) v ↔ Options rest v :=
  ⟨fun h => by cases h <;> simp_all,.nop⟩

theorem options_mss : Options (2 :: length :: rest) v ↔ length = 4 ∧ ∃ hi lo r, rest = hi :: lo :: r ∧
    256*hi.toNat+lo.toNat ≠ 0 ∧ v = some (256*hi.toNat+lo.toNat) ∧ Options r none := by
  constructor
  · intro h
    cases h with
    | mss hv h => exact ⟨rfl,_,_,_,rfl,hv,rfl,h⟩
    | other hn => exact absurd rfl hn.2.2
  · rintro ⟨rfl,hi,lo,r,rfl,hv,rfl,h⟩
    exact .mss hv h

theorem options_other (hk : kind ≠ 0 ∧ kind ≠ 1 ∧ kind ≠ 2) :
    Options (kind :: length :: rest) v ↔ 2 ≤ length.toNat ∧ length.toNat-2 ≤ rest.length ∧
      Options (rest.drop (length.toNat-2)) v := by
  constructor
  · intro h
    cases h with
    | other _ hl h => simp [hl,h]
    | _ => simp at hk
  rintro ⟨h2,hl,h⟩
  rw [← take_append_drop (length.toNat-2) rest]
  exact .other hk (by rw [length_take]; omega) h

end

theorem parseOptionsLoop_iff {bytes : List UInt8} {header : Nat} (hb : header ≤ bytes.length)
    (fuel pos mss : Nat) (seen : Bool) (hf : header ≤ fuel+pos) (m : Nat) :
    parseOptionsLoop bytes header fuel pos mss seen = some m ↔
      ∃ v, Options ((bytes.take header).drop pos) v ∧ (seen = true → v = none) ∧
        v.elim mss (min · localMss) = m := by
  have hrest : ∀ q, ((bytes.take header).drop q).length = header-q := by
    intro q
    rw [length_drop,length_take,Nat.min_eq_left hb]
  have hnil : ∀ q, header ≤ q → (bytes.take header).drop q = [] := fun q hq =>
    length_eq_zero_iff.mp (by rw [hrest]; omega)
  induction fuel generalizing pos mss seen with
  | zero => simp [parseOptionsLoop,hnil pos (by omega),options_nil]
  | succ fuel ih =>
    have hk : ∀ c : UInt8, byteAt bytes pos = c.toBitVec ↔ bytes.getD pos 0 = c :=
      fun _ => UInt8.toBitVec_inj
    have hval : ∀ i, (byteAt bytes i).toNat = (bytes.getD i 0).toNat := fun _ => rfl
    simp only [parseOptionsLoop,show byteAt bytes pos = 0 ↔ _ from hk 0,
      show byteAt bytes pos = 1 ↔ _ from hk 1,show byteAt bytes pos = 2 ↔ _ from hk 2,hval]
    split
    · simp [hnil pos ‹_›,options_nil]
    rw [drop_take_cons hb (by omega)]
    generalize bytes.getD pos 0 = kind
    split
    · simp [*,options_stop]
    split
    · simpa [*,options_nop] using ih (pos+1) mss seen (by omega)
    rename_i hk0 hk1
    split
    · rw [hnil _ ‹_›]
      refine ⟨by simp,?_⟩
      rintro ⟨v,hv,-⟩
      cases hv <;> contradiction
    rw [drop_take_cons hb (by omega)]
    generalize bytes.getD (pos+1) 0 = length
    by_cases hk2 : kind = 2
    · subst kind
      by_cases hl : length = 4
      · subst length
        simp only [options_mss,show UInt8.toNat 4 = 4 from rfl,true_and]
        split
        · refine ⟨by simp,?_⟩
          rintro ⟨v,⟨hi,lo,r,hr,-⟩,-⟩
          have := congrArg length hr
          rw [hrest,length_cons,length_cons] at this
          omega
        rw [drop_take_cons hb (by omega),drop_take_cons hb (by omega)]
        generalize bytes.getD (pos+2) 0 = hi
        generalize bytes.getD (pos+2+1) 0 = lo
        generalize hv : 256*hi.toNat+lo.toNat = value
        have hnext := ih (pos+2+2) (min value localMss) true (by omega)
        by_cases hz : value = 0 <;> cases seen <;> simp [hz,hv,← min_def_lt,hnext] <;> intros <;> omega
      · have hn : length.toNat ≠ 4 := fun h => hl (UInt8.toNat_inj.mp h)
        simp [options_mss,hl,hn]
    simp only [options_other ⟨hk0,hk1,hk2⟩,if_neg hk2,hrest,drop_drop]
    split
    · simp only [false_iff,reduceCtorEq]
      rintro ⟨v,⟨h2,hl,-⟩,-⟩
      omega
    · refine (ih (pos+2+(length.toNat-2)) mss seen (by omega)).trans ?_
      simp only [show 2 ≤ length.toNat by omega,show length.toNat-2 ≤ header-(pos+2) by omega,true_and]

theorem parseOptions_grammar (bytes : List UInt8) (header : Nat) (hb : header ≤ bytes.length) :
    (∀ m, parseOptions bytes header = some m ↔
      ∃ v, Options ((bytes.take header).drop tcpHeaderLen) v ∧ m = v.elim defaultMss (min · localMss)) ∧
    ∀ i ∈ optionReads bytes header header tcpHeaderLen false, tcpHeaderLen ≤ i ∧ i < header := by
  refine ⟨fun m => ?_,optionReads_inside _ _ _ _ _⟩
  rw [parseOptions,parseOptionsLoop_iff hb _ _ _ _ (by omega)]
  simp [eq_comm]

theorem parseOptions_large_mss : parseOptions (replicate 20 0 ++ [1,2,4,5,220,0]) 26 = some 1460 :=
  ((parseOptions_grammar (replicate 20 0 ++ [1,2,4,5,220,0]) 26 (by decide)).1 1460).mpr
    ⟨some 1500,.nop (.mss (by decide) (.stop [])),rfl⟩

end Rucux.Net
