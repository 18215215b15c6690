import Rucux.Net.Tcp.Lifecycle
import Rucux.Lib.Serial

namespace Rucux.Net
open Lib List
open Lib.Serial (offset)
attribute [local simp] Segment.span

/-- `seg` holds what the stream of `sent` bytes has from position `pos` on. -/
inductive Placed (sent : List UInt8) (pos : Nat) (seg : Segment) : Prop where
  | syn (hs : seg.syn = true) (hf : seg.fin = false) (hp : seg.payload = []) (h0 : pos = 0)
  | data (hs : seg.syn = false) (hf : seg.fin = false) (hne : seg.payload ≠ [])
      (hlen : seg.payload.length ≤ localMss) (h1 : 1 ≤ pos)
      (hpre : seg.payload <+: sent.drop (pos-1))
  | fin (hs : seg.syn = false) (hf : seg.fin = true) (hp : seg.payload = [])
      (hend : pos = sent.length+1)

/-- The nodes take up the positions from `una` to `nxt`, in order and without gap. -/
def Covers (iss : BitVec 32) (sent : List UInt8) : Nat → List (Nat × Segment) → Nat → Prop
  | una, [], nxt => una = nxt
  | una, (_,seg) :: rest, nxt =>
    seg.seq = offset iss una ∧ Placed sent una seg ∧ Covers iss sent (una+seg.span) rest nxt

variable {iss : BitVec 32} {sent : List UInt8}

variable {seg : Segment} {nodes : List (Nat × Segment)}

section
variable {pos : Nat} (h : Placed sent pos seg)
include h

theorem Placed.span_pos : 1 ≤ seg.span := by
  unfold Segment.span
  cases h with
  | syn hs => simp [hs]; omega
  | data hs hf hne =>
    have := length_pos_iff.mpr hne
    omega
  | fin hs hf => simp [hf]

theorem Placed.span_le : seg.span ≤ localMss := by
  have hl : localMss = 1460 := rfl
  unfold Segment.span
  cases h with
  | syn hs hf hp => simp [hs,hf,hp,hl]
  | data hs hf hne hlen => simp [hs,hf]; omega
  | fin hs hf hp => simp [hs,hf,hp,hl]

theorem Placed.append (hend : pos+seg.span ≤ sent.length+1) (more : List UInt8) :
    Placed (sent ++ more) pos seg := by
  cases h with
  | syn hs hf hp h0 => exact .syn hs hf hp h0
  | data hs hf hne hlen h1 hpre =>
    refine .data hs hf hne hlen h1 ?_
    rw [drop_append_of_le_length (by omega)]
    exact hpre.trans (prefix_append _ _)
  | fin hs hf hp he =>
    have hspan : 1 ≤ seg.span := by simp [hf]
    omega

end

section
variable {una nxt : Nat} (h : Covers iss sent una nodes nxt)
include h

theorem Covers.bounds : una+nodes.length ≤ nxt ∧ nxt ≤ una+localMss*nodes.length := by
  induction nodes generalizing una with
  | nil =>
    cases h
    simp
  | cons node rest ih =>
    obtain ⟨_,hplaced,hrest⟩ := h
    have hpos := hplaced.span_pos
    have hle := hplaced.span_le
    have hih := ih hrest
    simp only [length_cons,Nat.mul_succ]
    omega

theorem Covers.snoc (a : Nat) (hseq : seg.seq = offset iss nxt) (hplaced : Placed sent nxt seg) :
    Covers iss sent una (nodes ++ [(a,seg)]) (nxt+seg.span) := by
  induction nodes generalizing una with
  | nil =>
    cases h
    exact ⟨hseq,hplaced,rfl⟩
  | cons node rest ih => exact ⟨h.1,h.2.1,ih h.2.2⟩

theorem Covers.append (hend : nxt ≤ sent.length+1) (more : List UInt8) :
    Covers iss (sent ++ more) una nodes nxt := by
  induction nodes generalizing una with
  | nil => exact h
  | cons node rest ih =>
    obtain ⟨hseq,hplaced,hrest⟩ := h
    have hb := hrest.bounds.1
    exact ⟨hseq,hplaced.append (by omega) more,ih hrest⟩

end

theorem Placed.trim {pos n : Nat} (h : Placed sent pos seg) (hs : seg.syn = false) (hpos : 0 < n)
    (hn : n < seg.span) (seq : BitVec 32) :
    Placed sent (pos+n) { seg with payload := seg.payload.drop n, seq := seq } ∧
      n ≤ seg.payload.length := by
  cases h with
  | syn hs' => simp [hs] at hs'
  | data hs' hf hne hlen h1 hpre =>
    have hspan : seg.span = seg.payload.length := by simp [hs',hf]
    refine ⟨.data hs' hf ?_ ?_ (by omega) ?_,by omega⟩
    · intro hnil
      have hlen := congrArg length hnil
      simp only [length_drop,length_nil] at hlen
      omega
    · simp only [length_drop]; omega
    · have hd := hpre.drop n
      rwa [drop_drop,show pos-1+n = pos+n-1 by omega] at hd
  | fin hs' hf hp =>
    have hspan : seg.span = 1 := by simp [hs',hf,hp]
    omega

theorem acknowledgeLoop_covers (data count : Nat) {una nxt n : Nat} (hc : Covers iss sent una nodes nxt)
    (hle : una ≤ n) (hn : n ≤ nxt) (hhalf : 2*(nxt-una) < 2^32) (hcount : count = nodes.length) :
    Covers iss sent n (acknowledgeLoop (offset iss n) nodes data count).1 nxt ∧
      (acknowledgeLoop (offset iss n) nodes data count).2.2 =
        (acknowledgeLoop (offset iss n) nodes data count).1.length ∧
      (acknowledgeLoop (offset iss n) nodes data count).1.map Prod.fst <:+ nodes.map Prod.fst := by
  induction nodes generalizing una data count with
  | nil =>
    have hnxt : una = nxt := hc
    have hna : n = nxt := by omega
    exact ⟨hna,hcount,suffix_refl _⟩
  | cons node rest ih =>
    obtain ⟨a,seg⟩ := node
    obtain ⟨hseq,hplaced,hrest⟩ := hc
    have hb := hrest.bounds.1
    have hpos := hplaced.span_pos
    -- Both comparisons of the loop are between positions of one window.
    have hend : 0 ≤ (offset iss n - (seg.seq + BitVec.ofNat 32 seg.span)).toInt ↔ una+seg.span ≤ n := by
      rw [hseq,Serial.offset_add]
      exact Serial.nonneg_offset_sub iss (by omega) (by omega)
    have hstart : 0 < (offset iss n - seg.seq).toInt ↔ una < n := by
      rw [hseq]
      exact Serial.pos_offset_sub iss (by omega) (by omega)
    have hcov : (offset iss n - seg.seq).toNat = n-una := by
      rw [hseq]
      exact Serial.offset_sub_toNat iss hle (by omega)
    rw [acknowledgeLoop]
    by_cases hdone : una+seg.span ≤ n
    · simp only [hend,hdone,if_true]
      have hleft : count-1 = rest.length := by simp [hcount]
      obtain ⟨h₁,h₂,h₃⟩ := ih _ _ hrest hdone (by omega) hleft
      exact ⟨h₁,h₂,h₃.trans (suffix_cons _ _)⟩
    simp only [hend,hdone,if_false,hstart,hcov]
    by_cases hcut : una < n
    · have hs : seg.syn = false := by
        cases hplaced with
        | syn hs hf hp => simp [hs,hf,hp] at hdone; omega
        | data hs => exact hs
        | fin hs => exact hs
      obtain ⟨ht,hlen⟩ := hplaced.trim hs (by omega : 0 < n-una) (by omega) (offset iss n)
      rw [show una+(n-una) = n by omega] at ht
      have hspan : seg.span = seg.payload.length+seg.fin.toNat := by simp [hs]
      simp only [hcut,hs,hlen,decide_true,Bool.not_false,Bool.and_self,if_true]
      refine ⟨⟨rfl,ht,?_⟩,by simpa using hcount,suffix_refl _⟩
      have hnew : n+Segment.span { seg with
          payload := seg.payload.drop (n-una), seq := offset iss n } = una+seg.span := by
        have hx : Segment.span { seg with
            payload := seg.payload.drop (n-una), seq := offset iss n } =
            (seg.payload.length-(n-una))+seg.fin.toNat := by
          have hs' : has seg.flags tcpSyn = false := hs
          simp [Segment.syn,Segment.fin,hs']
        omega
      rw [hnew]
      exact hrest
    have hna : una = n := by omega
    simp only [hcut,decide_false,Bool.false_and,Bool.false_eq_true,if_false]
    exact ⟨⟨hna ▸ hseq,hna ▸ hplaced,hna ▸ hrest⟩,by simpa using hcount,suffix_refl _⟩

def Pcb.finSent (p : Pcb) : Nat := (p.state.isClosing && !p.finPending).toNat

/-- The chain is in order and the two ends of the window are at these positions. -/
structure Numbered (p : Pcb) (una nxt : Nat) : Prop where
  linked : p.unacked.Linked
  count : p.unackedCount = p.unacked.nodes.length
  mss : p.sendMss ≤ localMss
  una_eq : p.sndUna = offset p.iss una
  nxt_eq : p.sndNxt = offset p.iss nxt

/-- The retained segments cover the window, which ends behind the last byte sent. -/
structure QueueOk (p : Pcb) (sent : List UInt8) (una nxt : Nat) : Prop
    extends Numbered p una nxt where
  pending : p.finPending = true → p.state.isClosing = true
  end_eq : nxt = sent.length+1+p.finSent
  covers : Covers p.iss sent una p.unacked.nodes nxt
  room : p.unacked.nodes.length ≤ maxDataSegments+p.finSent

/-- Without a connection nothing is retained and no timer of the sender runs. -/
structure Idle (p : Pcb) : Prop where
  unacked : p.unacked = .empty
  count : p.unackedCount = 0
  pending : p.finPending = false
  persist : p.persistAt = 0
  mss : p.sendMss ≤ localMss

inductive SendOk (p : Pcb) (sent : List UInt8) : Prop where
  | live (hl : p.state.isLive = true) {una nxt : Nat} (h : QueueOk p sent una nxt)
  | idle (hl : p.state.isLive = false) (h : Idle p)

variable {p q : Pcb} {sent : List UInt8} {una nxt : Nat}

section
variable (h : QueueOk p sent una nxt)
include h

theorem QueueOk.half : 2*(nxt-una) < 2^32 := by
  have hb := h.covers.bounds.2
  have hr := h.room
  have hf : p.finSent ≤ 1 := by unfold Pcb.finSent; exact Bool.toNat_le _
  have hl : localMss = 1460 := rfl
  have hm : maxDataSegments = 8 := rfl
  rw [hl] at hb
  omega

theorem QueueOk.le : una ≤ nxt := by
  have := h.covers.bounds.1
  omega

theorem QueueOk.transfer (hs : q.toSender = p.toSender) (hc : q.state.isClosing = p.state.isClosing) :
    QueueOk q sent una nxt := by
  have hf : q.finSent = p.finSent := by unfold Pcb.finSent; rw [hs,hc]
  exact
    { linked := by rw [hs]; exact h.linked
      count := by rw [hs]; exact h.count
      mss := by rw [hs]; exact h.mss
      pending := by rw [hs,hc]; exact h.pending
      una_eq := by rw [hs]; exact h.una_eq
      nxt_eq := by rw [hs]; exact h.nxt_eq
      end_eq := by rw [hf]; exact h.end_eq
      covers := by rw [hs]; exact h.covers
      room := by rw [hs,hf]; exact h.room }

end

theorem TimersOnly.finSent (ht : TimersOnly p q) : q.finSent = p.finSent := by
  unfold Pcb.finSent; rw [ht.fin,ht.control]

theorem QueueOk.timers (h : QueueOk p sent una nxt) (ht : TimersOnly p q) : QueueOk q sent una nxt where
  linked := by rw [ht.unacked]; exact h.linked
  count := by rw [ht.unacked,ht.count]; exact h.count
  mss := by rw [ht.mss]; exact h.mss
  pending := by rw [ht.fin,ht.control]; exact h.pending
  una_eq := by rw [ht.una,ht.iss]; exact h.una_eq
  nxt_eq := by rw [ht.nxt,ht.iss]; exact h.nxt_eq
  end_eq := by rw [ht.finSent]; exact h.end_eq
  covers := by rw [ht.iss,ht.unacked]; exact h.covers
  room := by rw [ht.unacked,ht.finSent]; exact h.room

theorem dropAcked_queueOk (h : QueueOk p sent una nxt) {n : Nat} (hle : una ≤ n) (hn : n ≤ nxt) :
    QueueOk (dropAcked p (offset p.iss n)) sent n nxt := by
  obtain ⟨hc,hcount,hsuf⟩ :=
    acknowledgeLoop_covers 0 p.unackedCount h.covers hle hn h.half h.count
  have hlen := hsuf.length_le
  simp only [length_map] at hlen
  exact
    { linked := h.linked.suffix hsuf
      count := hcount
      mss := h.mss
      pending := h.pending
      una_eq := rfl
      nxt_eq := h.nxt_eq
      end_eq := h.end_eq
      covers := hc
      room := hlen.trans h.room }

theorem acknowledge_queueOk (now : Nat) {ack : BitVec 32} (h : QueueOk p sent una nxt)
    (hlo : 0 ≤ (ack - p.sndUna).toInt) (hhi : (ack - p.sndNxt).toInt ≤ 0) :
    ∃ n, n ≤ nxt ∧ ack = offset p.iss n ∧ QueueOk (acknowledge now p ack) sent n nxt := by
  rw [h.una_eq] at hlo
  rw [h.nxt_eq] at hhi
  obtain ⟨n,hlow,hhigh,rfl⟩ := Serial.exists_position p.iss ack h.le h.half hlo hhi
  refine ⟨n,hhigh,rfl,?_⟩
  have hh := h.half
  unfold acknowledge
  split
  · rename_i hold
    rw [h.una_eq] at hold
    have hnot : ¬ una < n := fun hlt => by
      have := (Serial.pos_offset_sub p.iss (by omega) (by omega)).mpr hlt
      omega
    have hnu : n = una := by omega
    exact hnu ▸ h
  have ht := updateRtt_timersOnly p (offset p.iss n) now
  have hd := dropAcked_queueOk (h.timers ht) hlow hhigh
  rw [ht.iss] at hd
  exact (hd.timers (growCongestionWindow_timersOnly _ _)).timers (rearm_timersOnly _ now)

/-- A segment of the stream `sent` that starts at `iss`. Its payload is a part of
the stream at its own position, and a FIN stands behind the last byte. -/
structure OnWire (iss : BitVec 32) (sent : List UInt8) (closed : Bool) (seg : Segment) : Prop where
  data : seg.payload ≠ [] → ∃ k, seg.seq = offset iss (k+1) ∧ seg.payload <+: sent.drop k
  syn : seg.syn = true → seg.seq = iss ∧ seg.payload = [] ∧ seg.fin = false
  fin : seg.fin = true → seg.payload = [] ∧ seg.seq = offset iss (sent.length+1) ∧ closed = true

theorem segmentCopy_syn (p : Pcb) (seg : Segment) (limit : Nat) :
    (segmentCopy p seg limit).syn = seg.syn := by
  unfold segmentCopy Segment.syn
  dsimp only
  split
  · exact has_clearFin_syn seg.flags
  · rfl

variable {seg : Segment} {closed : Bool}

theorem segmentCopy_fin {limit : Nat} (h : (segmentCopy p seg limit).fin = true) :
    seg.fin = true ∧ (segmentCopy p seg limit).payload = seg.payload := by
  unfold segmentCopy Segment.fin at *
  dsimp only at *
  split at h
  · rw [has_clearFin_fin] at h
    cases h
  · exact ⟨h,take_of_length_le (by omega)⟩

theorem Placed.onWire {iss : BitVec 32} {pos : Nat} (h : Placed sent pos seg)
    (hseq : seg.seq = offset iss pos) (hfin : seg.fin = true → closed = true) (p : Pcb) (limit : Nat) :
    OnWire iss sent closed (segmentCopy p seg limit) where
  data hne := by
    have hne' : seg.payload.take limit ≠ [] := hne
    cases h with
    | syn _ _ hp => simp [hp] at hne'
    | data hs hf _ _ h1 hpre =>
      refine ⟨pos-1,?_,( take_prefix _ _).trans hpre⟩
      rw [Nat.sub_add_cancel h1]
      exact hseq
    | fin _ _ hp => simp [hp] at hne'
  syn hs := by
    rw [segmentCopy_syn] at hs
    cases h with
    | syn _ hf hp h0 =>
      refine ⟨by rw [h0,Serial.offset_zero] at hseq; exact hseq,by simp [segmentCopy,hp],?_⟩
      rw [Bool.eq_false_iff]
      intro hfin
      simp [(segmentCopy_fin hfin).1] at hf
    | data hs' => simp [hs] at hs'
    | fin hs' => simp [hs] at hs'
  fin hf := by
    obtain ⟨hf',hpay⟩ := segmentCopy_fin hf
    cases h with
    | syn _ hn => simp [hf'] at hn
    | data _ hn => simp [hf'] at hn
    | fin _ _ hp hend =>
      refine ⟨hpay.trans hp,?_,hfin hf'⟩
      rw [hend] at hseq
      exact hseq

section
variable {iss : BitVec 32} (h : OnWire iss sent closed seg)
include h

theorem OnWire.append (more : List UInt8) (hopen : closed = true → more = []) :
    OnWire iss (sent ++ more) closed seg where
  data hne := by
    obtain ⟨k,hk,hpre⟩ := h.data hne
    refine ⟨k,hk,hpre.trans ?_⟩
    rw [drop_append]
    exact prefix_append _ _
  syn := h.syn
  fin hf := by
    obtain ⟨hp,hseq,hc⟩ := h.fin hf
    exact ⟨hp,by rw [hopen hc,append_nil]; exact hseq,hc⟩

theorem OnWire.mono {closed' : Bool} (hc : closed = true → closed' = true) :
    OnWire iss sent closed' seg :=
  ⟨h.data,h.syn,fun hf => ⟨(h.fin hf).1,(h.fin hf).2.1,hc (h.fin hf).2.2⟩⟩

end

theorem makeSegment_onWire (iss : BitVec 32) (sent : List UInt8) (closed : Bool) (p : Pcb)
    {flags : BitVec 8} (hs : has flags tcpSyn = false) (hf : has flags tcpFin = false)
    (probe : Bool) : OnWire iss sent closed (makeSegment p flags [] probe) where
  data h := absurd rfl h
  syn h := absurd h (by simp [Segment.syn,makeSegment,hs])
  fin h := absurd h (by simp [Segment.fin,makeSegment,hf])

section
variable (h : QueueOk p sent una nxt) (hc : p.state.isClosing = true → closed = true)
include h hc

theorem QueueOk.head_onWire {a : Nat} {rest : List (Nat × Segment)} (hn : p.unacked.nodes = (a,seg) :: rest)
    (r : Pcb) (limit : Nat) :
    OnWire p.iss sent closed (segmentCopy r seg limit) := by
  have hcov := h.covers
  rw [hn] at hcov
  obtain ⟨hseq,hplaced,hrest⟩ := hcov
  refine hplaced.onWire hseq (fun hf => hc ?_) r limit
  -- A retained FIN lies behind the last byte, so it has been counted.
  cases hplaced with
  | syn _ hn => simp [hf] at hn
  | data _ hn => simp [hf] at hn
  | fin hs _ hp hend =>
    have hb := hrest.bounds.1
    have hspan : 1 ≤ seg.span := by simp [Segment.span,hf]
    have he := h.end_eq
    have hfs : p.finSent ≠ 0 := by omega
    by_contra hcl
    exact hfs (by simp [Pcb.finSent,hcl])

theorem retransmitHead_onWire (io : Io) (limit : Nat) :
    Emits p.addr (OnWire p.iss sent closed) io (retransmitHead io p limit) :=
  retransmitHead_emits io p limit fun _ _ _ hn => h.head_onWire hc hn p limit

end

end Rucux.Net
