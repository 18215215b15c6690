import Rucux.Net.Tcp.Sections

namespace Rucux.Net
open Lib List RingBuffer Receiver

variable {p q : Pcb} {stored returned : List UInt8}

/-- What a segment does to the receiver's half: nothing, or its payload is in order
and as much of it as fits is taken, with the FIN if that was all. -/
inductive Received (p : Pcb) (seg : Segment) (o : Outcome) : Prop where
  | nothing (hr : o.pcb.toReceiver = p.toReceiver) (hs : o.stored = [])
      (hcw : o.pcb.state = .closeWait → p.state = .closeWait)
  | opened (hs : p.state = .synSent) (hsyn : seg.syn = true) (hst : o.stored = [])
      (hbuf : o.pcb.rcvBuf = p.rcvBuf) (hwnd : o.pcb.rcvWnd = p.rcvWnd)
      (hnxt : o.pcb.rcvNxt = seg.seq + 1) (hcw : o.pcb.state ≠ .closeWait)
  | taken (fin : Bool) (hseq : seg.seq = p.rcvNxt)
      (hstate : p.state ≠ .closeWait ∧ p.state ≠ .synSent)
      (hst : o.stored = storedBytes p seg) (hbuf : o.pcb.rcvBuf = p.rcvBuf.putAll (storedBytes p seg))
      (hwnd : o.pcb.rcvWnd = (takePayload p seg).rcvWnd)
      (hnxt : o.pcb.rcvNxt = p.rcvNxt + BitVec.ofNat 32 (copiedLength p seg+fin.toNat))
      (hfin : fin = true → seg.fin = true ∧ copiedLength p seg = seg.payload.length)
      (hcw : o.pcb.state = .closeWait ↔ fin = true ∧ o.pcb.detached = false)

theorem finInput_rcv (now : Nat) (p : Pcb) :
    (finInput now p).rcvBuf = p.rcvBuf ∧ (finInput now p).rcvWnd = p.rcvWnd ∧
      (finInput now p).rcvNxt = p.rcvNxt + 1 := by
  unfold finInput
  split <;> exact ⟨rfl,rfl,rfl⟩

theorem dataInput_received (io : Io) {p : Pcb} (hctl : ControlOk p.toControl) (seg : Segment)
    (hseq : seg.seq = p.rcvNxt) : Received p seg (dataInput io p seg) := by
  unfold dataInput
  split
  · rename_i hstate
    have hne : p.state ≠ .closeWait ∧ p.state ≠ .synSent := by
      rcases hstate with hs | hs | hs <;> rw [hs] <;> decide
    have hdet : p.detached = p.state.isClosing := hctl.detached
    dsimp only
    by_cases hf : seg.fin = true ∧ copiedLength p seg = seg.payload.length
    · obtain ⟨hb,hw,hn⟩ := finInput_rcv io.ticks (takePayload p seg)
      have hnxt : (finInput io.ticks (takePayload p seg)).rcvNxt =
          p.rcvNxt + BitVec.ofNat 32 (copiedLength p seg+true.toNat) := by
        rw [hn,BitVec.ofNat_add]
        exact add_assoc _ _ _
      have hcw : (finInput io.ticks (takePayload p seg)).state = .closeWait ↔
          true = true ∧ (finInput io.ticks (takePayload p seg)).detached = false := by
        have hst : (takePayload p seg).state = p.state := rfl
        have hdt : (takePayload p seg).detached = p.detached := rfl
        rcases hstate with hs | hs | hs <;> simp [finInput,hst,hs,hdt,hdet,TcpState.isClosing]
      split
      all_goals exact .taken true hseq hne rfl hb hw hnxt (fun _ => hf) hcw
    have hcw : p.state = .closeWait ↔ false = true ∧ p.detached = false := by simp [hne.1]
    split
    all_goals exact .taken false hseq hne rfl rfl rfl rfl (by simp) hcw
  · exact .nothing rfl rfl id

theorem Received.congr {seg : Segment} {o : Outcome} (h : Received q seg o)
    (hr : q.toReceiver = p.toReceiver) (hd : q.detached = p.detached)
    (hcw : q.state = .closeWait ↔ p.state = .closeWait)
    (hss : q.state = .synSent ↔ p.state = .synSent) : Received p seg o := by
  have hcopy : copiedLength q seg = copiedLength p seg := by
    unfold copiedLength
    rw [hd,hr]
  have hbytes : storedBytes q seg = storedBytes p seg := by
    unfold storedBytes
    rw [hd,hcopy]
  cases h with
  | nothing hr' hs hc => exact .nothing (hr'.trans hr) hs (fun h => hcw.mp (hc h))
  | opened hs hsyn hst hbuf hwnd hnxt hc =>
    exact .opened (hss.mp hs) hsyn hst (by rw [hbuf,hr]) (by rw [hwnd,hr]) hnxt hc
  | taken fin hseq hstate hst hbuf hwnd hnxt hfin hc =>
    refine .taken fin (by rw [hseq,hr]) ⟨fun h => hstate.1 (hcw.mpr h),fun h => hstate.2 (hss.mpr h)⟩
      (by rw [hst,hbytes]) (by rw [hbuf,hbytes,hr]) ?_ (by rw [hnxt,hcopy,hr])
      (by rw [← hcopy]; exact hfin) hc
    rw [hwnd]
    simp only [takePayload,hd,hcopy,hr]

theorem finAcked_received (now : Nat) (p : Pcb) (ack : BitVec 32) :
    (finAcked now p ack).toReceiver = p.toReceiver ∧ (finAcked now p ack).detached = p.detached := by
  unfold finAcked
  dsimp only
  split <;> split <;> exact ⟨rfl,rfl⟩

section
variable (io : Io)

theorem synchronizedInput_received {p : Pcb} (hctl : ControlOk p.toControl) (seg : Segment) :
    Received p seg (synchronizedInput io p seg) := by
  unfold synchronizedInput
  split
  · exact .nothing rfl rfl id
  rename_i hseq
  split
  · exact .nothing rfl rfl id
  have hseq : seg.seq = p.rcvNxt := by by_contra hn; exact hseq (.inl hn)
  have ha := ackInput_senderOnly io p seg
  dsimp only
  generalize ackInput io p seg = a at ha ⊢
  split
  · exact .nothing ha.receiver rfl nofun
  obtain ⟨hr,hd⟩ := finAcked_received a.2.ticks a.1 seg.ack
  have hctl' : ControlOk a.1.toControl := by rw [ha.control]; exact hctl
  have hst : a.1.state = p.state := by rw [ha.control]
  have hctl'' : ControlOk (finAcked a.2.ticks a.1 seg.ack).toControl := by
    rcases finAcked_control a.2.ticks a.1 seg.ack with hk | ⟨h1,hk⟩ | ⟨h1,hk⟩
    · rw [hk]; exact hctl'
    · rw [hk]
      exact (show Advance a.2.ticks _ _ _ from .finWait2 h1).controlOk hctl'
    · rw [hk]
      exact (show Advance a.2.ticks _ _ _ from .timeWait (.inr (.inr h1))).controlOk hctl'
  have hdata := dataInput_received a.2 hctl'' seg (by rw [hseq,hr,ha.receiver])
  refine hdata.congr (hr.trans ha.receiver) (hd.trans (by rw [ha.control])) ?_ ?_
  · rcases finAcked_control a.2.ticks a.1 seg.ack with hk | ⟨h1,hk⟩ | ⟨h1,hk⟩
    · rw [hk,hst]
    all_goals rw [hk,← hst,h1]; exact ⟨nofun,nofun⟩
  rcases finAcked_control a.2.ticks a.1 seg.ack with hk | ⟨h1,hk⟩ | ⟨h1,hk⟩
  · rw [hk,hst]
  all_goals rw [hk,← hst,h1]; exact ⟨nofun,nofun⟩

theorem synSentInput_cases (p : Pcb) (seg : Segment) : synSentInput io p seg = .keep p io ∨
    (seg.syn = true ∧ (synSentInput io p seg).stored = [] ∧
      (synSentInput io p seg).pcb.rcvBuf = p.rcvBuf ∧
      (synSentInput io p seg).pcb.rcvWnd = p.rcvWnd ∧
      (synSentInput io p seg).pcb.rcvNxt = seg.seq + 1 ∧
      (synSentInput io p seg).pcb.state = .established) := by
  unfold synSentInput
  split
  · rename_i hcond
    have hsyn : seg.syn = true := by
      have hf := hcond.1
      unfold Segment.syn
      revert hf
      generalize seg.flags = f
      revert f
      decide
    have ha := acknowledge_senderOnly io.ticks (acceptSyn p seg) seg.ack
    have hw := updateWindow_timersOnly io (acknowledge io.ticks (acceptSyn p seg) seg.ack)
      seg.window.toNat
    have hr := hw.receiver.trans ha.receiver
    have hb := congrArg rcvBuf hr
    have hwn := congrArg rcvWnd hr
    have hn := congrArg rcvNxt hr
    exact .inr ⟨hsyn,rfl,hb,hwn,hn,rfl⟩
  · exact .inl rfl

theorem segmentArrives_received {p : Pcb} (hctl : ControlOk p.toControl) (seg : Segment) :
    Received p seg (segmentArrives io p seg) := by
  unfold segmentArrives
  split
  · unfold rstInput
    split
    · exact .nothing rfl rfl nofun
    · exact .nothing rfl rfl id
  split
  · rename_i hs
    rcases synSentInput_cases io p seg with hk | ⟨hsyn,hst,hbuf,hwnd,hnxt,he⟩
    · rw [hk]
      exact .nothing rfl rfl id
    · exact .opened hs hsyn hst hbuf hwnd hnxt (by rw [he]; decide)
  split
  · rename_i hs
    have hn : p.state.isClosing = false := by rw [hs]; rfl
    unfold synReceivedInput
    split
    · split <;> exact .nothing rfl rfl id
    split
    · have hctl₁ : ControlOk (establish io.ticks p).toControl :=
        ⟨hctl.detached.trans hn,nofun,fun _ => .inr (.inl rfl)⟩
      have hsy := synchronizedInput_received io hctl₁ seg
      have hcomp : Received (establish io.ticks p) seg
          { synchronizedInput io (establish io.ticks p) seg with completed := true } := by
        cases hsy with
        | nothing hr hs hc => exact .nothing hr hs hc
        | opened hs => cases hs
        | taken fin hseq hstate hst hbuf hwnd hnxt hfin hc =>
          exact .taken fin hseq hstate hst hbuf hwnd hnxt hfin hc
      refine hcomp.congr rfl rfl ?_ ?_
      all_goals rw [hs]; exact ⟨nofun,nofun⟩
    · exact .nothing rfl rfl id
  · exact synchronizedInput_received io hctl seg

theorem tickPcb_receiver (p : Pcb) (now : Nat) :
    (tickPcb io p now).pcb.toReceiver = p.toReceiver ∧ (tickPcb io p now).stored = [] := by
  unfold tickPcb
  split
  · split <;> exact ⟨rfl,rfl⟩
  split
  · exact ⟨(sendSegment_senderOnly io p tcpAck [] true).receiver,rfl⟩
  split
  · unfold retransmit
    split <;> exact ⟨rfl,rfl⟩
  split
  · exact ⟨(sendPendingFin_senderOnly io p).receiver,rfl⟩
  · exact ⟨rfl,rfl⟩

theorem connectPcb_receiver (p : Pcb) (ifaceIp addr : BitVec 32) (port : BitVec 16) (iss : BitVec 32) :
    (connectPcb io p ifaceIp addr port iss).pcb.toReceiver = p.toReceiver ∧
      (connectPcb io p ifaceIp addr port iss).stored = [] := by
  have hr := (sendSegment_senderOnly io (startConnect io.ticks p ifaceIp addr port iss)
    tcpSyn [] false).receiver
  unfold connectPcb
  dsimp only
  split <;> exact ⟨hr,rfl⟩

theorem closePcb_receiver (p : Pcb) :
    ((closePcb io p).pcb.toReceiver = p.toReceiver ∨ (closePcb io p).pcb.detached = true) ∧
      (closePcb io p).pcb.rcvNxt = p.rcvNxt ∧ (closePcb io p).stored = [] := by
  unfold closePcb
  split
  · have hs := sendPendingFin_senderOnly io (detachPcb io.ticks p)
    have hn := congrArg rcvNxt hs.receiver
    exact ⟨.inr (congrArg Control.detached hs.control),hn,rfl⟩
  · exact ⟨.inl rfl,rfl,rfl⟩

theorem Op.run_rcvNxt_same (p : Pcb) {op : Op} (hno : ∀ seg, op ≠ .input seg) :
    (op.run io p).pcb.rcvNxt = p.rcvNxt ∧ (op.run io p).stored = [] := by
  cases op with
  | bind | accept => exact ⟨rfl,rfl⟩
  | listen backlog =>
    simp only [Op.run,listenPcb]
    split <;> exact ⟨rfl,rfl⟩
  | connect ifaceIp addr port iss =>
    obtain ⟨hr,hs⟩ := connectPcb_receiver io p ifaceIp addr port iss
    exact ⟨congrArg rcvNxt hr,hs⟩
  | connectWait caller =>
    obtain ⟨hw,hp,-⟩ := connectWait_waitersOnly io p caller
    exact ⟨congrArg rcvNxt hw.receiver,hp.stored⟩
  | send data =>
    obtain ⟨hs,hp⟩ := tcpSend_senderOnly io p data
    exact ⟨congrArg rcvNxt hs.receiver,hp.stored⟩
  | recv caller len =>
    obtain ⟨hp,-,-,-,hn,-⟩ := tcpRecv_cases io p caller len
    exact ⟨hn,hp.stored⟩
  | close => exact (closePcb_receiver io p).2
  | input seg => exact absurd rfl (hno seg)
  | tick now =>
    obtain ⟨hr,hs⟩ := tickPcb_receiver io p now
    exact ⟨congrArg rcvNxt hr,hs⟩

end

/-- The window is the free space less the one slot that tells full from empty, and
the ring holds what was stored and not yet returned, in order. -/
structure RingOk (p : Pcb) (stored returned : List UInt8) : Prop where
  inRange : p.rcvBuf.InRange
  size : p.rcvBuf.size = tcpBufSize
  window : p.rcvWnd+p.rcvBuf.used = p.rcvBuf.size-1
  fifo : returned ++ p.rcvBuf.contents = stored

section
variable (h : RingOk p stored returned)
include h

theorem RingOk.transfer (hr : q.toReceiver = p.toReceiver) : RingOk q stored returned :=
  ⟨by rw [hr]; exact h.inRange,by rw [hr]; exact h.size,by rw [hr]; exact h.window,
    by rw [hr]; exact h.fifo⟩

theorem RingOk.store {bytes : List UInt8} (hfit : bytes.length ≤ p.rcvWnd)
    (hbuf : q.rcvBuf = p.rcvBuf.putAll bytes) (hwnd : q.rcvWnd = p.rcvWnd-bytes.length) :
    RingOk q (stored ++ bytes) returned := by
  have hw := h.window
  have hs : p.rcvBuf.size = 32768 := h.size
  have hroom : p.rcvBuf.used+bytes.length < p.rcvBuf.size := by omega
  refine ⟨by rw [hbuf]; exact h.inRange.putAll bytes,by rw [hbuf,putAll_size]; exact h.size,
    ?_,?_⟩
  · rw [hbuf,hwnd,putAll_size,h.inRange.used_putAll bytes hroom]
    omega
  · rw [hbuf,h.inRange.contents_putAll bytes hroom,← append_assoc,h.fifo]

theorem RingOk.take {count : Nat} (hc : count ≤ p.rcvBuf.used) (hbuf : q.rcvBuf = (p.rcvBuf.take count).2)
    (hwnd : q.rcvWnd = u32 (p.rcvWnd+count)) :
    RingOk q stored (returned ++ (p.rcvBuf.take count).1) := by
  obtain ⟨ht,hrest,hin,hsize⟩ := h.inRange.take hc
  have hw := h.window
  have hs : p.rcvBuf.size = 32768 := h.size
  have hu : (p.rcvBuf.take count).2.used = p.rcvBuf.used-count := by
    rw [← contents_length,hrest,length_drop,contents_length]
  refine ⟨by rw [hbuf]; exact hin,by rw [hbuf,hsize]; exact h.size,?_,?_⟩
  · rw [hbuf,hwnd,hu,hsize,u32]
    omega
  · rw [hbuf,hrest,ht,append_assoc,take_append_drop]
    exact h.fifo

end

theorem copiedLength_le (p : Pcb) (seg : Segment) : copiedLength p seg ≤ seg.payload.length := by
  unfold copiedLength
  repeat' split
  all_goals omega

theorem storedBytes_attached (hd : p.detached = false) (seg : Segment) :
    storedBytes p seg = seg.payload.take (copiedLength p seg) ∧
      (storedBytes p seg).length = copiedLength p seg ∧ copiedLength p seg ≤ p.rcvWnd := by
  have hle := copiedLength_le p seg
  refine ⟨by simp [storedBytes,hd],by simp [storedBytes,hd,hle],?_⟩
  simp only [copiedLength,hd]
  split <;> first | contradiction | (split <;> omega)

theorem Op.run_ringOk (io : Io) {op : Op} (h : RingOk p stored returned)
    (hctl : ControlOk p.toControl) (hd : p.detached = false)
    (hd' : (op.run io p).pcb.detached = false) :
    RingOk (op.run io p).pcb (stored ++ (op.run io p).stored)
      (returned ++ op.returnedBytes (op.run io p).result) := by
  have hsame : (op.run io p).pcb.toReceiver = p.toReceiver → (op.run io p).stored = [] →
      RingOk (op.run io p).pcb (stored ++ (op.run io p).stored) (returned ++ []) := by
    intro hr hs
    rw [hs,append_nil,append_nil]
    exact h.transfer hr
  cases op with
  | bind | accept => exact hsame rfl rfl
  | listen backlog =>
    refine hsame ?_ (Op.run_rcvNxt_same io p (by simp)).2
    simp only [Op.run,listenPcb]
    split <;> rfl
  | connect ifaceIp addr port iss =>
    obtain ⟨hr,hs⟩ := connectPcb_receiver io p ifaceIp addr port iss
    exact hsame hr hs
  | connectWait caller =>
    obtain ⟨hw,hp,-⟩ := connectWait_waitersOnly io p caller
    exact hsame hw.receiver hp.stored
  | send data =>
    obtain ⟨hs,hp⟩ := tcpSend_senderOnly io p data
    exact hsame hs.receiver hp.stored
  | recv caller len =>
    obtain ⟨hp,-,-,-,-,⟨hr,-,hno⟩ | ⟨count,hc,-,-,hbuf,hwnd,-,hres⟩⟩ :=
      tcpRecv_cases io p caller len
    · have hb : Op.returnedBytes (.recv caller len) (tcpRecv io p caller len).result = [] := by
        cases hres : (tcpRecv io p caller len).result with
        | bytes data => exact absurd hres (hno data)
        | _ => rfl
      simp only [Op.run] at hsame ⊢
      rw [hb]
      exact hsame hr hp.stored
    simp only [Op.run]
    rw [hp.stored,hres,append_nil]
    exact h.take hc hbuf hwnd
  | close =>
    obtain ⟨hr | hr,-,hs⟩ := closePcb_receiver io p
    · exact hsame hr hs
    · simp [Op.run,hr] at hd'
  | input seg =>
    simp only [Op.run,Op.returnedBytes] at hsame ⊢
    cases segmentArrives_received io hctl seg with
    | nothing hr hs => exact hsame hr hs
    | opened _ _ hst hbuf hwnd =>
      rw [hst,append_nil,append_nil]
      exact ⟨by rw [hbuf]; exact h.inRange,by rw [hbuf]; exact h.size,
        by rw [hbuf,hwnd]; exact h.window,by rw [hbuf]; exact h.fifo⟩
    | taken fin _ _ hst hbuf hwnd =>
      obtain ⟨-,hlen,hfit⟩ := storedBytes_attached hd seg
      rw [hst,append_nil]
      refine h.store (by omega) hbuf ?_
      rw [hwnd,hlen]
      simp [takePayload,hd]
  | tick now =>
    obtain ⟨hr,hs⟩ := tickPcb_receiver io p now
    exact hsame hr hs

theorem Op.run_closeWait (io : Io) (p : Pcb) {op : Op} (hno : ∀ seg, op ≠ .input seg)
    (h : (op.run io p).pcb.state = .closeWait) : p.state = .closeWait := by
  cases op with
  | bind | accept => exact h
  | listen backlog =>
    simp only [Op.run,listenPcb] at h
    split at h
    · exact h
    · cases h
  | connect ifaceIp addr port iss =>
    simp only [Op.run] at h
    rcases (connectPcb_control io p ifaceIp addr port iss).1 with ⟨hc,-⟩ | ⟨hc,-⟩ <;>
      · rw [hc] at h
        cases h
  | connectWait caller => rwa [Op.run,(connectWait_waitersOnly io p caller).1.control] at h
  | send data => rwa [Op.run,(tcpSend_senderOnly io p data).1.control] at h
  | recv caller len => rwa [Op.run,(tcpRecv_cases io p caller len).2.1] at h
  | close =>
    simp only [Op.run,closePcb] at h
    split at h
    · dsimp only [Outcome.return] at h
      rw [(sendPendingFin_senderOnly io _).control] at h
      simp only [detachPcb] at h
      split at h <;> cases h
    · exact h
  | input seg => exact absurd rfl (hno seg)
  | tick now =>
    rw [Op.run,(tickPcb_control io p now).2.2] at h
    split at h
    · cases h
    · exact h

def finTaken (before after : TcpState) : Nat :=
  if before ≠ .closeWait ∧ after = .closeWait then 1 else 0

theorem finTaken_of_imp {before after : TcpState} (h : after = .closeWait → before = .closeWait) :
    finTaken before after = 0 := if_neg fun hn => hn.1 (h hn.2)

/-- Outside the handshake the receive sequence number moves by exactly the bytes
stored, and by one more for the FIN that ends the peer's stream. -/
theorem Op.run_rcvNxt (io : Io) {op : Op} (hctl : ControlOk p.toControl)
    (hd : p.detached = false) (hd' : (op.run io p).pcb.detached = false)
    (hs : p.state ≠ .synSent) :
    (op.run io p).pcb.rcvNxt = p.rcvNxt + BitVec.ofNat 32
      ((op.run io p).stored.length+finTaken p.state (op.run io p).pcb.state) := by
  by_cases hin : ∀ seg, op ≠ .input seg
  · obtain ⟨hn,hst⟩ := Op.run_rcvNxt_same io p hin
    rw [hn,hst,finTaken_of_imp (Op.run_closeWait io p hin)]
    simp
  obtain ⟨seg,hop⟩ : ∃ seg, op = .input seg := by
    by_contra hno
    exact hin fun seg hop => hno ⟨seg,hop⟩
  subst hop
  simp only [Op.run] at hd' ⊢
  cases segmentArrives_received io hctl seg with
  | nothing hr hst hcw =>
    rw [hr,hst,finTaken_of_imp hcw]
    simp
  | opened hsyn => exact absurd hsyn hs
  | taken fin _ hstate hst _ _ hnxt _ hcw =>
    obtain ⟨-,hlen,-⟩ := storedBytes_attached hd seg
    rw [hnxt,hst,hlen]
    cases fin with
    | true =>
      have hone : finTaken p.state (segmentArrives io p seg).pcb.state = 1 :=
        if_pos ⟨hstate.1,hcw.mpr ⟨rfl,hd'⟩⟩
      rw [hone]
      rfl
    | false =>
      rw [finTaken_of_imp fun h => absurd (hcw.mp h).1 (by simp)]
      rfl

theorem fresh_ringOk (addr : Nat) : RingOk (Pcb.fresh addr) [] [] := by
  have hbuf : (Pcb.fresh addr).rcvBuf = ⟨fun _ => 0,tcpBufSize,0,0⟩ := rfl
  have hu : (Pcb.fresh addr).rcvBuf.used = 0 := by simp [hbuf,used]
  refine ⟨⟨?_,?_⟩,?_,?_,?_⟩
  · rw [hbuf]; decide
  · rw [hbuf]; decide
  · rw [hbuf]
  · rw [hu,hbuf]; rfl
  · rw [nil_append,← length_eq_zero_iff,contents_length,hu]

open Tcp

def RingKept (p : Pcb) (h : History) : Prop :=
  p.detached = false → RingOk p h.stored h.returned

theorem sendSegment_receiver (io : Io) (p : Pcb) (flags : BitVec 8) :
    (sendSegment io p flags [] false).pcb.toReceiver = p.toReceiver :=
  (sendSegment_senderOnly io p flags [] false).receiver

theorem synChild_ringOk (io : Io) (a l : Nat) (iss : BitVec 32) (seg : Segment) :
    RingOk (sendSegment io (synChild io.ticks a l iss seg) (tcpSyn ||| tcpAck) [] false).pcb [] [] := by
  have hf : RingOk (synChild io.ticks a l iss seg) [] [] :=
    ⟨(fresh_ringOk a).inRange,(fresh_ringOk a).size,(fresh_ringOk a).window,(fresh_ringOk a).fifo⟩
  exact hf.transfer (sendSegment_receiver io _ _)

theorem ringKept_invariant : PcbInvariant (fun _ _ => True) RingKept where
  backlog hb h hd := (h (by rwa [hb.control] at hd)).transfer hb.receiver
  fresh a _ := fresh_ringOk a
  child io a l iss seg _ _ _ := synChild_ringOk io a l iss seg
  run io p _ _ h hctl hen _ _ hd :=
    have hd₀ := Op.run_attached io p hen hd
    Op.run_ringOk io (h hd₀) hctl hd₀ hd

/-- In every reachable state the window and the unread bytes of a connection fill its
ring but for one slot, the unread bytes are those that were stored and not yet
returned, and `rcv_nxt` moves with what is stored. -/
theorem ring_accounting (es : List Tcp.Event) (p : Pcb) (hp : p ∈ (machine.run es).pcbs)
    (hd : p.detached = false) :
    p.rcvBuf.head < p.rcvBuf.size ∧ p.rcvBuf.tail < p.rcvBuf.size ∧
    p.rcvWnd+(p.rcvBuf.head+p.rcvBuf.size-p.rcvBuf.tail) % p.rcvBuf.size = p.rcvBuf.size-1 ∧
    (history (machine.run es).log p.addr).returned ++ p.rcvBuf.contents =
      (history (machine.run es).log p.addr).stored ∧
    (p.rcvBuf.contents = [] ↔ p.rcvBuf.head = p.rcvBuf.tail) ∧
    ∀ (io : Io) (op : Op), (op.run io p).pcb.detached = false → p.state ≠ .synSent →
      (op.run io p).pcb.rcvNxt = p.rcvNxt + BitVec.ofNat 32
        ((op.run io p).stored.length+finTaken p.state (op.run io p).pcb.state) := by
  have h := ringKept_invariant.run_all es p hp hd
  have hctl := (run_wf es).control p hp
  exact ⟨h.inRange.head_lt,h.inRange.tail_lt,h.window,h.fifo,h.inRange.contents_eq_nil,
    fun io op hd' hs => Op.run_rcvNxt io hctl hd hd' hs⟩

/-- The server opens, sends one byte that nobody reads, and resets; the application
connects the same PCB again, and the server opens again. -/
def Tcp.redialled : List Tcp.Event :=
  dialling ++ [arrival 2 [some 5] (fromServer 5000 66537 (tcpSyn ||| tcpAck) []),
      arrival 3 [some 6] (fromServer 5001 66537 (tcpAck ||| tcpPsh) [65]),
      arrival 4 [] (fromServer 5002 0 tcpRst []),
      ⟨5,[some 7,some 8],⟨none,some 0x0A000002⟩,1,.connect 0x0A000001 80⟩,
      arrival 6 [some 9] (fromServer 9000 132073 (tcpSyn ||| tcpAck) [])]

/-- The byte of the server is not read yet. -/
theorem ring_accounting_unread : ∃ p ∈ (machine.run (redialled.take 4)).pcbs, p.rcvBuf.contents = [65] ∧
    p.rcvWnd+(p.rcvBuf.head+p.rcvBuf.size-p.rcvBuf.tail) % p.rcvBuf.size = p.rcvBuf.size-1 ∧
    (history (machine.run (redialled.take 4)).log p.addr).returned ++ p.rcvBuf.contents =
      (history (machine.run (redialled.take 4)).log p.addr).stored := by
  have hrun : (machine.run (redialled.take 4)).pcbs.map (fun p => (p.detached,p.rcvBuf.contents)) =
      [(false,[65])] := by
    decide +kernel
  obtain ⟨p,hp,he⟩ := List.map_eq_singleton_iff.mp hrun
  have hm : p ∈ (machine.run (redialled.take 4)).pcbs := by rw [hp]; exact List.mem_singleton_self p
  obtain ⟨-,-,hwnd,hfifo,-⟩ := ring_accounting (redialled.take 4) p hm (congrArg Prod.fst he)
  exact ⟨p,hm,congrArg Prod.snd he,hwnd,hfifo⟩

/-- Since its last `tcp_connect` the application has read a prefix of what segments
have brought since then, and they bring nothing before the handshake is over. -/
def CleanRing (p : Pcb) (h : History) : Prop :=
  p.detached = false → RingOk p h.carried h.received ∧ (p.state = .synSent → h.carried = [])

def EmptyOnConnect (p : Pcb) (op : Op) : Prop :=
  op.isConnect = true → p.rcvBuf.head = p.rcvBuf.tail

theorem Op.run_stored_synSent (io : Io) {p : Pcb} (hctl : ControlOk p.toControl)
    (hs : p.state = .synSent) (op : Op) : (op.run io p).stored = [] := by
  cases op with
  | input seg =>
    cases segmentArrives_received io hctl seg with
    | nothing _ hst => exact hst
    | opened _ _ hst => exact hst
    | taken _ _ hstate => exact absurd hs hstate.2
  | _ => exact (Op.run_rcvNxt_same io p (by simp)).2

theorem connectPcb_cleanRing (io : Io) {p : Pcb} {stored returned : List UInt8}
    (h : RingOk p stored returned) (hempty : p.rcvBuf.head = p.rcvBuf.tail)
    (ifaceIp addr : BitVec 32) (port : BitVec 16) (iss : BitVec 32) :
    RingOk (connectPcb io p ifaceIp addr port iss).pcb [] [] := by
  have hclean : RingOk p [] [] := ⟨h.inRange,h.size,h.window,h.inRange.contents_eq_nil.mpr hempty⟩
  exact hclean.transfer (connectPcb_receiver io p ifaceIp addr port iss).1

theorem cleanRing_invariant : PcbInvariant EmptyOnConnect CleanRing where
  backlog hb h hd := by
    obtain ⟨hr,hs⟩ := h (by rwa [hb.control] at hd)
    exact ⟨hr.transfer hb.receiver,by rw [hb.control]; exact hs⟩
  fresh a _ := ⟨fresh_ringOk a,fun _ => rfl⟩
  child io a l iss seg _ _ _ := ⟨synChild_ringOk io a l iss seg,fun _ => rfl⟩
  run io p h op hI hctl hen hok _ hd := by
    have hd₀ := Op.run_attached io p hen hd
    obtain ⟨hr,hs⟩ := hI hd₀
    cases hop : op.isConnect with
    | true =>
      cases op with
      | connect ifaceIp addr port iss =>
        exact ⟨connectPcb_cleanRing io hr (hok rfl) ifaceIp addr port iss,fun _ => rfl⟩
      | _ => cases hop
    | false =>
      simp only [History.after,Op.ran,hop]
      refine ⟨Op.run_ringOk io hr hctl hd₀ hd,fun hs' => ?_⟩
      have hs₀ : p.state = .synSent := (Op.run_synSent io p hen hs').resolve_left (by simp [hop])
      rw [Op.run_stored_synSent io hctl hs₀ op,hs hs₀]
      rfl

def Tcp.Call.isConnect : Tcp.Call → Bool
  | .connect _ _ => true
  | _ => false

def Tcp.ConnectsEmpty (s : Tcp) (e : Tcp.Event) : Prop :=
  e.call.isConnect = true → ∀ p ∈ s.held e.pcb, p.state = .closed → p.rcvBuf.head = p.rcvBuf.tail

instance (s : Tcp) (e : Tcp.Event) : Decidable (s.ConnectsEmpty e) :=
  inferInstanceAs (Decidable (e.call.isConnect = true → ∀ p ∈ s.held e.pcb, p.state = .closed →
    p.rcvBuf.head = p.rcvBuf.tail))

theorem Tcp.ConnectsEmpty.mayRun {s : Tcp} {e : Tcp.Event} (h : s.ConnectsEmpty e) {p : Pcb}
    {op : Op} (hm : s.mayRun e p op) : EmptyOnConnect p op := by
  intro hc
  unfold Tcp.mayRun at hm
  cases hcall : e.call with
  | connect addr port =>
    simp only [hcall] at hm
    rcases hm with ⟨_,_,rfl⟩ | ⟨-,q,hq,hs,hr⟩
    · cases hc
    rw [hr]
    exact h (by rw [hcall]; rfl) q hq hs
  | new => simp [hcall] at hm
  | bind =>
    simp only [hcall] at hm
    obtain ⟨_,_,rfl⟩ := hm
    cases hc
  | input =>
    simp only [hcall] at hm
    obtain ⟨_,rfl⟩ := hm
    cases hc
  | _ =>
    simp only [hcall] at hm
    subst hm
    cases hc

/-- As long as every `tcp_connect` finds an empty ring, whatever an application reads
from a connection was carried by a segment of that connection. -/
theorem reconnect_reads_own_bytes (es : List Tcp.Event)
    (hok : machine.Along Tcp.ConnectsEmpty .init es) (p : Pcb)
    (hp : p ∈ (machine.run es).pcbs) (hd : p.detached = false) :
    (history (machine.run es).log p.addr).received <+:
      (history (machine.run es).log p.addr).carried ∧
    (p.state = .synSent → (history (machine.run es).log p.addr).carried = []) := by
  have h := cleanRing_invariant.run_along (fun _ _ _ _ he hm => Tcp.ConnectsEmpty.mayRun he hm)
    es hok p hp hd
  exact ⟨⟨_,h.1.fifo⟩,h.2⟩

def Tcp.readByte : Tcp.Event := ⟨8,[some 10],⟨none,none⟩,1,.recv ⟨some 1,false,true⟩ 10⟩

/-- The byte of the first connection is read before the second, which brings another. -/
def Tcp.redialledEmpty : List Tcp.Event :=
  redialled.take 4 ++ [⟨3,[some 11],⟨none,none⟩,1,.recv ⟨some 1,false,true⟩ 10⟩] ++ redialled.drop 4 ++
    [arrival 7 [some 12] (fromServer 9001 132073 (tcpAck ||| tcpPsh) [66]),readByte]

theorem reconnect_reads_own_bytes_empty : machine.Along Tcp.ConnectsEmpty .init redialledEmpty ∧
    ∃ p ∈ (machine.run redialledEmpty).pcbs,
      (history (machine.run redialledEmpty).log p.addr).returned = [65,66] ∧
      (history (machine.run redialledEmpty).log p.addr).received = [66] ∧
      (history (machine.run redialledEmpty).log p.addr).received <+:
        (history (machine.run redialledEmpty).log p.addr).carried := by
  have hok : machine.Along Tcp.ConnectsEmpty .init redialledEmpty := by decide +kernel
  have hrun : (machine.run redialledEmpty).pcbs.map (fun p => (p.detached,p.addr)) = [(false,1)] := by
    decide +kernel
  have hread : (history (machine.run redialledEmpty).log 1).returned = [65,66] ∧
      (history (machine.run redialledEmpty).log 1).received = [66] := by
    decide +kernel
  obtain ⟨p,hp,he⟩ := List.map_eq_singleton_iff.mp hrun
  have hm : p ∈ (machine.run redialledEmpty).pcbs := by rw [hp]; exact List.mem_singleton_self p
  have ha : p.addr = 1 := congrArg Prod.snd he
  exact ⟨hok,p,hm,ha ▸ hread.1,ha ▸ hread.2,
    (reconnect_reads_own_bytes redialledEmpty hok p hm (congrArg Prod.fst he)).1⟩

def Tcp.connectReturns : Tcp.Event := ⟨7,[],⟨none,none⟩,1,.connectWait ⟨some 1,false,true⟩⟩

/-- The second `tcp_connect` returns 0, and `tcp_recv` then returns the byte of the
first connection although no segment of the second has carried any. -/
theorem redialled_reads_old_byte : (machine.run redialled).result connectReturns = .code 0 ∧
    (machine.run (redialled ++ [connectReturns])).result readByte = .bytes [65] ∧
    (history (machine.run (redialled ++ [connectReturns,readByte])).log 1).carried =
      [] := by
  decide +kernel

end Rucux.Net
