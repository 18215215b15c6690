import Rucux.Net.Tcp.SendInvariant
import Rucux.Net.Tcp.Receiving

namespace Rucux.Net
open Lib Control Outcome
open Lib.Serial (offset)

variable {p q : Pcb} {sent : List UInt8} {una nxt : Nat} {closed : Bool}

theorem retain_timersOnly (p : Pcb) (now a : Nat) (seg : Segment) :
    TimersOnly (linkSegment p a seg) (retain p now a seg) := by
  refine .trans ?_ (startRtt_timersOnly _ now)
  have h := startRetransmit_timersOnly p now
  exact ⟨⟨h.control,h.receiver,h.backlog⟩,h.iss,h.una,
    by simp only [linkSegment,h.nxt],by simp only [linkSegment,h.unacked],
    by simp only [linkSegment,h.count],h.mss,h.fin⟩

theorem makeSegment_span (p : Pcb) (flags : BitVec 8) (data : List UInt8) (probe : Bool) :
    (makeSegment p flags data probe).span =
      data.length+(has flags tcpSyn).toNat+(has flags tcpFin).toNat := rfl

variable {seg : Segment}

theorem Numbered.push (h : Numbered p una nxt) {a : Nat} {sent : List UInt8} (ha : a ∉ p.unacked.addrs)
    (hseq : seg.seq = p.sndNxt) (hcov : Covers p.iss sent una p.unacked.nodes nxt)
    (hplaced : Placed sent nxt seg) {f : Bool}
    (ht : TimersOnly { linkSegment p a seg with finPending := f } q)
    (hpend : f = true → p.state.isClosing = true) (hend : nxt+seg.span = sent.length+1+q.finSent)
    (hroom : p.unackedCount+1 ≤ maxDataSegments+q.finSent) :
    QueueOk q sent una (nxt+seg.span) := by
  have hu : q.unacked = p.unacked.push a seg := ht.unacked
  have hcount : q.unackedCount = p.unackedCount+1 := ht.count
  have hnodes : q.unacked.nodes = p.unacked.nodes ++ [(a,seg)] := by rw [hu,h.linked.push_nodes]
  have hiss : q.iss = p.iss := ht.iss
  have hstate : q.state = p.state := congrArg state ht.control
  rw [h.nxt_eq] at hseq
  exact
    { linked := by rw [hu]; exact h.linked.push seg ha
      count := by rw [hcount,hnodes,h.count]; simp
      mss := by rw [ht.mss]; exact h.mss
      una_eq := by rw [ht.una,hiss]; exact h.una_eq
      nxt_eq := by
        rw [ht.nxt,hiss,← Serial.offset_add,← h.nxt_eq]
        rfl
      pending := by rw [ht.fin,hstate]; exact hpend
      end_eq := hend
      covers := by rw [hiss,hnodes]; exact hcov.snoc a hseq hplaced
      room := by rw [hnodes,List.length_append,← h.count]; exact hroom }

structure Keeps (sent : List UInt8) (closed : Bool) (p : Pcb) (io : Io) (r : Pcb × Io) : Prop where
  queue : ∃ una nxt, QueueOk r.1 sent una nxt
  iss : r.1.iss = p.iss
  emits : Emits p.addr (OnWire p.iss sent closed) io r.2

theorem Keeps.trans {io : Io} {r r' : Pcb × Io} (h : Keeps sent closed p io r)
    (h' : Keeps sent closed r.1 r.2 r') (ha : r.1.addr = p.addr) : Keeps sent closed p io r' := by
  have he := h'.emits
  rw [ha,h.iss] at he
  exact ⟨h'.queue,h'.iss.trans h.iss,h.emits.trans he⟩

theorem sendAck_onWire (io : Io) (p : Pcb) (iss : BitVec 32) (sent : List UInt8) (closed : Bool) :
    Emits p.addr (OnWire iss sent closed) io (sendAck io p) := by
  have h := sendSegment_cases io p tcpAck [] false
  unfold sendAck
  generalize sendSegment io p tcpAck [] false = r at h ⊢
  cases h with
  | failed h => exact h _ _
  | plain _ h => exact h _ (makeSegment_onWire iss sent closed p (by decide) (by decide) false)
  | kept hr => exact absurd hr (by decide)

section
variable (h : QueueOk p sent una nxt) (hc : p.state.isClosing = true → closed = true) (io : Io)
include h hc

theorem updateWindow_keeps (window : Nat) : Keeps sent closed p io (updateWindow io p window) := by
  have ht := updateWindow_timersOnly io p window
  refine ⟨⟨una,nxt,h.timers ht⟩,ht.iss,?_⟩
  unfold updateWindow
  split
  · exact .refl _ _ _
  split
  · exact retransmitHead_onWire (p := { p with sndWnd := window, persistAt := 0, persistExpires := 0 })
      (h.timers ⟨⟨rfl,rfl,rfl⟩,rfl,rfl,rfl,rfl,rfl,rfl,rfl⟩) hc io _
  · exact .refl _ _ _

theorem sendPendingFin_keeps : Keeps sent closed p io (sendPendingFin io p) := by
  unfold sendPendingFin
  dsimp only
  split
  · rename_i hcond
    have hpend : p.finPending = true := by
      simp only [Bool.and_eq_true] at hcond
      exact hcond.1.1
    have hcl := h.pending hpend
    have hfs : p.finSent = 0 := by simp [Pcb.finSent,hpend]
    have hs := sendSegment_cases io p (tcpFin ||| tcpAck) [] false
    generalize sendSegment io p (tcpFin ||| tcpAck) [] false = r at hs ⊢
    cases hs with
    | failed he => exact ⟨⟨una,nxt,h⟩,rfl,he _ _⟩
    | plain hr => exact absurd hr (by decide)
    | @kept io' a hr ha hroom he =>
      have hend := h.end_eq
      have hplaced : Placed sent nxt (makeSegment p (tcpFin ||| tcpAck) [] false) :=
        .fin (by simp [Segment.syn,makeSegment]; decide) (by simp [Segment.fin,makeSegment]; decide)
          rfl (by omega)
      have ht := retain_timersOnly p io.ticks a (makeSegment p (tcpFin ||| tcpAck) [] false)
      have hone : (finSentNow (retain p io.ticks a
          (makeSegment p (tcpFin ||| tcpAck) [] false))).finSent = 1 := by
        have hst : (finSentNow (retain p io.ticks a
          (makeSegment p (tcpFin ||| tcpAck) [] false))).state = p.state :=
            congrArg state ht.control
        simp only [Pcb.finSent,hst,hcl]
        rfl
      have hspan := makeSegment_span p (tcpFin ||| tcpAck) [] false
      rw [show [].length+(has (tcpFin ||| tcpAck) tcpSyn).toNat+
        (has (tcpFin ||| tcpAck) tcpFin).toNat = 1 by decide] at hspan
      simp only [if_true]
      exact ⟨⟨una,_,h.toNumbered.push ha rfl h.covers hplaced (f := false)
        ⟨⟨ht.control,ht.receiver,ht.backlog⟩,ht.iss,ht.una,ht.nxt,ht.unacked,ht.count,ht.mss,rfl⟩
        (by simp) (by rw [hone]; omega) (by rw [hone]; exact hroom)⟩,ht.iss,
        he _ (hplaced.onWire h.nxt_eq (fun _ => hc hcl) p localMss)⟩
  · exact ⟨⟨una,nxt,h⟩,rfl,.refl _ _ _⟩

theorem ackInput_keeps (hack : (seg.ack - p.sndNxt).toInt ≤ 0) :
    Keeps sent closed p io (ackInput io p seg) := by
  unfold ackInput
  split
  · rename_i hlo
    obtain ⟨n,_,_,ha⟩ := acknowledge_queueOk io.ticks h hlo hack
    have hs := acknowledge_senderOnly io.ticks p seg.ack
    have hiss : (acknowledge io.ticks p seg.ack).iss = p.iss := acknowledge_iss io.ticks p seg.ack
    generalize acknowledge io.ticks p seg.ack = q at ha hs hiss ⊢
    have hst : q.state = p.state := by rw [hs.control]
    have hw := updateWindow_keeps ha (by rwa [hst]) io seg.window.toNat
    have hwt := updateWindow_timersOnly io q seg.window.toNat
    generalize updateWindow io q seg.window.toNat = w at hw hwt ⊢
    obtain ⟨u,v,hq⟩ := hw.queue
    have hwst : w.1.state = p.state := by rw [hwt.control,hst]
    have hf := sendPendingFin_keeps (hq.timers (wakeSend_timersOnly w.1)) (by exact hwst ▸ hc) w.2
    have hfin : Keeps sent closed w.1 w.2 (sendPendingFin w.2 (wakeSend w.1)) :=
      ⟨hf.queue,hf.iss,hf.emits⟩
    have hwa : w.1.addr = q.addr := by rw [hwt.control]
    have hk := hw.trans hfin hwa
    refine ⟨hk.queue,hk.iss.trans hiss,?_⟩
    have he := hk.emits
    rwa [hiss,show q.addr = p.addr by rw [hs.control]] at he
  · exact sendPendingFin_keeps h hc io

end

theorem finAcked_queueOk (h : QueueOk p sent una nxt) (now : Nat) (ack : BitVec 32) :
    QueueOk (finAcked now p ack) sent una nxt := by
  have hs : (finAcked now p ack).toSender = p.toSender := by
    unfold finAcked
    dsimp only
    split <;> split <;> rfl
  refine h.transfer hs ?_
  rcases finAcked_control now p ack with hk | ⟨h1,hk⟩ | ⟨h1,hk⟩
  · rw [hk]
  · rw [hk,h1]; rfl
  · rw [hk,h1]; rfl

theorem dataInput_toSender (io : Io) (p : Pcb) (seg : Segment) :
    (dataInput io p seg).pcb.toSender = p.toSender := by
  have hf : (finInput io.ticks (takePayload p seg)).toSender = p.toSender := by
    unfold finInput
    split <;> rfl
  unfold dataInput
  split
  · dsimp only
    split <;> split
    · exact hf
    · rfl
    · exact hf
    · rfl
  · rfl

theorem dataInput_queueOk (h : QueueOk p sent una nxt) (io : Io) (seg : Segment) :
    QueueOk (dataInput io p seg).pcb sent una nxt := by
  refine h.transfer (dataInput_toSender io p seg) ?_
  rcases (dataInput_control io p seg).1 with hk | ⟨h1,hk⟩ | ⟨h1,hk⟩ | ⟨h1,hk⟩
  · rw [hk]
  all_goals rw [hk,h1]; rfl

theorem dataInput_onWire (io : Io) (p : Pcb) (seg : Segment) (iss : BitVec 32)
    (sent : List UInt8) (closed : Bool) :
    Emits p.addr (OnWire iss sent closed) io (dataInput io p seg).io := by
  unfold dataInput
  split
  · dsimp only
    have hq : ∀ q : Pcb, q.addr = p.addr → Emits p.addr (OnWire iss sent closed) io (sendAck io q) :=
      fun q ha => ha ▸ sendAck_onWire io q iss sent closed
    have hf : (finInput io.ticks (takePayload p seg)).addr = p.addr := by
      unfold finInput
      split <;> rfl
    split <;> split
    · exact hq _ hf
    · exact hq _ rfl
    · exact .refl _ _ _
    · exact .refl _ _ _
  · exact .refl _ _ _

structure Sends (sent : List UInt8) (closed : Bool) (p : Pcb) (io : Io) (o : Outcome) : Prop where
  ok : o.freed = false → SendOk o.pcb sent
  iss : o.pcb.iss = p.iss
  emits : Emits p.addr (OnWire p.iss sent closed) io o.io

theorem SendOk.mss (h : SendOk p sent) : p.sendMss ≤ localMss := by
  cases h with
  | live _ h => exact h.mss
  | idle _ h => exact h.mss

theorem SendOk.queue (h : SendOk p sent) (hl : p.state.isLive = true) :
    ∃ una nxt, QueueOk p sent una nxt := by
  cases h with
  | live _ h => exact ⟨_,_,h⟩
  | idle hn => simp [hl] at hn

theorem SendOk.transfer (h : SendOk p sent) (hs : q.toSender = p.toSender)
    (hst : q.state = p.state) : SendOk q sent := by
  cases h with
  | live hl h => exact .live (hst ▸ hl) (h.transfer hs (by rw [hst]))
  | idle hl h =>
    exact .idle (hst ▸ hl) ⟨by rw [hs]; exact h.unacked,by rw [hs]; exact h.count,
      by rw [hs]; exact h.pending,by rw [hs]; exact h.persist,by rw [hs]; exact h.mss⟩

theorem resetLocked_idle (h : p.sendMss ≤ localMss) : Idle (resetLocked p) :=
  ⟨rfl,rfl,rfl,rfl,h⟩

theorem synchronizedInput_sends (h : QueueOk p sent una nxt) (hl : p.state.isLive = true)
    (hctl : ControlOk p.toControl) (hc : p.state.isClosing = true → closed = true) (io : Io)
    (seg : Segment) : Sends sent closed p io (synchronizedInput io p seg) := by
  have hlive : (synchronizedInput io p seg).freed = false →
      (synchronizedInput io p seg).pcb.state.isLive = true := by
    intro hf
    have ha := (synchronizedInput_advance io p seg).1
    rw [hf] at ha
    exact ha.live hctl hl
  suffices hs : (∃ una nxt, (synchronizedInput io p seg).freed = false →
      QueueOk (synchronizedInput io p seg).pcb sent una nxt) ∧
      (synchronizedInput io p seg).pcb.iss = p.iss ∧
      Emits p.addr (OnWire p.iss sent closed) io (synchronizedInput io p seg).io by
    obtain ⟨⟨u,v,hq⟩,hi,he⟩ := hs
    exact ⟨fun hf => .live (hlive hf) (hq hf),hi,he⟩
  unfold synchronizedInput
  split
  · exact ⟨⟨una,nxt,fun _ => h⟩,rfl,sendAck_onWire io p _ _ _⟩
  split
  · exact ⟨⟨una,nxt,fun _ => h⟩,rfl,.refl _ _ _⟩
  rename_i hack
  have hle : (seg.ack - p.sndNxt).toInt ≤ 0 := by
    by_contra hn
    exact hack (.inr (by omega))
  have hk := ackInput_keeps h hc io hle
  have hctl' := (ackInput_senderOnly io p seg).control
  dsimp only
  generalize ackInput io p seg = a at hk hctl' ⊢
  obtain ⟨u,v,hq⟩ := hk.queue
  split
  · rename_i hla
    -- A PCB in LAST_ACK is detached, so it is freed here.
    have hd : a.1.detached = true := by
      rw [hctl',hctl.detached,← hctl',hla.1]
      rfl
    exact ⟨⟨u,v,fun hf => by simp [free,hd] at hf⟩,hk.iss,hk.emits⟩
  have hda := dataInput_onWire a.2 (finAcked a.2.ticks a.1 seg.ack) seg p.iss sent closed
  have hsame : (finAcked a.2.ticks a.1 seg.ack).addr = p.addr ∧
      (finAcked a.2.ticks a.1 seg.ack).toSender = a.1.toSender := by
    rw [show p.addr = a.1.addr by rw [hctl']]
    unfold finAcked
    dsimp only
    split <;> split <;> exact ⟨rfl,rfl⟩
  rw [hsame.1] at hda
  refine ⟨⟨u,v,fun _ => dataInput_queueOk (finAcked_queueOk hq _ _) _ _⟩,?_,hk.emits.trans hda⟩
  rw [dataInput_toSender,hsame.2]
  exact hk.iss

theorem rstInput_sends (h : SendOk p sent) (io : Io) (seg : Segment) :
    Sends sent closed p io (rstInput io p seg) := by
  unfold rstInput
  split
  · exact ⟨fun _ => .idle rfl (resetLocked_idle h.mss),rfl,.refl _ _ _⟩
  · exact ⟨fun _ => h,rfl,.refl _ _ _⟩

theorem synSentInput_sends (h : QueueOk p sent una nxt) (hs : p.state = .synSent) (io : Io)
    (hm : seg.mss ≤ localMss) :
    Sends sent closed p io (synSentInput io p seg) := by
  have hl : p.state.isLive = true := by rw [hs]; rfl
  unfold synSentInput
  split
  · rename_i hcond
    have h₁ : QueueOk (acceptSyn p seg) sent una nxt :=
      ⟨⟨h.linked,h.count,hm,h.una_eq,h.nxt_eq⟩,h.pending,h.end_eq,h.covers,h.room⟩
    have hh := h.half
    have hle := h.le
    have hlo : 0 ≤ (seg.ack - p.sndUna).toInt := by
      rw [hcond.2,h.nxt_eq,h.una_eq]
      exact (Serial.nonneg_offset_sub p.iss (by omega) (by omega)).mpr hle
    have hhi : (seg.ack - p.sndNxt).toInt ≤ 0 := by
      rw [hcond.2]
      simp
    obtain ⟨n,_,_,ha⟩ := acknowledge_queueOk io.ticks h₁ hlo hhi
    have hsame := acknowledge_senderOnly io.ticks (acceptSyn p seg) seg.ack
    have hiss := acknowledge_iss io.ticks (acceptSyn p seg) seg.ack
    dsimp only
    generalize acknowledge io.ticks (acceptSyn p seg) seg.ack = q at ha hsame hiss ⊢
    have hst : q.state = .synSent := (congrArg state hsame.control).trans hs
    have haddr : q.addr = p.addr := congrArg addr hsame.control
    have hclq : q.state.isClosing = false := by rw [hst]; rfl
    have hw : Keeps sent closed q io (updateWindow io q seg.window.toNat) :=
      updateWindow_keeps ha (by simp [hclq]) io seg.window.toNat
    have hwt := updateWindow_timersOnly io q seg.window.toNat
    generalize updateWindow io q seg.window.toNat = w at hw hwt ⊢
    obtain ⟨u,v,hq⟩ := hw.queue
    have hwc : w.1.state.isClosing = false := by rw [hwt.control]; exact hclq
    have he := hw.emits
    rw [hiss,haddr] at he
    have hwa : w.1.addr = p.addr := (congrArg addr hwt.control).trans haddr
    have hack := sendAck_onWire w.2 { w.1 with state := .established, expires := 0 } p.iss sent closed
    rw [hwa] at hack
    exact ⟨fun _ => .live rfl (hq.transfer rfl hwc.symm),hw.iss.trans hiss,he.trans hack⟩
  · exact ⟨fun _ => .live hl h,rfl,.refl _ _ _⟩

theorem synReceivedInput_sends (h : QueueOk p sent una nxt) (hs : p.state = .synReceived)
    (hctl : ControlOk p.toControl) (io : Io) (seg : Segment) :
    Sends sent closed p io (synReceivedInput io p seg) := by
  have hl : p.state.isLive = true := by rw [hs]; rfl
  have hn : p.state.isClosing = false := by rw [hs]; rfl
  unfold synReceivedInput
  split
  · split
    · have ht := invalidateRtt_timersOnly p
      exact ⟨fun _ => .live hl (h.timers ht),rfl,
        retransmitHead_onWire (h.timers ht) (fun hc => absurd hc (by rw [ht.control,hn]; decide))
          io localMss⟩
    · exact ⟨fun _ => .live hl h,rfl,.refl _ _ _⟩
  split
  · have h₁ : QueueOk (establish io.ticks p) sent una nxt :=
      h.transfer rfl hn.symm
    have hctl₁ : ControlOk (establish io.ticks p).toControl :=
      ⟨hctl.detached.trans hn,nofun,fun _ => .inr (.inl rfl)⟩
    have hsy : Sends sent closed (establish io.ticks p) io
        (synchronizedInput io (establish io.ticks p) seg) :=
      synchronizedInput_sends h₁ rfl hctl₁ nofun io seg
    exact ⟨hsy.ok,hsy.iss,hsy.emits⟩
  · exact ⟨fun _ => .live hl h,rfl,.refl _ _ _⟩

theorem segmentArrives_sends (h : SendOk p sent) (hctl : ControlOk p.toControl) (io : Io)
    (hen : Op.Enabled p (.input seg)) (hc : p.state.isClosing = true → closed = true) :
    Sends sent closed p io (segmentArrives io p seg) := by
  obtain ⟨hopen,_,hm,hlisten⟩ := hen
  unfold segmentArrives
  split
  · exact rstInput_sends h io seg
  have hl : p.state.isLive = true := by
    cases hst : p.state <;> simp_all [TcpState.isLive]
  obtain ⟨u,v,hq⟩ := h.queue hl
  split
  · exact synSentInput_sends hq ‹_› io hm
  split
  · exact synReceivedInput_sends hq ‹_› hctl io seg
  · exact synchronizedInput_sends hq hl hctl hc io seg

theorem sendCount_le_mss (p : Pcb) (n : Nat) : sendCount p n ≤ p.sendMss := by
  unfold sendCount
  dsimp only
  repeat' split
  all_goals omega

theorem sendCount_le (p : Pcb) (n : Nat) : sendCount p n ≤ n := by
  unfold sendCount
  dsimp only
  repeat' split
  all_goals omega

theorem tcpSend_sends (h : SendOk p sent) (io : Io) (data : List UInt8) :
    Sends (sent ++ acceptedBytes data (tcpSend io p data).result) closed p io (tcpSend io p data) := by
  have hnone : ∀ (q : Pcb) (io' : Io) (c : Int), c.toNat = 0 → SendOk q sent → q.iss = p.iss →
      Emits p.addr (OnWire p.iss sent closed) io io' →
      Sends (sent ++ acceptedBytes data (.code c)) closed p io (.return q io' c) := by
    intro q io' c hc hq hiss he
    simp only [acceptedBytes,hc,List.take_zero,List.append_nil]
    exact ⟨fun _ => hq,hiss,he⟩
  unfold tcpSend
  split
  · exact hnone p io (-107) rfl h rfl (.refl _ _ _)
  rename_i hstate
  split
  · exact hnone p io 0 rfl h rfl (.refl _ _ _)
  split
  · exact hnone p io (-11) rfl h rfl (.refl _ _ _)
  rename_i hne hcount
  have hopen : p.state.isLive = true ∧ p.state.isClosing = false := by
    by_cases hs : p.state = .established
    · rw [hs]; exact ⟨rfl,rfl⟩
    have hs' : p.state = .closeWait := by
      by_contra hn
      exact hstate ⟨hs,hn⟩
    rw [hs']; exact ⟨rfl,rfl⟩
  have hr := restartIdle_timersOnly p io.ticks
  obtain ⟨u,v,hp⟩ := h.queue hopen.1
  have hq := hp.timers hr
  dsimp only
  generalize restartIdle p io.ticks = q at hr hq ⊢
  have hql : SendOk q sent := .live (by rw [hr.control]; exact hopen.1) hq
  split
  · exact hnone q io (-11) rfl hql hr.iss (.refl _ _ _)
  rename_i hpos
  have hqs : q.state = p.state := congrArg state hr.control
  have hqa : q.addr = p.addr := congrArg addr hr.control
  have hmax := sendCount_le_mss q data.length
  have hlen := sendCount_le q data.length
  generalize sendCount q data.length = count at hpos hmax hlen ⊢
  have hs := sendSegment_cases io q (tcpAck ||| tcpPsh) (data.take count) false
  generalize sendSegment io q (tcpAck ||| tcpPsh) (data.take count) false = r at hs ⊢
  cases hs with
  | failed he => exact hnone q _ (-12) rfl hql hr.iss (he _ _)
  | plain hrel =>
    have hnil : (data.take count).isEmpty = true := by
      simp only [reliable,Bool.or_eq_false_iff] at hrel
      simpa using hrel.1
    rw [List.isEmpty_iff,List.take_eq_nil_iff] at hnil
    rcases hnil with hn | hn
    · exact absurd hn hpos
    · exact absurd hn hne
  | @kept io' a hrel ha hroom he =>
    have hfs : q.finSent = 0 := by simp [Pcb.finSent,hqs,hopen.2]
    have hend := hq.end_eq
    have hdl : (data.take count).length = count := by simp [hlen]
    have hplaced : Placed (sent ++ data.take count) v
        (makeSegment q (tcpAck ||| tcpPsh) (data.take count) false) := by
      refine .data (by simp [Segment.syn,makeSegment]; decide)
        (by simp [Segment.fin,makeSegment]; decide) ?_ ?_ (by omega) ?_
      · show data.take count ≠ []
        simp [hpos,hne]
      · show (data.take count).length ≤ localMss
        have := hq.mss
        omega
      · rw [show v-1 = sent.length by omega,List.drop_left]
        exact List.prefix_refl _
    have ht := retain_timersOnly q io.ticks a (makeSegment q (tcpAck ||| tcpPsh) (data.take count) false)
    have hspan := makeSegment_span q (tcpAck ||| tcpPsh) (data.take count) false
    rw [hdl,show (has (tcpAck ||| tcpPsh) tcpSyn).toNat = 0 by decide,
      show (has (tcpAck ||| tcpPsh) tcpFin).toNat = 0 by decide] at hspan
    generalize hseg : makeSegment q (tcpAck ||| tcpPsh) (data.take count) false = seg
      at ht hspan hplaced he ⊢
    have hseq : seg.seq = q.sndNxt := by rw [← hseg]; rfl
    simp only [if_true,Outcome.return,acceptedBytes,Int.toNat_natCast]
    generalize retain q io.ticks a seg = r at ht ⊢
    have hrst : r.state = p.state := (congrArg state ht.control).trans hqs
    have hrf : ({ r with lastDataSent := io.ticks } : Pcb).finSent = 0 := by
      simp [Pcb.finSent,hrst,hopen.2]
    have hpend : ¬ q.finPending = true := fun hp => by
      have := hq.pending hp
      rw [hqs,hopen.2] at this
      cases this
    refine ⟨fun _ => .live (by rw [hrst]; exact hopen.1) (hq.toNumbered.push ha hseq
      (hq.covers.append (by omega) _) hplaced (f := q.finPending)
      ⟨⟨ht.control,ht.receiver,ht.backlog⟩,ht.iss,ht.una,ht.nxt,ht.unacked,ht.count,ht.mss,ht.fin⟩
      (fun hp => absurd hp hpend) ?_ ?_),?_,?_⟩
    · rw [hrf,List.length_append,hdl]; omega
    · rw [hrf]; exact hroom
    · exact ht.iss.trans hr.iss
    rw [← hqa]
    refine he _ ?_
    rw [← hr.iss]
    exact hplaced.onWire (by rw [hseq,hq.nxt_eq]) (fun hf => by
      rw [← hseg] at hf
      exact absurd hf (by simp [Segment.fin,makeSegment]; decide)) q localMss

theorem closePcb_sends (h : SendOk p sent) (io : Io) : Sends sent true p io (closePcb io p) := by
  unfold closePcb
  split
  · rename_i hst
    have hopen : p.state.isLive = true ∧ p.state.isClosing = false := by
      rcases hst with hs | hs <;> rw [hs] <;> exact ⟨rfl,rfl⟩
    obtain ⟨u,v,hq⟩ := h.queue hopen.1
    have hcl : (detachPcb io.ticks p).state.isClosing = true ∧
        (detachPcb io.ticks p).state.isLive = true := by
      rcases hst with hs | hs <;> simp [detachPcb,hs,TcpState.isClosing,TcpState.isLive]
    have hfs : p.finSent = 0 := by simp [Pcb.finSent,hopen.2]
    have hfs' : (detachPcb io.ticks p).finSent = 0 := by simp [Pcb.finSent,detachPcb]
    have hd : QueueOk (detachPcb io.ticks p) sent u v :=
      ⟨⟨hq.linked,hq.count,hq.mss,hq.una_eq,hq.nxt_eq⟩,fun _ => hcl.1,
        by rw [hfs',← hfs]; exact hq.end_eq,hq.covers,by rw [hfs',← hfs]; exact hq.room⟩
    have hk : Keeps sent true (detachPcb io.ticks p) io (sendPendingFin io (detachPcb io.ticks p)) :=
      sendPendingFin_keeps hd (fun _ => rfl) io
    have hs := (sendPendingFin_senderOnly io (detachPcb io.ticks p)).control
    obtain ⟨u',v',hq'⟩ := hk.queue
    refine ⟨fun _ => .live ?_ hq',hk.iss,hk.emits⟩
    dsimp only [Outcome.return]
    rw [hs]
    exact hcl.2
  · exact ⟨by simp [free],rfl,.refl _ _ _⟩

theorem tickPcb_idle (h : SendOk p sent) (hl : p.state.isLive = false) (io : Io) (now : Nat) :
    Sends sent closed p io (tickPcb io p now) := by
  have hi : Idle p := by
    cases h with
    | live hn => simp [hl] at hn
    | idle _ h => exact h
  have hper : persisting p = false := by simp [persisting,hi.persist]
  have hdue : retryDue p now = false := by simp [retryDue,hi.unacked,LinkedQueue.empty]
  unfold tickPcb
  split
  · split
    · exact ⟨by simp [free],rfl,.refl _ _ _⟩
    · exact ⟨fun _ => .idle rfl ⟨rfl,rfl,rfl,rfl,hi.mss⟩,rfl,.refl _ _ _⟩
  · simp only [hper,hdue,hi.pending,Bool.false_and,Bool.false_eq_true,if_false]
    exact ⟨fun _ => h,rfl,.refl _ _ _⟩

theorem retransmit_timersOnly (io : Io) (p : Pcb) (now : Nat) :
    TimersOnly p (retransmit io p now).pcb := by
  unfold retransmit
  split <;> exact ⟨⟨rfl,rfl,rfl⟩,rfl,rfl,rfl,rfl,rfl,rfl,rfl⟩

section
variable (h : QueueOk p sent una nxt) (hl : p.state.isLive = true)
include h hl

theorem retransmit_sends (hc : p.state.isClosing = true → closed = true) (io : Io) (now : Nat) :
    Sends sent closed p io (retransmit io p now) := by
  have ht := retransmit_timersOnly io p now
  refine ⟨fun _ => .live (by rw [ht.control]; exact hl) (h.timers ht),ht.iss,?_⟩
  unfold retransmit
  have he : ∀ (q : Pcb) (limit : Nat), TimersOnly p q →
      Emits p.addr (OnWire p.iss sent closed) io (retransmitHead io q limit) := by
    intro q limit hq
    have hr : Emits q.addr (OnWire q.iss sent closed) io (retransmitHead io q limit) :=
      retransmitHead_onWire (h.timers hq) (by rw [hq.control]; exact hc) io limit
    rwa [hq.iss,show q.addr = p.addr by rw [hq.control]] at hr
  split <;> exact he _ _ ⟨⟨rfl,rfl,rfl⟩,rfl,rfl,rfl,rfl,rfl,rfl,rfl⟩

theorem probeWindow_sends (io : Io) (now : Nat) : Sends sent closed p io (probeWindow io p now) := by
  unfold probeWindow
  have hs := sendSegment_cases io p tcpAck [] true
  generalize sendSegment io p tcpAck [] true = r at hs ⊢
  cases hs with
  | failed he =>
    exact ⟨fun _ => .live hl (h.timers ⟨⟨rfl,rfl,rfl⟩,rfl,rfl,rfl,rfl,rfl,rfl,rfl⟩),rfl,he _ _⟩
  | plain _ he =>
    exact ⟨fun _ => .live hl (h.timers ⟨⟨rfl,rfl,rfl⟩,rfl,rfl,rfl,rfl,rfl,rfl,rfl⟩),rfl,
      he _ (makeSegment_onWire p.iss sent closed p (by decide) (by decide) true)⟩
  | kept hr => exact absurd hr (by decide)

end

theorem tickPcb_sends (h : SendOk p sent) (hc : p.state.isClosing = true → closed = true) (io : Io)
    (now : Nat) : Sends sent closed p io (tickPcb io p now) := by
  cases hl : p.state.isLive with
  | false => exact tickPcb_idle h hl io now
  | true =>
    obtain ⟨u,v,hq⟩ := h.queue hl
    unfold tickPcb
    split
    · split
      · exact ⟨by simp [free],rfl,.refl _ _ _⟩
      · exact ⟨fun _ => .idle rfl ⟨rfl,rfl,rfl,rfl,h.mss⟩,rfl,.refl _ _ _⟩
    split
    · exact probeWindow_sends hq hl io now
    split
    · exact retransmit_sends hq hl hc io now
    split
    · have hk := sendPendingFin_keeps hq hc io
      obtain ⟨u',v',hq'⟩ := hk.queue
      refine ⟨fun _ => .live ?_ hq',hk.iss,hk.emits⟩
      dsimp only [keep]
      rw [(sendPendingFin_senderOnly io p).control]
      exact hl
    · exact ⟨fun _ => h,rfl,.refl _ _ _⟩

theorem Op.run_sends (io : Io) {op : Op} (h : SendOk p sent) (hctl : ControlOk p.toControl)
    (hen : op.Enabled p) (hno : op.isConnect = false)
    (hc : p.state.isClosing = true ∨ op = .close → closed = true) :
    Sends (op.sentAfter sent (op.run io p).result) closed p io (op.run io p) := by
  cases op with
  | bind | accept => exact ⟨fun _ => h.transfer rfl rfl,rfl,.refl _ _ _⟩
  | listen backlog =>
    simp only [Op.run,Op.sentAfter,listenPcb]
    split
    · exact ⟨fun _ => h,rfl,.refl _ _ _⟩
    rename_i hs
    have hs : p.state = .closed := by by_contra hn; exact hs (.inl hn)
    refine ⟨fun _ => .idle rfl ?_,rfl,.refl _ _ _⟩
    cases h with
    | live hl => simp [hs,TcpState.isLive] at hl
    | idle _ h => exact ⟨h.unacked,h.count,h.pending,h.persist,h.mss⟩
  | connect => cases hno
  | connectWait caller =>
    obtain ⟨hw,-,hio⟩ := connectWait_waitersOnly io p caller
    refine ⟨fun _ => h.transfer hw.sender (by simp only [Op.run]; rw [hw.control]),?_,?_⟩
    · simp only [Op.run]; rw [hw.sender]
    · simp only [Op.run]; rw [hio]; exact .refl _ _ _
  | send data => exact tcpSend_sends h io data
  | recv caller len =>
    obtain ⟨-,hctl',hs,-,-,hio⟩ := tcpRecv_cases io p caller len
    refine ⟨fun _ => h.transfer hs (by simp only [Op.run]; rw [hctl']),?_,?_⟩
    · simp only [Op.run]; rw [hs]
    simp only [Op.run]
    rcases hio with ⟨-,hio,-⟩ | ⟨_,-,-,-,-,-,hio,-⟩
    · rw [hio]; exact .refl _ _ _
    have ha := sendAck_onWire io (tcpRecv io p caller len).pcb p.iss sent closed
    rw [hio]
    rwa [hctl'] at ha
  | close =>
    obtain rfl := hc (.inr rfl)
    exact closePcb_sends h io
  | input seg => exact segmentArrives_sends h hctl io hen fun hcl => hc (.inl hcl)
  | tick now => exact tickPcb_sends h (fun hcl => hc (.inl hcl)) io now

theorem sendSyn (closed : Bool) (hi : Idle p) (hcl : p.state.isClosing = false) (hu : p.sndUna = p.iss)
    (hn : p.sndNxt = p.iss) {flags : BitVec 8} (hs : has flags tcpSyn = true)
    (hf : has flags tcpFin = false) (io : Io) :
    ((sendSegment io p flags [] false).ok = true → QueueOk (sendSegment io p flags [] false).pcb [] 0 1) ∧
    ((sendSegment io p flags [] false).ok = false → (sendSegment io p flags [] false).pcb = p) ∧
    (sendSegment io p flags [] false).pcb.iss = p.iss ∧
    Emits p.addr (OnWire p.iss [] closed) io (sendSegment io p flags [] false).io := by
  have hr : reliable flags [] = true := by
    revert hs
    generalize flags = f
    revert f
    decide
  have h := sendSegment_cases io p flags [] false
  generalize sendSegment io p flags [] false = r at h ⊢
  cases h with
  | failed he => exact ⟨by simp,fun _ => rfl,rfl,he _ _⟩
  | plain hn => simp [hr] at hn
  | @kept io' a _ ha hroom he =>
    have hplaced : Placed [] 0 (makeSegment p flags [] false) := .syn hs hf rfl rfl
    have ht := retain_timersOnly p io.ticks a (makeSegment p flags [] false)
    have hseq : (makeSegment p flags [] false).seq = offset p.iss 0 := by
      rw [Serial.offset_zero]; exact hn
    have hnum : Numbered p 0 0 :=
      ⟨by rw [hi.unacked]; exact LinkedQueue.linked_empty,by rw [hi.unacked]; exact hi.count,hi.mss,
        by rw [hu,Serial.offset_zero],by rw [hn,Serial.offset_zero]⟩
    have hcov : Covers p.iss [] 0 p.unacked.nodes 0 := by rw [hi.unacked]; rfl
    have hspan : (makeSegment p flags [] false).span = 1 := by
      rw [makeSegment_span,hs,hf]; rfl
    have hfs : (retain p io.ticks a (makeSegment p flags [] false)).finSent = 0 := by
      have hst : (retain p io.ticks a (makeSegment p flags [] false)).state = p.state :=
        congrArg state ht.control
      simp [Pcb.finSent,hst,hcl]
    refine ⟨fun _ => ?_,by simp,ht.iss,he _ (hplaced.onWire hseq (fun hn => ?_) p localMss)⟩
    · have hq := hnum.push ha (by rw [hseq,Serial.offset_zero,hn]) hcov hplaced
        (f := p.finPending) ht (fun hp => by simp [hi.pending] at hp)
        (by rw [hspan,hfs]; rfl) (by rw [hfs,hi.count]; decide)
      rwa [hspan] at hq
    · have hn : has flags tcpFin = true := hn
      simp [hf] at hn

theorem connectPcb_sends (closed : Bool) (h : SendOk p sent) (hs : p.state = .closed) (io : Io)
    (ifaceIp addr : BitVec 32) (port : BitVec 16) (iss : BitVec 32) :
    SendOk (connectPcb io p ifaceIp addr port iss).pcb (Op.sentAfter sent (.connect ifaceIp addr port iss)
        (connectPcb io p ifaceIp addr port iss).result) ∧
    (connectPcb io p ifaceIp addr port iss).pcb.iss = iss ∧
    Emits p.addr (OnWire iss [] closed) io (connectPcb io p ifaceIp addr port iss).io := by
  have hi : Idle (startConnect io.ticks p ifaceIp addr port iss) := by
    cases h with
    | live hl => simp [hs,TcpState.isLive] at hl
    | idle _ h => exact ⟨h.unacked,h.count,h.pending,h.persist,h.mss⟩
  obtain ⟨hok,hno,hiss,he⟩ := sendSyn closed hi rfl rfl rfl
    (show has tcpSyn tcpSyn = true by decide) (by decide) io
  have hc := (sendSegment_senderOnly io (startConnect io.ticks p ifaceIp addr port iss)
    tcpSyn [] false).control
  unfold connectPcb
  dsimp only
  generalize sendSegment io (startConnect io.ticks p ifaceIp addr port iss) tcpSyn [] false = r
    at hok hno hiss he hc ⊢
  cases hr : r.ok with
  | true =>
    simp only [if_true]
    refine ⟨.live ?_ (hok hr),hiss,he⟩
    dsimp only [keep]
    rw [hc]
    rfl
  | false =>
    rw [hno hr]
    rw [hno hr] at hiss
    exact ⟨.idle rfl ⟨hi.unacked,hi.count,hi.pending,hi.persist,hi.mss⟩,hiss,he⟩

theorem synChild_idle (now addr listener : Nat) (iss : BitVec 32) (hm : seg.mss ≤ localMss) :
    Idle (synChild now addr listener iss seg) :=
  ⟨rfl,rfl,rfl,rfl,hm⟩

theorem fresh_sendOk (addr : Nat) (sent : List UInt8) : SendOk (Pcb.fresh addr) sent :=
  .idle rfl ⟨rfl,rfl,rfl,rfl,(by decide : defaultMss ≤ localMss)⟩

theorem Op.run_sendOk (io : Io) {op : Op} (h : SendOk p sent) (hctl : ControlOk p.toControl)
    (hen : op.Enabled p) (hf : (op.run io p).freed = false) :
    SendOk (op.run io p).pcb (op.sentAfter sent (op.run io p).result) := by
  cases hop : op.isConnect with
  | false => exact (Op.run_sends io h hctl hen hop fun _ => rfl : Sends _ true _ _ _).ok hf
  | true =>
    cases op with
    | connect ifaceIp addr port iss =>
      exact (connectPcb_sends true h hen.2 io ifaceIp addr port iss).1
    | _ => cases hop

theorem sendOk_invariant : PcbInvariant (fun _ _ => True) fun p h => SendOk p h.sent where
  backlog hb h := h.transfer hb.sender (by rw [hb.control])
  fresh a := fresh_sendOk a []
  child io a l iss seg hm hok := by
    have hs := sendSyn false (synChild_idle io.ticks a l iss hm) rfl rfl rfl
      (show has (tcpSyn ||| tcpAck) tcpSyn = true by decide) (by decide) io
    have hctl := (sendSegment_senderOnly io (synChild io.ticks a l iss seg) (tcpSyn ||| tcpAck)
      [] false).control
    exact .live (by rw [hctl]; rfl) (hs.1 hok)
  run io _ _ _ h hctl hen _ hf := Op.run_sendOk io h hctl hen hf

/-- In every reachable state, the retained segments of a connection cover the window
from `snd_una` to `snd_nxt` with the bytes that were handed to `tcp_send`. -/
theorem retained_covers_window (es : List Tcp.Event) (p : Pcb)
    (hp : p ∈ (Tcp.machine.run es).pcbs) (hl : p.state.isLive = true) :
    ∃ una nxt, QueueOk p (history (Tcp.machine.run es).log p.addr).sent una nxt ∧
      una ≤ nxt ∧ 2*(nxt-una) < 2^32 ∧ p.unackedCount ≤ 9 ∧
      (p.unacked.tail = none ↔ p.unacked.nodes = []) := by
  obtain ⟨una,nxt,h⟩ := (sendOk_invariant.run_all es p hp).queue hl
  refine ⟨una,nxt,h,h.le,h.half,?_,h.linked.tail_none⟩
  have hr := h.room
  have hf : p.finSent ≤ 1 := Bool.toNat_le _
  have hm : maxDataSegments = 8 := rfl
  rw [h.count]
  omega

/-- Two segments are sent, and the first is acknowledged. -/
def Tcp.halfAcked : List Tcp.Event :=
  dialling ++ [arrival 2 [some 5] (fromServer 5000 66537 (tcpSyn ||| tcpAck) []),
    ⟨3,[some 6,some 7],⟨none,none⟩,1,.send [1,2]⟩,⟨4,[some 8,some 9],⟨none,none⟩,1,.send [3,4,5]⟩,
    arrival 5 [] (fromServer 5001 66539 tcpAck [])]

theorem retained_covers_window_acked :
    ∃ p ∈ (Tcp.machine.run Tcp.halfAcked).pcbs, p.state.isLive = true ∧ p.unackedCount = 1 ∧
      ∃ una nxt, QueueOk p (history (Tcp.machine.run Tcp.halfAcked).log p.addr).sent una nxt ∧
        una ≤ nxt ∧ 2*(nxt-una) < 2^32 ∧ p.unackedCount ≤ 9 ∧
        (p.unacked.tail = none ↔ p.unacked.nodes = []) := by
  have hrun : (Tcp.machine.run Tcp.halfAcked).pcbs.map (fun p => (p.state.isLive,p.unackedCount)) =
      [(true,1)] := by
    decide +kernel
  obtain ⟨p,hp,he⟩ := List.map_eq_singleton_iff.mp hrun
  have hm : p ∈ (Tcp.machine.run Tcp.halfAcked).pcbs := by rw [hp]; exact List.mem_singleton_self p
  have hl : p.state.isLive = true := congrArg Prod.fst he
  exact ⟨p,hm,hl,congrArg Prod.snd he,retained_covers_window Tcp.halfAcked p hm hl⟩

end Rucux.Net
