import Rucux.Net.Tcp.Pcb

/-!
What one section of the TCP lock does to one PCB: a segment that was found to be
for it, a call of its owner, or the timer. Calls that may sleep are modelled up to
the next point where they return or block; every retry of the loop is a new call.
-/

namespace Rucux.Net

inductive Result where
  | unit
  | code (c : Int)
  | bytes (data : List UInt8)
  | pcb (addr : Option Nat)
  | blocked
  deriving DecidableEq, Repr

/-- `freed` asks for `free_locked`, `completed` for a place in the listener's
accept queue. `stored` is what the receive loop wrote into the ring. -/
structure Outcome where
  pcb : Pcb
  io : Io
  freed : Bool
  completed : Bool
  stored : List UInt8
  result : Result

def Outcome.keep (p : Pcb) (io : Io) : Outcome := ⟨p,io,false,false,[],.unit⟩

def Outcome.return (p : Pcb) (io : Io) (c : Int) : Outcome := ⟨p,io,false,false,[],.code c⟩

def Outcome.free (p : Pcb) (io : Io) (freed : Bool) : Outcome := ⟨p,io,freed,false,[],.unit⟩

/-- The thread inside a blocking call: whether it has a fatal signal pending, and
whether `begin_interruptible_wait` lets it sleep. -/
structure Caller where
  thread : Option Nat
  fatal : Bool
  mayWait : Bool

def rstInput (io : Io) (p : Pcb) (seg : Segment) : Outcome :=
  if (p.state = .synSent ∧ seg.hasAck ∧ seg.ack = p.sndNxt) ∨
      (p.state ≠ .listen ∧ seg.seq = p.rcvNxt) then
    .free (resetLocked p) io (p.detached || p.listener.isSome)
  else .keep p io

def acceptSyn (p : Pcb) (seg : Segment) : Pcb :=
  { setMss p seg.mss with rcvNxt := seg.seq + 1 }

def synSentInput (io : Io) (p : Pcb) (seg : Segment) : Outcome :=
  if seg.flags &&& (tcpSyn ||| tcpAck) = (tcpSyn ||| tcpAck) ∧ seg.ack = p.sndNxt then
    let q := acknowledge io.ticks (acceptSyn p seg) seg.ack
    let w := updateWindow io q seg.window.toNat
    let q := { w.1 with state := .established, expires := 0 }
    .keep (wakeConnect q) (sendAck w.2 q)
  else .keep p io

/-- Acknowledgement, window and a FIN that was waiting for either. -/
def ackInput (io : Io) (p : Pcb) (seg : Segment) : Pcb × Io :=
  let a :=
    if 0 ≤ (seg.ack - p.sndUna).toInt then
      let w := updateWindow io (acknowledge io.ticks p seg.ack) seg.window.toNat
      (wakeSend w.1,w.2)
    else (p,io)
  sendPendingFin a.2 a.1

def finAcked (now : Nat) (p : Pcb) (ack : BitVec 32) : Pcb :=
  let q := if p.state = .finWait1 ∧ p.finPending = false ∧ ack = p.sndNxt then
    { p with state := .finWait2 } else p
  if q.state = .closing ∧ q.finPending = false ∧ ack = q.sndNxt then
    { q with state := .timeWait, expires := now+2000 } else q

def finInput (now : Nat) (p : Pcb) : Pcb :=
  let q := { p with rcvNxt := p.rcvNxt + 1 }
  match p.state with
  | .established => { q with state := .closeWait }
  | .finWait1 => { q with state := .closing }
  | _ => { q with state := .timeWait, expires := now+2000 }

/-- How much of an in-order payload is taken. A closed application no longer
consumes data, so a detached PCB takes all of it. -/
def copiedLength (p : Pcb) (seg : Segment) : Nat :=
  if p.detached then seg.payload.length
  else if seg.payload.length < p.rcvWnd then seg.payload.length else p.rcvWnd

def storedBytes (p : Pcb) (seg : Segment) : List UInt8 :=
  if p.detached then [] else seg.payload.take (copiedLength p seg)

def takePayload (p : Pcb) (seg : Segment) : Pcb :=
  { p with
    rcvBuf := p.rcvBuf.putAll (storedBytes p seg)
    rcvNxt := p.rcvNxt + BitVec.ofNat 32 (copiedLength p seg)
    rcvWnd := if p.detached then p.rcvWnd else p.rcvWnd-copiedLength p seg }

def dataInput (io : Io) (p : Pcb) (seg : Segment) : Outcome :=
  if p.state = .established ∨ p.state = .finWait1 ∨ p.state = .finWait2 then
    let q := if seg.fin ∧ copiedLength p seg = seg.payload.length then
      finInput io.ticks (takePayload p seg) else takePayload p seg
    if seg.payload ≠ [] ∨ seg.fin then
      ⟨wakeRecv q,sendAck io q,false,false,storedBytes p seg,.unit⟩
    else ⟨q,io,false,false,storedBytes p seg,.unit⟩
  else .keep p io

/-- Only in-order segments are taken; duplicates are acknowledged. -/
def synchronizedInput (io : Io) (p : Pcb) (seg : Segment) : Outcome :=
  if seg.seq ≠ p.rcvNxt ∨ seg.syn then .keep p (sendAck io p)
  else if seg.hasAck = false ∨ 0 < (seg.ack - p.sndNxt).toInt then .keep p io
  else
    let a := ackInput io p seg
    if a.1.state = .lastAck ∧ a.1.finPending = false ∧ seg.ack = a.1.sndNxt then
      .free { a.1 with state := .closed } a.2 a.1.detached
    else dataInput a.2 (finAcked a.2.ticks a.1 seg.ack) seg

/-- The deadline also bounds how long a connection may wait to be accepted. -/
def establish (now : Nat) (p : Pcb) : Pcb :=
  { p with state := .established, expires := now+5000 }

/-- A repeated SYN is answered again; the final ACK of the handshake goes on as a
segment of the established connection. -/
def synReceivedInput (io : Io) (p : Pcb) (seg : Segment) : Outcome :=
  if seg.syn ∧ seg.seq + 1 = p.rcvNxt then
    if p.unacked.nodes ≠ [] then
      .keep (invalidateRtt p) (retransmitHead io (invalidateRtt p) localMss)
    else .keep p io
  else if seg.hasAck ∧ seg.ack = p.sndNxt ∧ seg.seq = p.rcvNxt then
    { synchronizedInput io (establish io.ticks p) seg with completed := true }
  else .keep p io

def segmentArrives (io : Io) (p : Pcb) (seg : Segment) : Outcome :=
  if seg.rst then rstInput io p seg
  else if p.state = .synSent then synSentInput io p seg
  else if p.state = .synReceived then synReceivedInput io p seg
  else synchronizedInput io p seg

/-- The PCB a SYN makes for a listener, before its SYN and ACK is sent. -/
def synChild (now addr listener : Nat) (iss : BitVec 32) (seg : Segment) : Pcb :=
  { setMss (Pcb.fresh addr) seg.mss with
    sndWnd := seg.window.toNat, state := .synReceived
    localIp := seg.dstIp, remoteIp := seg.srcIp
    localPort := seg.dstPort, remotePort := seg.srcPort
    rcvNxt := seg.seq + 1, iss := iss, sndUna := iss, sndNxt := iss
    listener := some listener, expires := now+15000 }

def listenPcb (io : Io) (p : Pcb) (backlog : Int) : Outcome :=
  if p.state ≠ .closed ∨ p.localPort = 0 then .return p io (-22)
  else
    .return { p with
      state := .listen, backlog := if backlog < 1 then 1 else if backlog > 16 then 16 else backlog }
      io 0

def startConnect (now : Nat) (p : Pcb) (ifaceIp addr : BitVec 32) (port : BitVec 16)
    (iss : BitVec 32) : Pcb :=
  { p with
    localIp := if p.localIp = 0 then ifaceIp else p.localIp
    remoteIp := addr, remotePort := port
    iss := iss, sndNxt := iss, sndUna := iss
    state := .synSent, expires := now+15000, error := 0 }

def connectPcb (io : Io) (p : Pcb) (ifaceIp addr : BitVec 32) (port : BitVec 16)
    (iss : BitVec 32) : Outcome :=
  let sent := sendSegment io (startConnect io.ticks p ifaceIp addr port iss) tcpSyn [] false
  if sent.ok then { Outcome.keep sent.pcb sent.io with result := .blocked }
  else .return { sent.pcb with state := .closed } sent.io (-12)

def stopWaitConnect (p : Pcb) (thread : Option Nat) : Pcb :=
  if p.waitConnect = thread then { p with waitConnect := none } else p

def stopWaitRecv (p : Pcb) (thread : Option Nat) : Pcb :=
  if p.waitRecv = thread then { p with waitRecv := none } else p

def connectWait (io : Io) (p : Pcb) (caller : Caller) : Outcome :=
  let p := stopWaitConnect p caller.thread
  if caller.thread.isSome && caller.fatal then .return p io (-4)
  else if p.state ≠ .synSent then
    .return p io (if p.state = .established then 0 else if p.error ≠ 0 then p.error else -111)
  else if caller.thread.isNone || !caller.mayWait then
    .return p io (if caller.thread.isSome then -4 else -3)
  else { Outcome.keep { p with waitConnect := caller.thread } io with result := .blocked }

def acceptPcb (p : Pcb) : Pcb := { p with listener := none, expires := 0 }

def restartIdle (p : Pcb) (now : Nat) : Pcb :=
  if p.sndNxt = p.sndUna ∧ now-p.lastDataSent ≥ p.rto then
    { p with cwnd := p.sendMss, congestionCredit := 0 }
  else p

/-- What one call may send: bounded by MSS, congestion window and peer window. -/
def sendCount (p : Pcb) (length : Nat) : Nat :=
  let flight := (p.sndNxt - p.sndUna).toNat
  let window := if p.sndWnd < p.cwnd then p.sndWnd else p.cwnd
  let available := if flight < window then window-flight else 0
  let count := if length < p.sendMss then length else p.sendMss
  if count > available then available else count

def tcpSend (io : Io) (p : Pcb) (data : List UInt8) : Outcome :=
  if p.state ≠ .established ∧ p.state ≠ .closeWait then .return p io (-107)
  else if data = [] then .return p io 0
  else if p.unackedCount ≥ maxDataSegments then .return p io (-11)
  else
    let q := restartIdle p io.ticks
    let count := sendCount q data.length
    if count = 0 then .return q io (-11)
    else
      let sent := sendSegment io q (tcpAck ||| tcpPsh) (data.take count) false
      if sent.ok then .return { sent.pcb with lastDataSent := io.ticks } sent.io count
      else .return sent.pcb sent.io (-12)

def tcpRecv (io : Io) (p : Pcb) (caller : Caller) (len : Nat) : Outcome :=
  if len = 0 then .return p io 0
  else
    let p := stopWaitRecv p caller.thread
    let available := p.rcvBuf.used
    if caller.thread.isSome && caller.fatal then .return p io (-4)
    else if available ≠ 0 then
      let count := if len < available then len else available
      let taken := p.rcvBuf.take count
      let q := { p with rcvBuf := taken.2, rcvWnd := u32 (p.rcvWnd+count) }
      { Outcome.keep q (sendAck io q) with result := .bytes taken.1 }
    else if p.state ≠ .established then
      .return p io (if p.error ≠ 0 then p.error else if p.state = .closeWait then 0 else -107)
    else if p.waitRecv.isSome && p.waitRecv ≠ caller.thread then .return p io (-16)
    else if caller.thread.isNone || !caller.mayWait then
      .return p io (if caller.thread.isSome then -4 else -3)
    else { Outcome.keep { p with waitRecv := caller.thread } io with result := .blocked }

/-- An open connection that its application gives up: the ring is gone, and a FIN
is due. -/
def detachPcb (now : Nat) (p : Pcb) : Pcb :=
  { p with
    state := if p.state = .established then .finWait1 else .lastAck
    detached := true, expires := now+15000
    rcvWnd := 0, finPending := true }

/-- `tcp_close`, after a listener's children are gone: an open connection keeps
only its teardown, any other PCB is freed. -/
def closePcb (io : Io) (p : Pcb) : Outcome :=
  if p.state = .established ∨ p.state = .closeWait then
    let s := sendPendingFin io (detachPcb io.ticks p)
    .return s.1 s.2 0
  else { Outcome.free p io true with result := .code 0 }

def probeWindow (io : Io) (p : Pcb) (now : Nat) : Outcome :=
  let sent := sendSegment io p tcpAck [] true
  let delay := if 2*p.persistDelay > maxPersistDelay then maxPersistDelay else 2*p.persistDelay
  .keep { sent.pcb with persistDelay := delay, persistAt := now+delay } sent.io

def retransmit (io : Io) (p : Pcb) (now : Nat) : Outcome :=
  let half := (p.sndNxt - p.sndUna).toNat / 2
  let q := if p.retries = 0 then
      { p with ssthresh := if half < u32 (2*p.sendMss) then u32 (2*p.sendMss) else half }
    else p
  let q := invalidateRtt { q with cwnd := q.sendMss, congestionCredit := 0 }
  let io := retransmitHead io q (if q.sndWnd < q.sendMss then q.sndWnd else q.sendMss)
  let rto := if 2*q.rto > maxRto then maxRto else 2*q.rto
  .keep { q with retries := q.retries+1, rto := rto, retransmitAt := now+rto } io

def persisting (p : Pcb) : Bool := p.persistAt ≠ 0 ∧ p.sndWnd = 0

def retryDue (p : Pcb) (now : Nat) : Bool :=
  !persisting p && !p.unacked.nodes.isEmpty && decide (now ≥ p.retransmitAt)

def expired (p : Pcb) (now : Nat) : Bool :=
  (decide (p.expires ≠ 0) && decide (now ≥ p.expires)) ||
    (retryDue p now && decide (p.retries = maxRetries)) ||
    (persisting p && decide (now ≥ p.persistExpires))

def tickPcb (io : Io) (p : Pcb) (now : Nat) : Outcome :=
  if expired p now then
    if p.detached || p.listener.isSome then .free p io true
    else .keep { resetLocked p with error := -110, expires := 0 } io
  else if persisting p && decide (now ≥ p.persistAt) then probeWindow io p now
  else if retryDue p now then retransmit io p now
  else if p.finPending then .keep (sendPendingFin io p).1 (sendPendingFin io p).2
  else .keep p io

def bindPcb (p : Pcb) (ip : BitVec 32) (port : BitVec 16) : Pcb :=
  { p with localIp := ip, localPort := port }

inductive Op where
  | bind (ip : BitVec 32) (port : BitVec 16)
  | listen (backlog : Int)
  | connect (ifaceIp addr : BitVec 32) (port : BitVec 16) (iss : BitVec 32)
  | connectWait (caller : Caller)
  | accept
  | send (data : List UInt8)
  | recv (caller : Caller) (len : Nat)
  | close
  | input (seg : Segment)
  | tick (now : Nat)

def Op.run (io : Io) (p : Pcb) : Op → Outcome
  | .bind ip port => .return (bindPcb p ip port) io 0
  | .listen backlog => listenPcb io p backlog
  | .connect ifaceIp addr port iss => connectPcb io p ifaceIp addr port iss
  | .connectWait caller => Net.connectWait io p caller
  | .accept => .keep (acceptPcb p) io
  | .send data => tcpSend io p data
  | .recv caller len => tcpRecv io p caller len
  | .close => closePcb io p
  | .input seg => segmentArrives io p seg
  | .tick now => tickPcb io p now

def Pcb.Owned (p : Pcb) : Prop := p.detached = false ∧ p.listener = none

/-- What the layer has checked before it runs an operation on a PCB. A segment
brings an MSS that `parse_options` let through. -/
def Op.Enabled (p : Pcb) : Op → Prop
  | .bind _ _ | .connect _ _ _ _ => p.Owned ∧ p.state = .closed
  | .input seg => p.state ≠ .closed ∧ 1 ≤ seg.mss ∧ seg.mss ≤ localMss ∧
      (p.state = .listen → seg.rst = true)
  | .accept => p.listener.isSome = true
  | .tick _ => True
  | .listen _ | .connectWait _ | .send _ | .recv _ _ | .close => p.Owned

def Op.isConnect : Op → Bool
  | .connect _ _ _ _ => true
  | _ => false

def acceptedBytes (data : List UInt8) : Result → List UInt8
  | .code n => data.take n.toNat
  | _ => []

/-- The stream after an operation: `tcp_send` extends it, `tcp_connect` starts a new one. -/
def Op.sentAfter (sent : List UInt8) : Op → Result → List UInt8
  | .send data, result => sent ++ acceptedBytes data result
  | .connect _ _ _ _, .blocked => []
  | _, _ => sent

def Op.returnedBytes : Op → Result → List UInt8
  | .recv _ _, .bytes data => data
  | _, _ => []

/-- `q` is `p` with changes to the sender's half and the waiters only. -/
structure SenderOnly (p q : Pcb) : Prop where
  control : q.toControl = p.toControl
  receiver : q.toReceiver = p.toReceiver
  backlog : q.toBacklog = p.toBacklog

structure WaitersOnly (p q : Pcb) : Prop extends SenderOnly p q where
  sender : q.toSender = p.toSender

structure TimersOnly (p q : Pcb) : Prop extends SenderOnly p q where
  iss : q.iss = p.iss
  una : q.sndUna = p.sndUna
  nxt : q.sndNxt = p.sndNxt
  unacked : q.unacked = p.unacked
  count : q.unackedCount = p.unackedCount
  mss : q.sendMss = p.sendMss
  fin : q.finPending = p.finPending

theorem SenderOnly.refl (p : Pcb) : SenderOnly p p := ⟨rfl,rfl,rfl⟩

theorem SenderOnly.trans {p q r : Pcb} (h : SenderOnly p q) (h' : SenderOnly q r) : SenderOnly p r :=
  ⟨h'.control.trans h.control,h'.receiver.trans h.receiver,h'.backlog.trans h.backlog⟩

theorem TimersOnly.refl (p : Pcb) : TimersOnly p p :=
  ⟨.refl p,rfl,rfl,rfl,rfl,rfl,rfl,rfl⟩

theorem TimersOnly.trans {p q r : Pcb} (h : TimersOnly p q) (h' : TimersOnly q r) : TimersOnly p r :=
  ⟨h.toSenderOnly.trans h'.toSenderOnly,h'.iss.trans h.iss,h'.una.trans h.una,
    h'.nxt.trans h.nxt,h'.unacked.trans h.unacked,h'.count.trans h.count,
    h'.mss.trans h.mss,h'.fin.trans h.fin⟩

theorem invalidateRtt_timersOnly (p : Pcb) : TimersOnly p (invalidateRtt p) :=
  ⟨⟨rfl,rfl,rfl⟩,rfl,rfl,rfl,rfl,rfl,rfl,rfl⟩

theorem updateRtt_timersOnly (p : Pcb) (ack : BitVec 32) (now : Nat) :
    TimersOnly p (updateRtt p ack now) := by
  unfold updateRtt
  dsimp only
  split <;> split <;> exact ⟨⟨rfl,rfl,rfl⟩,rfl,rfl,rfl,rfl,rfl,rfl,rfl⟩

theorem creditWindow_timersOnly (p : Pcb) (bytes : Nat) : TimersOnly p (creditWindow p bytes) := by
  unfold creditWindow
  split
  · exact ⟨⟨rfl,rfl,rfl⟩,rfl,rfl,rfl,rfl,rfl,rfl,rfl⟩
  dsimp only
  split <;> exact ⟨⟨rfl,rfl,rfl⟩,rfl,rfl,rfl,rfl,rfl,rfl,rfl⟩

theorem capWindow_timersOnly (p : Pcb) : TimersOnly p (capWindow p) := by
  unfold capWindow
  split
  · exact ⟨⟨rfl,rfl,rfl⟩,rfl,rfl,rfl,rfl,rfl,rfl,rfl⟩
  · exact .refl p

theorem growCongestionWindow_timersOnly (p : Pcb) (bytes : Nat) :
    TimersOnly p (growCongestionWindow p bytes) := by
  unfold growCongestionWindow
  split
  · exact .refl p
  · exact (creditWindow_timersOnly p _).trans (capWindow_timersOnly _)

theorem startPersist_timersOnly (p : Pcb) (now : Nat) : TimersOnly p (startPersist p now) := by
  unfold startPersist
  dsimp only
  split <;> exact ⟨⟨rfl,rfl,rfl⟩,rfl,rfl,rfl,rfl,rfl,rfl,rfl⟩

theorem updateWindow_timersOnly (io : Io) (p : Pcb) (window : Nat) :
    TimersOnly p (updateWindow io p window).1 := by
  unfold updateWindow
  split
  · exact TimersOnly.trans (q := { p with sndWnd := window })
      ⟨⟨rfl,rfl,rfl⟩,rfl,rfl,rfl,rfl,rfl,rfl,rfl⟩ (startPersist_timersOnly _ io.ticks)
  · dsimp only
    split <;> exact ⟨⟨rfl,rfl,rfl⟩,rfl,rfl,rfl,rfl,rfl,rfl,rfl⟩

section
variable (p : Pcb) (now : Nat)

theorem rearm_timersOnly : TimersOnly p (rearm p now) :=
  ⟨⟨rfl,rfl,rfl⟩,rfl,rfl,rfl,rfl,rfl,rfl,rfl⟩

theorem startRetransmit_timersOnly : TimersOnly p (startRetransmit p now) := by
  unfold startRetransmit
  split
  · exact .refl p
  · exact ⟨⟨rfl,rfl,rfl⟩,rfl,rfl,rfl,rfl,rfl,rfl,rfl⟩

theorem startRtt_timersOnly : TimersOnly p (startRtt p now) := by
  unfold startRtt
  split
  · exact ⟨⟨rfl,rfl,rfl⟩,rfl,rfl,rfl,rfl,rfl,rfl,rfl⟩
  · exact .refl p

theorem restartIdle_timersOnly : TimersOnly p (restartIdle p now) := by
  unfold restartIdle
  split
  · exact ⟨⟨rfl,rfl,rfl⟩,rfl,rfl,rfl,rfl,rfl,rfl,rfl⟩
  · exact .refl p

end

theorem wakeSend_timersOnly (p : Pcb) : TimersOnly p (wakeSend p) :=
  ⟨⟨rfl,rfl,rfl⟩,rfl,rfl,rfl,rfl,rfl,rfl,rfl⟩

theorem dropAcked_senderOnly (p : Pcb) (ack : BitVec 32) : SenderOnly p (dropAcked p ack) :=
  ⟨rfl,rfl,rfl⟩

theorem acknowledge_senderOnly (now : Nat) (p : Pcb) (ack : BitVec 32) :
    SenderOnly p (acknowledge now p ack) := by
  unfold acknowledge
  split
  · exact .refl p
  exact (updateRtt_timersOnly p ack now).toSenderOnly.trans ((dropAcked_senderOnly _ ack).trans
      ((growCongestionWindow_timersOnly _ _).toSenderOnly.trans (rearm_timersOnly _ now).toSenderOnly))

theorem acknowledge_iss (now : Nat) (p : Pcb) (ack : BitVec 32) :
    (acknowledge now p ack).iss = p.iss := by
  unfold acknowledge
  split
  · rfl
  exact (rearm_timersOnly _ now).iss.trans ((growCongestionWindow_timersOnly _ _).iss.trans
    (updateRtt_timersOnly p ack now).iss)

theorem linkSegment_senderOnly (p : Pcb) (addr : Nat) (seg : Segment) :
    SenderOnly p (linkSegment p addr seg) := ⟨rfl,rfl,rfl⟩

theorem retain_senderOnly (p : Pcb) (now addr : Nat) (seg : Segment) :
    SenderOnly p (retain p now addr seg) :=
  (startRetransmit_timersOnly p now).toSenderOnly.trans
    ((linkSegment_senderOnly _ addr seg).trans (startRtt_timersOnly _ now).toSenderOnly)

/-- The output queue grew by packets of `a` that satisfy `Q`; the clock stood still. -/
structure Emits (a : Nat) (Q : Segment → Prop) (io io' : Io) : Prop where
  ticks : io'.ticks = io.ticks
  out : ∃ new, io'.output = io.output ++ new ∧ ∀ pk ∈ new, pk.owner = a ∧ Q pk.seg

theorem Emits.refl (a : Nat) (Q : Segment → Prop) (io : Io) : Emits a Q io io :=
  ⟨rfl,[],by simp,by simp⟩

theorem Emits.trans {a : Nat} {Q : Segment → Prop} {x y z : Io} (h : Emits a Q x y)
    (h' : Emits a Q y z) : Emits a Q x z := by
  obtain ⟨u,hu,hQ⟩ := h.out
  obtain ⟨v,hv,hQ'⟩ := h'.out
  refine ⟨h'.ticks.trans h.ticks,u ++ v,by rw [hv,hu,List.append_assoc],?_⟩
  intro pk hpk
  rcases List.mem_append.mp hpk with hp | hp
  · exact hQ pk hp
  · exact hQ' pk hp

theorem kmalloc_emits (io : Io) (live : List Nat) (a : Nat) (Q : Segment → Prop) :
    Emits a Q io (io.kmalloc live).2 := by
  unfold Io.kmalloc
  split <;> exact ⟨rfl,[],by simp,by simp⟩

theorem kmalloc_fresh {io : Io} {live : List Nat} {a : Nat}
    (h : (io.kmalloc live).1 = some a) : a ≠ 0 ∧ a ∉ live := by
  unfold Io.kmalloc at h
  split at h
  · cases h
  · simpa using (Option.filter_eq_some_iff.mp h).2

theorem enqueueOutput_emits (io : Io) (a : Nat) (seg : Segment) (Q : Segment → Prop)
    (h : Q seg) : Emits a Q io (io.enqueueOutput a seg) :=
  ⟨rfl,[⟨a,seg⟩],rfl,by simpa using h⟩

inductive SendCases (io : Io) (p : Pcb) (flags : BitVec 8) (data : List UInt8) (probe : Bool) :
    Sent → Prop where
  | failed {io' : Io} (h : ∀ a Q, Emits a Q io io') :
      SendCases io p flags data probe ⟨false,p,io'⟩
  | plain {io' : Io} (hr : reliable flags data = false)
      (h : ∀ Q : Segment → Prop, Q (makeSegment p flags data probe) → Emits p.addr Q io io') :
      SendCases io p flags data probe ⟨true,p,io'⟩
  | kept {io' : Io} {a : Nat} (hr : reliable flags data = true) (ha : a ∉ p.unacked.addrs)
      (hroom : p.unackedCount < maxDataSegments+(has flags tcpFin).toNat)
      (h : ∀ Q : Segment → Prop, Q (segmentCopy p (makeSegment p flags data probe) localMss) →
        Emits p.addr Q io io') :
      SendCases io p flags data probe ⟨true,retain p io.ticks a (makeSegment p flags data probe),io'⟩

theorem copySegment_emits (io : Io) (p : Pcb) (original : Segment) (limit a : Nat)
    (Q : Segment → Prop) : Emits a Q io (copySegment io p original limit).2 := by
  have h := kmalloc_emits io [] a Q
  unfold copySegment
  split <;> (rename_i heq; rw [heq] at h; exact h)

theorem copySegment_some {p : Pcb} {io : Io} {original wire : Segment} {limit : Nat}
    (h : (copySegment io p original limit).1 = some wire) :
    wire = segmentCopy p original limit := by
  unfold copySegment at h
  split at h
  · cases h
  · exact (Option.some.inj h).symm

section
variable (io : Io) (p : Pcb)

theorem sendSegment_cases (flags : BitVec 8) (data : List UInt8) (probe : Bool) :
    SendCases io p flags data probe (sendSegment io p flags data probe) := by
  unfold sendSegment
  split
  · exact .failed fun a Q => .refl a Q io
  rename_i hcount
  have hk := fun a Q => kmalloc_emits io p.unacked.addrs a Q
  cases hm : io.kmalloc p.unacked.addrs with
  | mk answer io₁ =>
    rw [hm] at hk
    cases answer with
    | none => exact .failed hk
    | some addr =>
      have hfresh := (kmalloc_fresh (by rw [hm])).2
      dsimp only
      split
      · exact .failed hk
      cases hr : reliable flags data with
      | false =>
        exact .plain hr fun Q hQ => (hk p.addr Q).trans (enqueueOutput_emits io₁ p.addr _ Q hQ)
      | true =>
        have hc := copySegment_emits io₁ p (makeSegment p flags data probe) localMss
        have hw := fun w => @copySegment_some p io₁ (makeSegment p flags data probe) w localMss
        simp only [if_true]
        split
        · rename_i io₂ heq
          rw [heq] at hc
          exact .failed fun a Q => (hk a Q).trans (hc a Q)
        rename_i wire io₂ heq
        rw [heq] at hc hw
        cases hw wire rfl
        have htick : io₂.ticks = io.ticks := (hc 0 (fun _ => True)).ticks.trans
          (hk 0 (fun _ => True)).ticks
        simp only [htick]
        refine .kept hr hfresh ?_ fun Q hQ =>
          ((hk p.addr Q).trans (hc p.addr Q)).trans (enqueueOutput_emits io₂ p.addr _ Q hQ)
        simpa [hr] using hcount

theorem sendSegment_senderOnly (flags : BitVec 8) (data : List UInt8) (probe : Bool) :
    SenderOnly p (sendSegment io p flags data probe).pcb := by
  have h := sendSegment_cases io p flags data probe
  generalize sendSegment io p flags data probe = r at h ⊢
  cases h with
  | failed => exact .refl p
  | plain => exact .refl p
  | kept => exact retain_senderOnly p _ _ _

theorem sendPendingFin_senderOnly : SenderOnly p (sendPendingFin io p).1 := by
  unfold sendPendingFin
  dsimp only
  split
  · have h := sendSegment_senderOnly io p (tcpFin ||| tcpAck) [] false
    split
    · exact h.trans ⟨rfl,rfl,rfl⟩
    · exact h
  · exact .refl p

theorem ackInput_senderOnly (seg : Segment) : SenderOnly p (ackInput io p seg).1 := by
  unfold ackInput
  dsimp only
  split
  · exact (acknowledge_senderOnly io.ticks p seg.ack).trans
      ((updateWindow_timersOnly io _ seg.window.toNat).toSenderOnly.trans
        ((wakeSend_timersOnly _).toSenderOnly.trans (sendPendingFin_senderOnly _ _)))
  · exact sendPendingFin_senderOnly _ _

theorem sendSegment_emits (flags : BitVec 8) (data : List UInt8) (probe : Bool) :
    Emits p.addr (fun _ => True) io (sendSegment io p flags data probe).io := by
  have h := sendSegment_cases io p flags data probe
  generalize sendSegment io p flags data probe = r at h ⊢
  cases h with
  | failed h => exact h _ _
  | plain _ h => exact h _ trivial
  | kept _ _ _ h => exact h _ trivial

theorem retransmitHead_emits (limit : Nat) {Q : Segment → Prop}
    (hQ : ∀ a head rest, p.unacked.nodes = (a,head) :: rest → Q (segmentCopy p head limit)) :
    Emits p.addr Q io (retransmitHead io p limit) := by
  unfold retransmitHead
  split
  · exact .refl _ _ _
  rename_i a head rest hn
  have he := copySegment_emits io p head limit p.addr Q
  have hw := fun w => @copySegment_some p io head w limit
  split
  · rename_i heq; rw [heq] at he; exact he
  rename_i retry io' heq
  rw [heq] at he hw
  cases hw retry rfl
  exact he.trans (enqueueOutput_emits _ _ _ _ (hQ a head rest hn))

theorem sendPendingFin_emits : Emits p.addr (fun _ => True) io (sendPendingFin io p).2 := by
  unfold sendPendingFin
  dsimp only
  split
  · exact sendSegment_emits io p _ _ _
  · exact .refl _ _ _

theorem updateWindow_emits (window : Nat) :
    Emits p.addr (fun _ => True) io (updateWindow io p window).2 := by
  unfold updateWindow
  split
  · exact .refl _ _ _
  dsimp only
  split
  · exact retransmitHead_emits io { p with sndWnd := window, persistAt := 0, persistExpires := 0 }
      _ fun _ _ _ _ => trivial
  · exact .refl _ _ _

theorem ackInput_emits (seg : Segment) : Emits p.addr (fun _ => True) io (ackInput io p seg).2 := by
  unfold ackInput
  dsimp only
  split
  · have ha := (acknowledge_senderOnly io.ticks p seg.ack).control
    have hw := (updateWindow_timersOnly io (acknowledge io.ticks p seg.ack) seg.window.toNat).control
    have h₁ := updateWindow_emits io (acknowledge io.ticks p seg.ack) seg.window.toNat
    have h₂ := sendPendingFin_emits (updateWindow io (acknowledge io.ticks p seg.ack)
      seg.window.toNat).2 (wakeSend (updateWindow io (acknowledge io.ticks p seg.ack) seg.window.toNat).1)
    rw [ha] at h₁
    rw [show (wakeSend (updateWindow io (acknowledge io.ticks p seg.ack)
      seg.window.toNat).1).addr = p.addr from congrArg Control.addr (hw.trans ha)] at h₂
    exact h₁.trans h₂
  · exact sendPendingFin_emits io p

end

theorem stopWaitConnect_waitersOnly (p : Pcb) (thread : Option Nat) :
    WaitersOnly p (stopWaitConnect p thread) := by
  unfold stopWaitConnect
  split <;> exact ⟨⟨rfl,rfl,rfl⟩,rfl⟩

theorem stopWaitRecv_waitersOnly (p : Pcb) (thread : Option Nat) :
    WaitersOnly p (stopWaitRecv p thread) := by
  unfold stopWaitRecv
  split <;> exact ⟨⟨rfl,rfl,rfl⟩,rfl⟩

/-- An outcome that neither frees the PCB nor takes in anything. -/
structure Outcome.Plain (o : Outcome) : Prop where
  freed : o.freed = false
  completed : o.completed = false
  stored : o.stored = []

theorem tcpSend_senderOnly (io : Io) (p : Pcb) (data : List UInt8) :
    SenderOnly p (tcpSend io p data).pcb ∧ (tcpSend io p data).Plain := by
  have hr := (restartIdle_timersOnly p io.ticks).toSenderOnly
  unfold tcpSend
  split
  · exact ⟨.refl p,⟨rfl,rfl,rfl⟩⟩
  split
  · exact ⟨.refl p,⟨rfl,rfl,rfl⟩⟩
  split
  · exact ⟨.refl p,⟨rfl,rfl,rfl⟩⟩
  dsimp only
  generalize restartIdle p io.ticks = q at hr ⊢
  split
  · exact ⟨hr,⟨rfl,rfl,rfl⟩⟩
  have hs := hr.trans (sendSegment_senderOnly io q (tcpAck ||| tcpPsh)
    (data.take (sendCount q data.length)) false)
  generalize sendSegment io q (tcpAck ||| tcpPsh) (data.take (sendCount q data.length)) false = r at hs ⊢
  split
  · exact ⟨hs.trans ⟨rfl,rfl,rfl⟩,⟨rfl,rfl,rfl⟩⟩
  · exact ⟨hs,⟨rfl,rfl,rfl⟩⟩

theorem connectWait_waitersOnly (io : Io) (p : Pcb) (caller : Caller) :
    WaitersOnly p (connectWait io p caller).pcb ∧ (connectWait io p caller).Plain ∧
      (connectWait io p caller).io = io := by
  have hq := stopWaitConnect_waitersOnly p caller.thread
  unfold connectWait
  dsimp only
  generalize stopWaitConnect p caller.thread = q at hq ⊢
  split
  · exact ⟨hq,⟨rfl,rfl,rfl⟩,rfl⟩
  split
  · exact ⟨hq,⟨rfl,rfl,rfl⟩,rfl⟩
  split
  · exact ⟨hq,⟨rfl,rfl,rfl⟩,rfl⟩
  · exact ⟨⟨⟨hq.control,hq.receiver,hq.backlog⟩,hq.sender⟩,⟨rfl,rfl,rfl⟩,rfl⟩

theorem tcpRecv_cases (io : Io) (p : Pcb) (caller : Caller) (len : Nat) :
    (tcpRecv io p caller len).Plain ∧
    (tcpRecv io p caller len).pcb.toControl = p.toControl ∧
    (tcpRecv io p caller len).pcb.toSender = p.toSender ∧
    (tcpRecv io p caller len).pcb.toBacklog = p.toBacklog ∧
    (tcpRecv io p caller len).pcb.rcvNxt = p.rcvNxt ∧
    (((tcpRecv io p caller len).pcb.toReceiver = p.toReceiver ∧ (tcpRecv io p caller len).io = io ∧
        ∀ data, (tcpRecv io p caller len).result ≠ .bytes data) ∨
      ∃ count, count ≤ p.rcvBuf.used ∧ 1 ≤ count ∧ count ≤ len ∧
        (tcpRecv io p caller len).pcb.rcvBuf = (p.rcvBuf.take count).2 ∧
        (tcpRecv io p caller len).pcb.rcvWnd = u32 (p.rcvWnd+count) ∧
        (tcpRecv io p caller len).io = sendAck io (tcpRecv io p caller len).pcb ∧
        (tcpRecv io p caller len).result = .bytes (p.rcvBuf.take count).1) := by
  have hq := stopWaitRecv_waitersOnly p caller.thread
  unfold tcpRecv
  split
  · exact ⟨⟨rfl,rfl,rfl⟩,rfl,rfl,rfl,rfl,.inl ⟨rfl,rfl,nofun⟩⟩
  rename_i hlen
  dsimp only
  generalize stopWaitRecv p caller.thread = q at hq ⊢
  have hn : q.rcvNxt = p.rcvNxt := by rw [hq.receiver]
  split
  · exact ⟨⟨rfl,rfl,rfl⟩,hq.control,hq.sender,hq.backlog,hn,.inl ⟨hq.receiver,rfl,nofun⟩⟩
  split
  · rename_i hu
    refine ⟨⟨rfl,rfl,rfl⟩,hq.control,hq.sender,hq.backlog,hn,.inr ?_⟩
    dsimp only [Outcome.keep]
    rw [hq.receiver] at hu ⊢
    refine ⟨if len < p.rcvBuf.used then len else p.rcvBuf.used,?_,?_,?_,rfl,rfl,rfl,rfl⟩
    all_goals split <;> omega
  split
  · exact ⟨⟨rfl,rfl,rfl⟩,hq.control,hq.sender,hq.backlog,hn,.inl ⟨hq.receiver,rfl,nofun⟩⟩
  split
  · exact ⟨⟨rfl,rfl,rfl⟩,hq.control,hq.sender,hq.backlog,hn,.inl ⟨hq.receiver,rfl,nofun⟩⟩
  split
  all_goals exact ⟨⟨rfl,rfl,rfl⟩,hq.control,hq.sender,hq.backlog,hn,.inl ⟨hq.receiver,rfl,nofun⟩⟩

end Rucux.Net
