import Rucux.Net.Tcp.Header
import Rucux.Lib.LinkedCells
import Rucux.Lib.RingBuffer

/-! Protocol control blocks and the helpers of `tcp.cpp` that work on one of them. -/

namespace Rucux.Net
open Lib

inductive TcpState where
  | closed | listen | synSent | synReceived | established | finWait1 | finWait2
  | closeWait | closing | lastAck | timeWait
  deriving DecidableEq, Repr

/-- State, endpoints and lifetime. `addr` is the address of the PCB itself. -/
structure Control where
  addr : Nat
  state : TcpState
  detached : Bool
  error : Int
  expires : Nat
  localIp : BitVec 32
  localPort : BitVec 16
  remoteIp : BitVec 32
  remotePort : BitVec 16
  listener : Option Nat

/-- Send sequence, retained segments, congestion control, RTT and persist timer. -/
structure Sender where
  iss : BitVec 32
  sndUna : BitVec 32
  sndNxt : BitVec 32
  sndWnd : Nat
  unacked : LinkedQueue Segment
  unackedCount : Nat
  retries : Nat
  retransmitAt : Nat
  sendMss : Nat
  cwnd : Nat
  ssthresh : Nat
  congestionCredit : Nat
  srtt : Nat
  rttvar : Nat
  rto : Nat
  lastDataSent : Nat
  rttPending : Bool
  rttBlocked : Bool
  rttStarted : Nat
  rttEnd : BitVec 32
  rttBlockUntil : BitVec 32
  persistAt : Nat
  persistExpires : Nat
  persistDelay : Nat
  finPending : Bool

structure Receiver where
  rcvNxt : BitVec 32
  rcvWnd : Nat
  rcvBuf : RingBuffer UInt8

/-- The accept queue is the chain from `accept_queue` along `next_accept`. -/
structure Backlog where
  acceptQueue : LinkedQueue Unit
  backlog : Int
  pendingCount : Int

structure Waiters where
  waitConnect : Option Nat
  waitAccept : Option Nat
  waitRecv : Option Nat
  waitSend : Option Nat

structure Pcb extends Control, Sender, Receiver, Backlog, Waiters

structure Packet where
  owner : Nat
  seg : Segment
  deriving DecidableEq, Repr

structure Io where
  ticks : Nat
  mem : List (Option Nat)
  output : List Packet

/-- Allocation answers are inputs: `none` is a failed allocation, and a block that
is handed out is neither null nor one of those still in use. -/
def Io.kmalloc (io : Io) (live : List Nat) : Option Nat × Io :=
  match io.mem with
  | [] => (none,io)
  | answer :: rest => (answer.filter (fun a => a ≠ 0 ∧ a ∉ live),{ io with mem := rest })

def Io.enqueueOutput (io : Io) (owner : Nat) (seg : Segment) : Io :=
  { io with output := io.output ++ [⟨owner,seg⟩] }

def tcpBufSize : Nat := 32768
def maxPcbs : Nat := 128
def maxDataSegments : Nat := 8
def maxRetries : Nat := 4
def initialRto : Nat := 1000
def maxRto : Nat := 60000
def maxPersistDelay : Nat := 4000
def persistSilenceLimit : Nat := 15000

def u32 (n : Nat) : Nat := n % 2^32

def Pcb.zero (addr : Nat) : Pcb where
  addr := addr
  state := .closed
  detached := false
  error := 0
  expires := 0
  localIp := 0
  localPort := 0
  remoteIp := 0
  remotePort := 0
  listener := none
  iss := 0
  sndUna := 0
  sndNxt := 0
  sndWnd := 0
  unacked := .empty
  unackedCount := 0
  retries := 0
  retransmitAt := 0
  sendMss := 0
  cwnd := 0
  ssthresh := 0
  congestionCredit := 0
  srtt := 0
  rttvar := 0
  rto := 0
  lastDataSent := 0
  rttPending := false
  rttBlocked := false
  rttStarted := 0
  rttEnd := 0
  rttBlockUntil := 0
  persistAt := 0
  persistExpires := 0
  persistDelay := 0
  finPending := false
  rcvNxt := 0
  rcvWnd := 0
  rcvBuf := ⟨fun _ => 0,0,0,0⟩
  acceptQueue := .empty
  backlog := 0
  pendingCount := 0
  waitConnect := none
  waitAccept := none
  waitRecv := none
  waitSend := none

def Pcb.fresh (addr : Nat) : Pcb :=
  { Pcb.zero addr with
    sendMss := defaultMss, cwnd := defaultMss
    ssthresh := maxDataSegments*defaultMss, rto := initialRto
    rcvWnd := tcpBufSize-1, rcvBuf := ⟨fun _ => 0,tcpBufSize,0,0⟩ }

/-- A retransmission keeps sequence and payload up to `limit` and carries the
current acknowledgement and window. A truncated copy loses its FIN. -/
def segmentCopy (p : Pcb) (original : Segment) (limit : Nat) : Segment :=
  let flags := if limit < original.payload.length then original.flags &&& (0xFF ^^^ tcpFin)
    else original.flags
  { original with
    srcIp := p.localIp, dstIp := p.remoteIp, flags := flags
    ack := if has flags tcpAck then p.rcvNxt else original.ack
    window := BitVec.ofNat 16 p.rcvWnd
    payload := original.payload.take limit }

def copySegment (io : Io) (p : Pcb) (original : Segment) (limit : Nat) : Option Segment × Io :=
  match io.kmalloc [] with
  | (none,io) => (none,io)
  | (some _,io) => (some (segmentCopy p original limit),io)

def retransmitHead (io : Io) (p : Pcb) (limit : Nat) : Io :=
  match p.unacked.nodes with
  | [] => io
  | (_,head) :: _ =>
    match copySegment io p head limit with
    | (none,io) => io
    | (some retry,io) => io.enqueueOutput p.addr retry

def clearUnacked (p : Pcb) : Pcb :=
  { p with
    unacked := .empty, unackedCount := 0, retransmitAt := 0, retries := 0
    rttPending := false, rttBlocked := false
    persistAt := 0, persistExpires := 0, finPending := false }

def invalidateRtt (p : Pcb) : Pcb :=
  { p with
    rttPending := false, rttBlocked := p.sndUna != p.sndNxt, rttBlockUntil := p.sndNxt }

def sampleRtt (p : Pcb) (now : Nat) : Pcb :=
  let elapsed := if now-p.rttStarted = 0 then 1 else now-p.rttStarted
  let sample := if elapsed > maxRto then maxRto else elapsed
  let delta := if p.srtt > sample then p.srtt-sample else sample-p.srtt
  let rttvar := if p.srtt = 0 then sample / 2 else u32 (u32 (3*p.rttvar)+delta) / 4
  let srtt := if p.srtt = 0 then sample else u32 (u32 (7*p.srtt)+sample) / 8
  let variance := u32 (4*rttvar)
  let rto := srtt+(if variance > 100 then variance else 100)
  let rto := if rto < initialRto then initialRto else rto
  { p with
    srtt := srtt, rttvar := rttvar
    rto := if rto > maxRto then maxRto else rto, rttPending := false }

def updateRtt (p : Pcb) (ack : BitVec 32) (now : Nat) : Pcb :=
  let p := if p.rttPending && 0 ≤ (ack - p.rttEnd).toInt then sampleRtt p now else p
  if p.rttBlocked && 0 ≤ (ack - p.rttBlockUntil).toInt then { p with rttBlocked := false } else p

/-- One MSS of credit for each acknowledgement, one MSS for each window of them. -/
def creditWindow (p : Pcb) (bytes : Nat) : Pcb :=
  if p.cwnd < p.ssthresh then { p with cwnd := u32 (p.cwnd+bytes) }
  else
    let credit := u32 (p.congestionCredit+bytes)
    if credit ≥ p.cwnd then
      { p with congestionCredit := credit-p.cwnd, cwnd := u32 (p.cwnd+p.sendMss) }
    else { p with congestionCredit := credit }

def capWindow (p : Pcb) : Pcb :=
  if p.cwnd > u32 (maxDataSegments*p.sendMss) then
    { p with cwnd := u32 (maxDataSegments*p.sendMss) }
  else p

def growCongestionWindow (p : Pcb) (bytes : Nat) : Pcb :=
  if bytes = 0 then p
  else capWindow (creditWindow p (if bytes > p.sendMss then p.sendMss else bytes))

def startPersist (p : Pcb) (now : Nat) : Pcb :=
  let q := if p.persistAt = 0 then
    invalidateRtt { p with persistDelay := initialRto, persistAt := now+initialRto } else p
  { q with persistExpires := now+persistSilenceLimit }

def updateWindow (io : Io) (p : Pcb) (window : Nat) : Pcb × Io :=
  if window = 0 then (startPersist { p with sndWnd := window } io.ticks,io)
  else
    let q := { p with sndWnd := window, persistAt := 0, persistExpires := 0 }
    if p.sndWnd = 0 ∧ p.unacked.nodes ≠ [] then
      ({ q with retransmitAt := io.ticks+q.rto },
        retransmitHead io q (if window < q.sendMss then window else q.sendMss))
    else (q,io)

/-- The loop of `acknowledge`: free what `ack` covers, cut the covered front off the next segment.
Returns the nodes left, the data acknowledged and the count left. -/
def acknowledgeLoop (ack : BitVec 32) :
    List (Nat × Segment) → Nat → Nat → List (Nat × Segment) × Nat × Nat
  | [], data, count => ([],data,count)
  | (a,seg) :: rest, data, count =>
    let covered := (ack - seg.seq).toNat
    let data :=
      if !seg.syn && 0 < (ack - seg.seq).toInt then
        u32 (data+(if covered < seg.payload.length then covered else seg.payload.length))
      else data
    if 0 ≤ (ack - (seg.seq + BitVec.ofNat 32 seg.span)).toInt then
      acknowledgeLoop ack rest data (count-1)
    else if 0 < (ack - seg.seq).toInt && !seg.syn && covered ≤ seg.payload.length then
      ((a,{ seg with payload := seg.payload.drop covered, seq := ack }) :: rest,data,count)
    else ((a,seg) :: rest,data,count)

/-- `snd_una` and the queue after the loop; the tail goes with the last node. -/
def dropAcked (p : Pcb) (ack : BitVec 32) : Pcb :=
  let left := acknowledgeLoop ack p.unacked.nodes 0 p.unackedCount
  { p with
    sndUna := ack
    unacked := ⟨left.1,if left.1.isEmpty then none else p.unacked.tail⟩
    unackedCount := left.2.2 }

def rearm (p : Pcb) (now : Nat) : Pcb :=
  { p with retries := 0, retransmitAt := if p.unacked.nodes.isEmpty then 0 else now+p.rto }

def acknowledge (now : Nat) (p : Pcb) (ack : BitVec 32) : Pcb :=
  if (ack - p.sndUna).toInt ≤ 0 then p
  else
    let data := (acknowledgeLoop ack p.unacked.nodes 0 p.unackedCount).2.1
    rearm (growCongestionWindow (dropAcked (updateRtt p ack now) ack) data) now

def makeSegment (p : Pcb) (flags : BitVec 8) (data : List UInt8) (probe : Bool) : Segment where
  srcIp := p.localIp
  dstIp := p.remoteIp
  srcPort := p.localPort
  dstPort := p.remotePort
  seq := if probe then p.sndUna - 1 else p.sndNxt
  ack := if has flags tcpAck then p.rcvNxt else 0
  flags := flags
  window := BitVec.ofNat 16 p.rcvWnd
  mss := if has flags tcpSyn then localMss else defaultMss
  payload := data

structure Sent where
  ok : Bool
  pcb : Pcb
  io : Io

/-- The clock of a retransmission starts with the first segment retained. -/
def startRetransmit (p : Pcb) (now : Nat) : Pcb :=
  if p.unacked.tail.isSome then p else { p with retransmitAt := now+p.rto, retries := 0 }

def startRtt (p : Pcb) (now : Nat) : Pcb :=
  if !p.rttPending && !p.rttBlocked then
    { p with rttPending := true, rttStarted := now, rttEnd := p.sndNxt }
  else p

/-- Link a reliable segment behind the retained ones and account for it. -/
def linkSegment (p : Pcb) (addr : Nat) (seg : Segment) : Pcb :=
  { p with
    unacked := p.unacked.push addr seg, unackedCount := p.unackedCount+1
    sndNxt := p.sndNxt + BitVec.ofNat 32 seg.span }

def retain (p : Pcb) (now addr : Nat) (seg : Segment) : Pcb :=
  startRtt (linkSegment (startRetransmit p now) addr seg) now

def reliable (flags : BitVec 8) (data : List UInt8) : Bool :=
  !data.isEmpty || has flags (tcpSyn ||| tcpFin)

/-- `netbuf::put` fits 1920 bytes behind the headroom. A reliable segment is kept
and a copy sent; any other is sent as it is and leaves the PCB unchanged. -/
def sendSegment (io : Io) (p : Pcb) (flags : BitVec 8) (data : List UInt8) (probe : Bool) : Sent :=
  if reliable flags data && p.unackedCount ≥ maxDataSegments+(has flags tcpFin).toNat then
    ⟨false,p,io⟩
  else
    match io.kmalloc p.unacked.addrs with
    | (none,io) => ⟨false,p,io⟩
    | (some addr,io) =>
      if data.length > 1920 then ⟨false,p,io⟩
      else
        let seg := makeSegment p flags data probe
        if reliable flags data then
          match copySegment io p seg localMss with
          | (none,io) => ⟨false,p,io⟩
          | (some wire,io) => ⟨true,retain p io.ticks addr seg,io.enqueueOutput p.addr wire⟩
        else ⟨true,p,io.enqueueOutput p.addr seg⟩

def sendAck (io : Io) (p : Pcb) : Io := (sendSegment io p tcpAck [] false).io

def finSentNow (p : Pcb) : Pcb := { p with finPending := false }

def sendPendingFin (io : Io) (p : Pcb) : Pcb × Io :=
  let flight := (p.sndNxt - p.sndUna).toNat
  if p.finPending && flight < p.sndWnd && flight < p.cwnd then
    let sent := sendSegment io p (tcpFin ||| tcpAck) [] false
    (if sent.ok then finSentNow sent.pcb else sent.pcb,sent.io)
  else (p,io)

def setMss (p : Pcb) (mss : Nat) : Pcb :=
  { p with
    sendMss := mss, cwnd := mss, ssthresh := u32 (maxDataSegments*mss), congestionCredit := 0 }

def wakeConnect (p : Pcb) : Pcb := { p with waitConnect := none }
def wakeAccept (p : Pcb) : Pcb := { p with waitAccept := none }
def wakeRecv (p : Pcb) : Pcb := { p with waitRecv := none }
def wakeSend (p : Pcb) : Pcb := { p with waitSend := none }

def resetLocked (p : Pcb) : Pcb :=
  wakeSend (wakeRecv (wakeConnect { clearUnacked p with state := .closed, error := -104 }))

end Rucux.Net
