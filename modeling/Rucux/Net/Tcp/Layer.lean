import Rucux.Net.Tcp.Ops
import Rucux.Lib.Machine

/-! The TCP layer: the list of PCBs, the port and sequence counters and the sections of the lock that work on them.
An event is one such section together with everything it reads from outside. The application calls with PCBs that it
holds, which is what `held` checks. -/

namespace Rucux.Net
open Lib

structure Ran where
  now : Nat
  op : Op
  result : Result
  stored : List UInt8
  completed : Bool
  state : TcpState
  emitted : List Segment

def Op.ran (io : Io) (op : Op) (o : Outcome) : Ran :=
  ⟨io.ticks,op,o.result,o.stored,o.completed,o.pcb.state, (o.io.output.drop io.output.length).map (·.seg)⟩

inductive Entry where
  | born (addr : Nat)
  | ran (addr : Nat) (r : Ran)

/-- `io.output` keeps every packet that was ever queued. `log` says what was done to which PCB, and
nothing reads it. -/
structure Tcp where
  pcbs : List Pcb
  nextEphemeral : BitVec 16
  tcpIsn : BitVec 32
  count : Nat
  io : Io
  log : List Entry

namespace Tcp

def init : Tcp := ⟨[],49152,1000,0,⟨0,[],[]⟩,[]⟩

def addrs (s : Tcp) : List Nat := s.pcbs.map (·.addr)

def find (s : Tcp) (a : Nat) : Option Pcb := s.pcbs.find? (·.addr = a)

def update (s : Tcp) (a : Nat) (f : Pcb → Pcb) : Tcp :=
  { s with pcbs := s.pcbs.map fun p => if p.addr = a then f p else p }

def remove (s : Tcp) (a : Nat) : Tcp :=
  { s with
    pcbs := s.pcbs.filter (·.addr ≠ a)
    count := if a ∈ s.addrs then s.count-1 else s.count }

/-- A new PCB at the head of the list; the second block is its receive buffer. -/
def newLocked (s : Tcp) : Option Nat × Tcp :=
  if s.count ≥ maxPcbs then (none,s)
  else
    match s.io.kmalloc s.addrs with
    | (none,io) => (none,{ s with io := io })
    | (some a,io) =>
      match io.kmalloc [] with
      | (none,io) => (none,{ s with io := io })
      | (some _,io) =>
        (some a,{ s with
          pcbs := Pcb.fresh a :: s.pcbs, count := s.count+1, io := io
          log := s.log ++ [.born a] })

def dropChild (a : Nat) (l : Pcb) : Pcb :=
  { l with acceptQueue := l.acceptQueue.unlink a, pendingCount := l.pendingCount-1 }

def freeLocked (s : Tcp) (p : Pcb) : Tcp :=
  match p.listener with
  | none => s.remove p.addr
  | some l => (s.update l (dropChild p.addr)).remove p.addr

def queueChild (a : Nat) (l : Pcb) : Pcb :=
  wakeAccept { l with acceptQueue := l.acceptQueue.push a () }

/-- Put back what an operation made of its PCB, and do the listener's part. -/
def commit (s : Tcp) (op : Op) (o : Outcome) : Tcp :=
  let done := { s.update o.pcb.addr (fun _ => o.pcb) with
    io := o.io
    log := s.log ++ [.ran o.pcb.addr (op.ran s.io o)] }
  if o.freed then done.freeLocked o.pcb
  else if o.completed then
    match o.pcb.listener with
    | none => done
    | some l => done.update l (queueChild o.pcb.addr)
  else done

def runOn (s : Tcp) (p : Pcb) (op : Op) : Tcp × Result :=
  let o := op.run s.io p
  (s.commit op o,o.result)

def findPcb (pcbs : List Pcb) (ip : BitVec 32) (port : BitVec 16) (remote : BitVec 32)
    (remotePort : BitVec 16) : Option Pcb :=
  (pcbs.find? fun p => p.state ≠ .closed ∧ p.state ≠ .listen ∧ p.localPort = port ∧
      p.remotePort = remotePort ∧ p.remoteIp = remote ∧ (p.localIp = 0 ∨ p.localIp = ip)).or
    (pcbs.find? fun p => p.state = .listen ∧ p.localPort = port ∧ (p.localIp = 0 ∨ p.localIp = ip))

def replyPcb (seg : Segment) : Pcb :=
  { Pcb.zero 0 with
    localIp := seg.dstIp, remoteIp := seg.srcIp
    localPort := seg.dstPort, remotePort := seg.srcPort
    sndNxt := if seg.hasAck then seg.ack else 0
    rcvNxt := seg.seq + BitVec.ofNat 32 seg.span }

def rejectSegment (s : Tcp) (seg : Segment) : Tcp :=
  if seg.rst then s
  else { s with
    io := (sendSegment s.io (replyPcb seg) (tcpRst ||| (if seg.hasAck then 0 else tcpAck)) [] false).io }

def nextIss (s : Tcp) : BitVec 32 := s.tcpIsn + 65536

def addPending (l : Pcb) : Pcb := { l with pendingCount := l.pendingCount+1 }

/-- A SYN makes a child while the backlog has room, which counts handshakes too. -/
def listenInput (s : Tcp) (l : Pcb) (seg : Segment) : Tcp :=
  if seg.flags &&& (tcpSyn ||| tcpAck ||| tcpFin) = tcpSyn ∧ l.pendingCount < l.backlog then
    match s.newLocked with
    | (none,s) => s
    | (some a,s) =>
      let sent := sendSegment s.io (synChild s.io.ticks a l.addr s.nextIss seg)
        (tcpSyn ||| tcpAck) [] false
      let s := { (s.update a fun _ => sent.pcb).update l.addr addPending with
        tcpIsn := s.nextIss, io := sent.io }
      if sent.ok then s else s.freeLocked sent.pcb
  else s

def segmentInput (s : Tcp) (seg : Segment) : Tcp :=
  match findPcb s.pcbs seg.dstIp seg.dstPort seg.srcIp seg.srcPort with
  | none => s.rejectSegment seg
  | some p =>
    if p.state = .listen ∧ seg.rst = false then s.listenInput p seg
    else (s.runOn p (.input seg)).1

def tcpInput (s : Tcp) (src dst : BitVec 32) (bytes : List UInt8) : Tcp :=
  match tcpParse src dst bytes with
  | none => s
  | some seg => s.segmentInput seg

def portUsed (s : Tcp) (self : Nat) (ip : BitVec 32) (port : BitVec 16) : Bool :=
  s.pcbs.any fun p => p.addr ≠ self ∧ p.localPort = port ∧ (ip = 0 ∨ p.localIp = 0 ∨ p.localIp = ip)

def ephemeralPort (s : Tcp) (self : Nat) (ip : BitVec 32) : Nat → BitVec 16 → BitVec 16 × BitVec 16
  | 0, next => (0,next)
  | rounds+1, next =>
    let port := htons next
    let next := if (next + 1).toNat < 49152 then 49152 else next + 1
    if s.portUsed self ip port then ephemeralPort s self ip rounds next else (port,next)

def bindLocked (s : Tcp) (p : Pcb) (ip : BitVec 32) (port : BitVec 16) : Tcp × Int :=
  if p.state ≠ .closed ∨ p.localPort ≠ 0 then (s,-22)
  else
    let choice := if port = 0 then s.ephemeralPort p.addr ip 16384 s.nextEphemeral
      else (port,s.nextEphemeral)
    let s := { s with nextEphemeral := choice.2 }
    if choice.1 = 0 ∨ s.portUsed p.addr ip choice.1 then (s,-98)
    else ((s.runOn p (.bind ip choice.1)).1,0)

def tcpBind (s : Tcp) (p : Pcb) (ip : BitVec 32) (port : BitVec 16) : Tcp × Result :=
  let b := s.bindLocked p ip port
  (b.1,.code b.2)

/-- The interface addresses that `netif_loopback` and `netif_default` answer with. -/
structure Interfaces where
  loopback : Option (BitVec 32)
  default : Option (BitVec 32)

def Interfaces.route (ifs : Interfaces) (addr : BitVec 32) : Option (BitVec 32) :=
  if addr = 0x0100007F then ifs.loopback else ifs.default

def tcpConnect (s : Tcp) (ifs : Interfaces) (p : Pcb) (addr : BitVec 32) (port : BitVec 16) :
    Tcp × Result :=
  if p.state ≠ .closed ∨ addr = 0 ∨ port = 0 then (s,.code (-22))
  else
    match ifs.route addr with
    | none => (s,.code (-101))
    | some ifaceIp =>
      let b := if p.localPort = 0 then s.bindLocked p p.localIp 0 else (s,0)
      if b.2 ≠ 0 then (b.1,.code b.2)
      else
        match b.1.find p.addr with
        | none => (b.1,.unit)
        | some p =>
          { b.1 with tcpIsn := b.1.nextIss }.runOn p (.connect ifaceIp addr port b.1.nextIss)

def stopWaitAccept (p : Pcb) (thread : Option Nat) : Pcb :=
  if p.waitAccept = thread then { p with waitAccept := none } else p

def takeChild (l : Pcb) : Pcb :=
  { l with acceptQueue := l.acceptQueue.pop, pendingCount := l.pendingCount-1 }

def tcpAccept (s : Tcp) (l : Pcb) (caller : Caller) : Tcp × Result :=
  let l := stopWaitAccept l caller.thread
  let s := s.update l.addr fun _ => l
  if caller.thread.isSome && caller.fatal then (s,.pcb none)
  else if l.state ≠ .listen then (s,.pcb none)
  else
    match l.acceptQueue.nodes with
    | (a,_) :: _ =>
      let s := s.update l.addr takeChild
      match s.find a with
      | none => (s,.pcb (some a))
      | some child => ((s.runOn child .accept).1,.pcb (some a))
    | [] =>
      if l.waitAccept.isSome && l.waitAccept ≠ caller.thread then (s,.pcb none)
      else if caller.thread.isNone || !caller.mayWait then (s,.pcb none)
      else (s.update l.addr fun l => { l with waitAccept := caller.thread },.blocked)

def freeChild (l : Nat) (s : Tcp) (a : Nat) : Tcp :=
  match s.find a with
  | none => s
  | some child => if child.listener = some l then s.freeLocked child else s

/-- The loop of `tcp_close` over the list, freeing the children of a listener. -/
def freeChildren (s : Tcp) (l : Nat) : Tcp := s.addrs.foldl (freeChild l) s

def tcpClose (s : Tcp) (p : Pcb) : Tcp × Result :=
  let s := if p.state = .listen then s.freeChildren p.addr else s
  match s.find p.addr with
  | none => (s,.unit)
  | some p => s.runOn p .close

def tickAt (now : Nat) (s : Tcp) (a : Nat) : Tcp :=
  match s.find a with
  | none => s
  | some p => (s.runOn p (.tick now)).1

/-- The timer goes over the PCBs that are on the list when it starts; a step frees
at most the PCB it is for. -/
def tcpTick (s : Tcp) (now : Nat) : Tcp := s.addrs.foldl (tickAt now) s

inductive Call where
  | new
  | bind (ip : BitVec 32) (port : BitVec 16)
  | listen (backlog : Int)
  | connect (addr : BitVec 32) (port : BitVec 16)
  | connectWait (caller : Caller)
  | accept (caller : Caller)
  | send (data : List UInt8)
  | recv (caller : Caller) (len : Nat)
  | close
  | input (src dst : BitVec 32) (bytes : List UInt8)
  | tick (now : Nat)

/-- `pcb` is the PCB the application passes; the other calls have none. -/
structure Event where
  ticks : Nat
  mem : List (Option Nat)
  ifs : Interfaces
  pcb : Nat
  call : Call

def held (s : Tcp) (a : Nat) : Option Pcb :=
  (s.find a).filter fun p => !p.detached && p.listener.isNone

def onHeld (s : Tcp) (a : Nat) (f : Pcb → Tcp × Result) : Tcp × Result :=
  match s.held a with
  | none => (s,.unit)
  | some p => f p

def enter (s : Tcp) (e : Event) : Tcp :=
  { s with io := { s.io with ticks := e.ticks, mem := e.mem } }

def dispatch (s : Tcp) (e : Event) : Tcp × Result :=
  match e.call with
  | .new => (s.newLocked.2,.pcb s.newLocked.1)
  | .bind ip port => s.onHeld e.pcb fun p => s.tcpBind p ip port
  | .listen backlog => s.onHeld e.pcb fun p => s.runOn p (.listen backlog)
  | .connect addr port => s.onHeld e.pcb fun p => s.tcpConnect e.ifs p addr port
  | .connectWait caller => s.onHeld e.pcb fun p => s.runOn p (.connectWait caller)
  | .accept caller => s.onHeld e.pcb fun l => s.tcpAccept l caller
  | .send data => s.onHeld e.pcb fun p => s.runOn p (.send data)
  | .recv caller len => s.onHeld e.pcb fun p => s.runOn p (.recv caller len)
  | .close => s.onHeld e.pcb fun p => s.tcpClose p
  | .input src dst bytes => (s.tcpInput src dst bytes,.unit)
  | .tick now => (s.tcpTick now,.unit)

def step (s : Tcp) (e : Event) : Tcp := ((s.enter e).dispatch e).1

def result (s : Tcp) (e : Event) : Result := ((s.enter e).dispatch e).2

def machine : Machine Tcp Event := ⟨init,step⟩

def arrival (ticks : Nat) (mem : List (Option Nat)) (seg : Segment) : Event :=
  ⟨ticks,mem,⟨none,none⟩,0,.input seg.srcIp seg.dstIp (segmentBytes seg)⟩

def dialling : List Event :=
  [⟨0,[some 1,some 2],⟨none,none⟩,0,.new⟩,
    ⟨1,[some 3,some 4],⟨none,some 0x0A000002⟩,1,.connect 0x0A000001 80⟩]

def fromServer (seq ack : BitVec 32) (flags : BitVec 8) (payload : List UInt8) : Segment :=
  ⟨0x0A000001,0x0A000002,80,0x00C0,seq,ack,flags,1000,536,payload⟩

def fromClient (seq ack : BitVec 32) (flags : BitVec 8) (payload : List UInt8) : Segment :=
  ⟨0x0A000009,0x0A000002,1234,80,seq,ack,flags,1000,if has flags tcpSyn then 1460 else 536,payload⟩

/-- A server on port 80 whose first connection, the PCB 3, has just been accepted. -/
def served : List Event :=
  [⟨0,[some 1,some 2],⟨none,none⟩,0,.new⟩, ⟨1,[],⟨none,none⟩,1,.bind 0 80⟩,
    ⟨2,[],⟨none,none⟩,1,.listen 4⟩,
    arrival 3 [some 3,some 4,some 5,some 6] (fromClient 100 0 tcpSyn []),
    arrival 4 [] (fromClient 101 66537 tcpAck []),
    ⟨5,[],⟨none,none⟩,1,.accept ⟨some 1,false,true⟩⟩]

end Tcp

/-- The life of a PCB so far. `sent` and `emitted` are those of its present
connection; `carried` and `received` are what was stored and returned since its
last `tcp_connect`. -/
structure History where
  sent : List UInt8
  stored : List UInt8
  returned : List UInt8
  carried : List UInt8
  received : List UInt8
  closedAt : Option Nat
  lingerAt : Option Nat
  emitted : List Segment

def History.empty : History := ⟨[],[],[],[],[],none,none,[]⟩

def Op.isClose : Op → Bool
  | .close => true
  | _ => false

def History.after (h : History) (r : Ran) : History where
  sent := r.op.sentAfter h.sent r.result
  stored := h.stored ++ r.stored
  returned := h.returned ++ r.op.returnedBytes r.result
  carried := if r.op.isConnect then [] else h.carried ++ r.stored
  received := if r.op.isConnect then [] else h.received ++ r.op.returnedBytes r.result
  closedAt := if r.op.isClose then some r.now else h.closedAt
  lingerAt := if r.state = .timeWait then h.lingerAt.or (some r.now) else h.lingerAt
  emitted := if r.op.isConnect then r.emitted else h.emitted ++ r.emitted

def Entry.addr : Entry → Nat
  | .born a => a
  | .ran a _ => a

def History.note (a : Nat) (h : History) : Entry → History
  | .born b => if b = a then .empty else h
  | .ran b r => if b = a then h.after r else h

def history (log : List Entry) (a : Nat) : History := log.foldl (History.note a) .empty

def completions (log : List Entry) : List Nat :=
  log.foldl (fun done e =>
    match e with
    | .born a => done.filter (· ≠ a)
    | .ran a r => if r.completed then done ++ [a] else done) []

end Rucux.Net
