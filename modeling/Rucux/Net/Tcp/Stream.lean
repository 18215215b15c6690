import Rucux.Net.Tcp.Following
import Rucux.Net.Tcp.Sending
import Rucux.Net.Tcp.Wire

/-! Two PCBs and the network between them. One side has called `tcp_connect`, the other is the child that the SYN
makes for a listener. Each event is one section of the TCP lock on one of the two hosts. The network may deliver any
segment that either side has enqueued, any number of times and in any order, or not at all; a reset may come from
anywhere. -/

namespace Rucux.Net
open Lib Function List Option

namespace Stream

inductive Side where
  | active | passive
  deriving DecidableEq

def Side.other : Side → Side
  | .active => .passive
  | .passive => .active

/-- One end of the connection. `sent`, `returned` and `emitted` are what `tcp_send` accepted, what
`tcp_recv` returned and what was put on the output queue. -/
structure Endpoint where
  pcb : Option Pcb
  listener : Option Pcb
  opened : Bool
  completed : Bool
  iss : BitVec 32
  sent : List UInt8
  returned : List UInt8
  emitted : List Segment

namespace Endpoint

def after (e : Endpoint) (io : Io) (op : Op) (o : Outcome) : Endpoint :=
  { e with
    pcb := if o.freed then none else some o.pcb
    completed := e.completed || o.completed
    sent := op.sentAfter e.sent o.result
    returned := e.returned ++ op.returnedBytes o.result
    emitted := e.emitted ++ (op.ran io o).emitted }

/-- The calls are made with a PCB that the application holds, and `tcp_accept` finds the
child on the queue. Segments come from the network. -/
def permits (e : Endpoint) (p : Pcb) : Op → Bool
  | .connectWait _ | .send _ | .recv _ _ | .close => !p.detached && p.listener.isNone
  | .accept => e.completed && p.listener.isSome
  | .tick _ => true
  | .bind _ _ | .listen _ | .connect _ _ _ _ | .input _ => false

def call (e : Endpoint) (io : Io) (op : Op) : Endpoint × Result :=
  match e.pcb with
  | none => (e,.unit)
  | some p =>
    if e.permits p op then (e.after io op (op.run io p),(op.run io p).result) else (e,.unit)

/-- The listener makes its child as `Tcp.listenInput` does. Only the first child counts: a later one is
the end of another connection. -/
def passiveOpen (e : Endpoint) (io : Io) (iss : BitVec 32) (l : Pcb) (seg : Segment) : Endpoint :=
  if seg.flags &&& (tcpSyn ||| tcpAck ||| tcpFin) = tcpSyn ∧ l.pendingCount < l.backlog ∧
      e.opened = false then
    match io.kmalloc [l.addr] with
    | (none,_) => e
    | (some a,io) =>
      match io.kmalloc [] with
      | (none,_) => e
      | (some _,io) =>
        let sent := sendSegment io (synChild io.ticks a l.addr iss seg) (tcpSyn ||| tcpAck) [] false
        if sent.ok then
          { e with
            pcb := some sent.pcb, opened := true, iss := iss
            emitted := e.emitted ++ sent.io.output.map (·.seg) }
        else e
  else e

def input (e : Endpoint) (io : Io) (iss : BitVec 32) (seg : Segment) : Endpoint :=
  match Tcp.findPcb e.pcb.toList seg.dstIp seg.dstPort seg.srcIp seg.srcPort with
  | some p => e.after io (.input seg) ((Op.input seg).run io p)
  | none =>
    match Tcp.findPcb e.listener.toList seg.dstIp seg.dstPort seg.srcIp seg.srcPort with
    | some l => if seg.rst then e else e.passiveOpen io iss l seg
    | none => e

end Endpoint

/-- `deliver n` hands over the segment that the other side enqueued as its `n`th. -/
inductive Act where
  | call (op : Op)
  | deliver (n : Nat)
  | reset (src dst : BitVec 32) (bytes : List UInt8)

/-- `iss` is the number a child gets if this event makes one. -/
structure Event where
  side : Side
  ticks : Nat
  mem : List (Option Nat)
  iss : BitVec 32
  act : Act

def Endpoint.act (e peer : Endpoint) (ev : Event) : Endpoint × Result :=
  let io : Io := ⟨ev.ticks,ev.mem,[]⟩
  match ev.act with
  | .call op => e.call io op
  | .deliver n =>
    match peer.emitted[n]?.bind fun seg => tcpParse seg.srcIp seg.dstIp (segmentBytes seg) with
    | none => (e,.unit)
    | some seg => (e.input io ev.iss seg,.unit)
  | .reset src dst bytes =>
    match (tcpParse src dst bytes).filter (·.rst) with
    | none => (e,.unit)
    | some seg => (e.input io ev.iss seg,.unit)

structure Setup where
  client : Nat
  clientIp : BitVec 32
  clientPort : BitVec 16
  ifaceIp : BitVec 32
  iss : BitVec 32
  ticks : Nat
  mem : List (Option Nat)
  server : Nat
  serverIp : BitVec 32
  serverPort : BitVec 16
  remoteIp : BitVec 32
  backlog : Int

def Setup.caller (u : Setup) : Pcb :=
  { Pcb.fresh u.client with localIp := u.clientIp, localPort := u.clientPort }

def Setup.dialled (u : Setup) : Endpoint :=
  let o := connectPcb ⟨u.ticks,u.mem,[]⟩ u.caller u.ifaceIp u.remoteIp u.serverPort u.iss
  ⟨some o.pcb,none,true,false,u.iss,[],[],o.io.output.map (·.seg)⟩

def Setup.listening (u : Setup) : Endpoint :=
  ⟨none,some { Pcb.fresh u.server with
    state := .listen, localIp := u.serverIp, localPort := u.serverPort, backlog := u.backlog },
    false,false,0,[],[],[]⟩

def Setup.initial (u : Setup) : Side → Endpoint
  | .active => u.dialled
  | .passive => u.listening

def step (s : Side → Endpoint) (ev : Event) : Side → Endpoint :=
  update s ev.side ((s ev.side).act (s ev.side.other) ev).1

def result (s : Side → Endpoint) (ev : Event) : Result :=
  ((s ev.side).act (s ev.side.other) ev).2

def machine (u : Setup) : Machine (Side → Endpoint) Event := ⟨u.initial,step⟩

namespace Endpoint
variable {e : Endpoint} {p : Pcb} {op : Op}

def finished (e : Endpoint) : Bool := e.pcb.all (·.detached)

/-- The PCB is sound and everything on the wire shows a part of the stream. -/
structure Ok (e : Endpoint) : Prop where
  sends : ∀ p ∈ e.pcb, SendOk p e.sent
  control : ∀ p ∈ e.pcb, ControlOk p.toControl
  iss : ∀ p ∈ e.pcb, p.iss = e.iss
  notListen : ∀ p ∈ e.pcb, p.state ≠ .listen
  wire : ∀ seg ∈ e.emitted, OnWire e.iss e.sent e.finished seg
  unopened : e.opened = false → e.pcb = none ∧ e.emitted = [] ∧ e.sent = [] ∧ e.returned = []

structure Grows (e e' : Endpoint) : Prop where
  sent : e.sent <+: e'.sent
  opened : e.opened = true → e'.opened = true ∧ e'.iss = e.iss
  finished : e.opened = true → e.finished = true → e'.sent = e.sent ∧ e'.finished = true
  unopened : e.opened = false → e'.sent = e.sent

theorem Grows.refl (e : Endpoint) : Grows e e :=
  ⟨prefix_rfl,fun h => ⟨h,rfl⟩,fun _ h => ⟨rfl,h⟩,fun _ => rfl⟩

theorem permits_enabled (h : e.permits p op = true) :
    op.Enabled p ∧ (op.isSetup = false ∨ op = .accept) ∧ ∀ seg, op ≠ .input seg := by
  have howned : (!p.detached && p.listener.isNone) = true → p.Owned := by simp [Pcb.Owned]
  cases op with
  | connectWait | send | recv | close => exact ⟨howned h,.inl rfl,by simp⟩
  | accept => exact ⟨(Bool.and_eq_true _ _ ▸ h).2,.inr rfl,by simp⟩
  | tick => exact ⟨trivial,.inl rfl,by simp⟩
  | bind | listen | connect | input => cases h

theorem isConnect_of_setup (h : op.isSetup = false ∨ op = .accept) : op.isConnect = false := by
  rcases h with h | rfl
  · cases op <;> first | rfl | cases h
  · rfl

theorem findPcb_only {ip remote : BitVec 32} {port remotePort : BitVec 16} (h : e.Ok)
    (hf : Tcp.findPcb e.pcb.toList ip port remote remotePort = some p) :
    e.pcb = some p ∧ p.state ≠ .closed ∧ p.state ≠ .listen := by
  have hmem : e.pcb = some p := by
    rcases or_eq_some_iff.mp hf with hf | ⟨-,hf⟩ <;>
      exact mem_toList.mp (mem_of_find?_eq_some hf)
  refine ⟨hmem,?_,h.notListen p hmem⟩
  rcases or_eq_some_iff.mp hf with hf | ⟨-,hf⟩
  · have hp := find?_some hf
    simp only [decide_eq_true_eq] at hp
    exact hp.1
  have hp := find?_some hf
  simp only [decide_eq_true_eq] at hp
  exact absurd hp.1 (h.notListen p hmem)

theorem after_pcb {io : Io} {o : Outcome} {q : Pcb} (hq : (e.after io op o).pcb = some q) :
    o.freed = false ∧ q = o.pcb := by
  cases hf : o.freed with
  | true => simp [after,hf] at hq
  | false => exact ⟨rfl,by simpa [after,hf,eq_comm] using hq⟩

theorem after_finished (io : Io) (hen : op.Enabled p) (h : p.detached = true ∨ op = .close) :
    (e.after io op (op.run io p)).finished = true := by
  cases hf : (op.run io p).freed with
  | true => simp [finished,after,hf]
  | false =>
    simp only [finished,after,hf,Bool.false_eq_true,if_false,all_some]
    rcases h with hd | rfl
    · by_contra hn
      rw [Op.run_attached io p hen (by simpa using hn)] at hd
      cases hd
    · exact (closePcb_kept io hf).1

theorem Ok.after (h : e.Ok) (hp : e.pcb = some p) (io : Io) (hen : op.Enabled p)
    (hset : op.isSetup = false ∨ op = .accept) :
    (e.after io op (op.run io p)).Ok ∧ Grows e (e.after io op (op.run io p)) := by
  have hctl := h.control p hp
  have hno := isConnect_of_setup hset
  have hopened : ¬ e.opened = false := by
    intro hn
    rw [(h.unopened hn).1] at hp
    cases hp
  have hfinished : e.finished = p.detached := by simp [finished,hp]
  have hs := Op.run_sends io (h.sends p hp) hctl hen hno fun hc =>
    after_finished io hen (e := e) (hc.imp_left hctl.detached.trans)
  obtain ⟨more,hmore,hopen⟩ := Op.sentAfter_append hen hno e.sent (op.run io p).result
  constructor
  · refine ⟨fun q hq => ?_,fun q hq => ?_,fun q hq => ?_,fun q hq hl => ?_,fun seg hseg => ?_,
      fun hn => absurd hn hopened⟩
    · obtain ⟨hf,rfl⟩ := after_pcb hq
      exact hs.ok hf
    · obtain ⟨hf,rfl⟩ := after_pcb hq
      exact Op.run_controlOk io p op hen hctl hf
    · obtain ⟨-,rfl⟩ := after_pcb hq
      exact hs.iss.trans (h.iss p hp)
    · obtain ⟨-,rfl⟩ := after_pcb hq
      rcases hset with hs | rfl
      · exact h.notListen p hp ((Op.run_moves io p op hen hs).entered (.inr rfl) hl)
      · exact h.notListen p hp hl
    rcases mem_append.mp hseg with hold | hnew
    · have hw := (h.wire seg hold).append more (by rw [hfinished]; exact hopen)
      rw [← hmore,hfinished] at hw
      exact hw.mono fun hd => after_finished io hen (.inl hd)
    · have hw := hs.emits.emitted op seg hnew
      rwa [h.iss p hp] at hw
  refine ⟨⟨more,hmore.symm⟩,fun ho => ⟨ho,rfl⟩,fun _ ho => ?_,fun hn => absurd hn hopened⟩
  rw [hfinished] at ho
  refine ⟨?_,after_finished io hen (.inl ho)⟩
  change op.sentAfter e.sent (op.run io p).result = e.sent
  rw [hmore,hopen ho,append_nil]

theorem passiveOpen_cases (e : Endpoint) (io : Io) (hio : io.output = []) (iss : BitVec 32) (l : Pcb)
    (seg : Segment) : e.passiveOpen io iss l seg = e ∨
    ∃ (io' : Io) (a : Nat) (r : Sent), io'.output = [] ∧ e.opened = false ∧ seg.syn = true ∧
      r = sendSegment io' (synChild io'.ticks a l.addr iss seg) (tcpSyn ||| tcpAck) [] false ∧
      r.ok = true ∧ e.passiveOpen io iss l seg = { e with
          pcb := some r.pcb, opened := true, iss := iss
          emitted := e.emitted ++ r.io.output.map (·.seg) } := by
  have hout : ∀ (io : Io) (live : List Nat), (io.kmalloc live).2.output = io.output := by
    intro io live
    unfold Io.kmalloc
    split <;> rfl
  unfold passiveOpen
  split
  · rename_i hcond
    have hsyn : seg.syn = true := by
      have hf := hcond.1
      unfold Segment.syn
      revert hf
      generalize seg.flags = f
      revert f
      decide
    split
    · exact .inl rfl
    rename_i a io₁ h₁
    split
    · exact .inl rfl
    rename_i io₂ h₂
    have hio₂ : io₂.output = [] := by
      have ho₁ := hout io [l.addr]
      have ho₂ := hout io₁ []
      rw [h₁] at ho₁
      rw [h₂] at ho₂
      exact ho₂.trans (ho₁.trans hio)
    dsimp only
    split
    · rename_i hok
      exact .inr ⟨io₂,a,_,hio₂,hcond.2.2,hsyn,rfl,hok,rfl⟩
    · exact .inl rfl
  · exact .inl rfl

theorem Ok.passiveOpen (h : e.Ok) (io : Io) (hio : io.output = []) (iss : BitVec 32) (l : Pcb)
    {seg : Segment} (hm : seg.mss ≤ localMss) :
    (e.passiveOpen io iss l seg).Ok ∧ Grows e (e.passiveOpen io iss l seg) := by
  rcases passiveOpen_cases e io hio iss l seg with hn | ⟨io',a,r,hio',ho,-,hr,hok,hn⟩
  · rw [hn]
    exact ⟨h,.refl e⟩
  rw [hn]
  have hsyn := sendSyn false (synChild_idle io'.ticks a l.addr iss hm) rfl rfl rfl
    (show has (tcpSyn ||| tcpAck) tcpSyn = true by decide) (by decide) io'
  have hctl := (sendSegment_senderOnly io' (synChild io'.ticks a l.addr iss seg)
    (tcpSyn ||| tcpAck) [] false).control
  rw [← hr] at hsyn hctl
  obtain ⟨hq,-,hiss,hemits⟩ := hsyn
  obtain ⟨-,hnone,hsent,-⟩ := h.unopened ho
  have hchild : ∀ q, some r.pcb = some q → q.toControl = (synChild io'.ticks a l.addr iss seg).toControl :=
    fun q hq => by rw [← some.inj hq,hctl]
  constructor
  · refine ⟨fun q hp => ?_,fun q hp => ?_,fun q hp => ?_,fun q hp => ?_,fun seg' hseg => ?_,nofun⟩
    · rw [hsent,← some.inj hp]
      exact .live (by rw [hctl]; rfl) (hq hok)
    · rw [hchild q hp]
      exact ⟨rfl,nofun,fun _ => .inl rfl⟩
    · rw [← some.inj hp]
      exact hiss
    · rw [hchild q hp]
      nofun
    obtain ⟨new,hnew,hwire⟩ := hemits.out
    rw [hnone,nil_append,hnew,hio',nil_append] at hseg
    obtain ⟨pk,hpk,rfl⟩ := mem_map.mp hseg
    have hopen : Endpoint.finished { e with pcb := some r.pcb } = false := by
      simp [finished,hctl,synChild,Pcb.fresh,Pcb.zero,setMss]
    have hw := (hwire pk hpk).2
    rw [← hsent,← hopen] at hw
    exact hw
  · exact ⟨prefix_rfl,fun hn => (by simp [ho] at hn),fun hn => (by simp [ho] at hn),fun _ => rfl⟩

variable {f : Endpoint}

/-- What the application has read is a prefix of what the other sent. While it holds its
PCB, so is what the PCB has stored; nothing comes from an end that is not there. -/
structure Tracks (e f : Endpoint) : Prop where
  returned : e.returned <+: f.sent
  follows : ∀ p ∈ e.pcb, p.detached = false → ∃ stored fin,
    Follows f.iss f.sent f.finished p stored e.returned fin ∧
      (f.opened = false → p.state.isOpen = false ∧ fin = false)

theorem Tracks.grow {f' : Endpoint} (h : Tracks e f) (hg : Grows f f') : Tracks e f' := by
  refine ⟨h.returned.trans hg.sent,fun p hp hd => ?_⟩
  obtain ⟨stored,fin,hf,hnone⟩ := h.follows p hp hd
  refine ⟨stored,fin,?_⟩
  cases ho : f.opened with
  | true =>
    obtain ⟨ho',hiss⟩ := hg.opened ho
    rw [hiss]
    exact ⟨hf.grow hg.sent (hg.finished ho),fun hn => by rw [ho'] at hn; cases hn⟩
  | false =>
    obtain ⟨hs,rfl⟩ := hnone ho
    refine ⟨⟨hf.ring,?_,hf.opening,fun hn => ?_,nofun,fun hn => ?_⟩,fun _ => ⟨hs,rfl⟩⟩
    · rw [hg.unopened ho]
      exact hf.within
    · rw [hs] at hn
      cases hn
    · rw [hn] at hs
      cases hs

theorem returnedBytes_cases (io : Io) (hen : op.Enabled p) : op.returnedBytes (op.run io p).result = [] ∨
      ((op.run io p).freed = false ∧ (op.run io p).pcb.detached = false) := by
  cases op with
  | recv caller len =>
    obtain ⟨hp,hc,-⟩ := tcpRecv_cases io p caller len
    exact .inr ⟨hp.freed,(congrArg Control.detached hc).trans hen.1⟩
  | _ => exact .inl rfl

theorem Tracks.after (h : Tracks e f) (hok : e.Ok) (hp : e.pcb = some p) (io : Io)
    (hper : e.permits p op = true) : Tracks (e.after io op (op.run io p)) f := by
  obtain ⟨hen,hset,hno⟩ := permits_enabled hper
  have hctl := hok.control p hp
  have hfollows : ∀ q ∈ (e.after io op (op.run io p)).pcb, q.detached = false → ∃ stored fin,
      Follows f.iss f.sent f.finished q stored (e.after io op (op.run io p)).returned fin ∧
        (f.opened = false → q.state.isOpen = false ∧ fin = false) := by
    intro q hq hd'
    obtain ⟨hf,rfl⟩ := after_pcb hq
    have hd := Op.run_attached io p hen hd'
    obtain ⟨stored,fin,hfol,hnone⟩ := h.follows p hp hd
    refine ⟨stored,fin,hfol.run io hctl hno hset hd hf hd',fun ho => ?_⟩
    obtain ⟨hs,hfin⟩ := hnone ho
    refine ⟨?_,hfin⟩
    rcases Op.run_state io p hno hset hf hd' with hst | hst
    · rw [hst]
      exact hs
    · rw [hst]
      rfl
  refine ⟨?_,hfollows⟩
  rcases returnedBytes_cases io hen with hnil | ⟨hf,hd⟩
  · have hsame : (e.after io op (op.run io p)).returned = e.returned := by
      change e.returned ++ op.returnedBytes (op.run io p).result = e.returned
      rw [hnil,append_nil]
    rw [hsame]
    exact h.returned
  · obtain ⟨stored,fin,hfol,-⟩ := hfollows _ (by simp [Endpoint.after,hf]) hd
    exact IsPrefix.trans ⟨_,hfol.ring.fifo⟩ hfol.within

theorem rstInput_state (io : Io) (p : Pcb) (seg : Segment) :
    (rstInput io p seg).pcb.state = p.state ∨ (rstInput io p seg).pcb.state = .closed := by
  unfold rstInput
  split
  · exact .inr rfl
  · exact .inl rfl

theorem Tracks.segment (h : Tracks e f) (hok : e.Ok) (hlen : f.sent.length < 2^31)
    (hp : e.pcb = some p) (hc : p.state ≠ .closed) (io : Io) {seg : Segment}
    (hseg : seg.rst = true ∨ f.opened = true ∧ OnWire f.iss f.sent f.finished seg) :
    Tracks (e.after io (.input seg) ((Op.input seg).run io p)) f := by
  have hctl := hok.control p hp
  refine ⟨?_,fun q hq hd' => ?_⟩
  · change e.returned ++ [] <+: f.sent
    rw [append_nil]
    exact h.returned
  obtain ⟨hf,rfl⟩ := after_pcb hq
  have hd := (segmentArrives_moves io p seg).attached hd'
  obtain ⟨stored,fin,hfol,hnone⟩ := h.follows p hp hd
  change ∃ stored fin, Follows f.iss f.sent f.finished (segmentArrives io p seg).pcb stored
    (e.returned ++ []) fin ∧ (f.opened = false →
      (segmentArrives io p seg).pcb.state.isOpen = false ∧ fin = false)
  rw [append_nil]
  rcases hseg with hrst | ⟨ho,hw⟩
  · have hr : segmentArrives io p seg = rstInput io p seg := by rw [segmentArrives,if_pos hrst]
    rw [hr]
    refine ⟨_,fin,rstInput_follows hfol io seg,fun ho => ?_⟩
    obtain ⟨hs,hfin⟩ := hnone ho
    refine ⟨?_,hfin⟩
    rcases rstInput_state io p seg with hst | hst
    · rw [hst]
      exact hs
    · rw [hst]
      rfl
  · obtain ⟨fin',hfol'⟩ := hfol.input io hctl hw hlen hc (hok.notListen p hp) hd hd'
    exact ⟨_,fin',hfol',fun hn => by rw [ho] at hn; cases hn⟩

theorem Tracks.passiveOpen (h : Tracks e f) (hok : e.Ok) (io : Io) (hio : io.output = [])
    (iss : BitVec 32) (l : Pcb) {seg : Segment} (ho : f.opened = true)
    (hw : OnWire f.iss f.sent f.finished seg) : Tracks (e.passiveOpen io iss l seg) f := by
  rcases passiveOpen_cases e io hio iss l seg with hn | ⟨io',a,r,-,hun,hsyn,rfl,-,hn⟩
  · rw [hn]
    exact h
  rw [hn]
  refine ⟨h.returned,fun q hq _ => ⟨[],false,?_,fun hno => by rw [ho] at hno; cases hno⟩⟩
  obtain rfl := some.inj hq
  obtain ⟨-,-,-,hret⟩ := hok.unopened hun
  have hs := sendSegment_senderOnly io' (synChild io'.ticks a l.addr iss seg) (tcpSyn ||| tcpAck) [] false
  refine ⟨?_, nil_prefix,fun _ => ⟨rfl,rfl⟩,fun _ => ?_,nofun,?_⟩
  · rw [hret]
    exact synChild_ringOk io' a l.addr iss seg
  · rw [hs.receiver]
    change seg.seq + 1 = _
    rw [(hw.syn hsyn).1]
    rfl
  · rw [hs.control]
    nofun

structure Kept (e f e' : Endpoint) : Prop where
  ok : e'.Ok
  grows : Grows e e'
  tracks : Tracks e' f

section
variable (hok : e.Ok) (h : Tracks e f)
include hok h

theorem Kept.refl : Kept e f e := ⟨hok,.refl e,h⟩

theorem call_kept (io : Io) (op : Op) : Kept e f (e.call io op).1 := by
  unfold call
  split
  · exact .refl hok h
  split
  · rename_i p hp hper
    obtain ⟨hen,hset,-⟩ := permits_enabled hper
    obtain ⟨hok',hg⟩ := hok.after hp io hen hset
    exact ⟨hok',hg,h.after hok hp io hper⟩
  · exact .refl hok h

theorem input_kept (hlen : f.sent.length < 2^31) (io : Io) (hio : io.output = []) (iss : BitVec 32)
    {seg : Segment} (hm : 1 ≤ seg.mss ∧ seg.mss ≤ localMss)
    (hseg : seg.rst = true ∨ f.opened = true ∧ OnWire f.iss f.sent f.finished seg) :
    Kept e f (e.input io iss seg) := by
  unfold input
  split
  · rename_i p hf
    obtain ⟨hp,hc,hl⟩ := findPcb_only hok hf
    have hen : (Op.input seg).Enabled p := ⟨hc,hm.1,hm.2,fun hn => absurd hn hl⟩
    obtain ⟨hok',hg⟩ := hok.after hp io hen (.inl rfl)
    exact ⟨hok',hg,h.segment hok hlen hp hc io hseg⟩
  split
  · rename_i l _
    split
    · exact .refl hok h
    rename_i hrst
    obtain ⟨ho,hw⟩ := hseg.resolve_left hrst
    obtain ⟨hok',hg⟩ := hok.passiveOpen io hio iss l hm.2
    exact ⟨hok',hg,h.passiveOpen hok io hio iss l ho hw⟩
  · exact .refl hok h

end

theorem parsed_onWire (hf : f.Ok) {seg seg' : Segment} (hmem : seg ∈ f.emitted)
    (hparse : tcpParse seg.srcIp seg.dstIp (segmentBytes seg) = some seg') :
    f.opened = true ∧ OnWire f.iss f.sent f.finished seg' := by
  constructor
  · by_contra hn
    rw [(hf.unopened (by simpa using hn)).2.1] at hmem
    cases hmem
  have hw := hf.wire seg hmem
  rw [tcpParse_holds (segmentBytes_holds seg)] at hparse
  split at hparse
  · cases hparse
    exact ⟨hw.data,hw.syn,hw.fin⟩
  · cases hparse

theorem act_kept (hok : e.Ok) (hf : f.Ok) (h : Tracks e f) (hlen : f.sent.length < 2^31)
    (ev : Event) : Kept e f (e.act f ev).1 := by
  unfold act
  split
  · exact call_kept hok h _ _
  · split
    · exact .refl hok h
    rename_i seg' hseg
    obtain ⟨seg,hget,hparse⟩ := bind_eq_some_iff.mp hseg
    exact input_kept hok h hlen _ rfl ev.iss (tcpParse_mss hparse)
      (.inr (parsed_onWire hf (mem_of_getElem? hget) hparse))
  split
  · exact .refl hok h
  rename_i seg hseg
  obtain ⟨hparse,hrst⟩ := filter_eq_some_iff.mp hseg
  exact input_kept hok h hlen _ rfl ev.iss (tcpParse_mss hparse) (.inl hrst)

theorem passiveOpen_sent (e : Endpoint) (io : Io) (iss : BitVec 32) (l : Pcb) (seg : Segment) :
    (e.passiveOpen io iss l seg).sent = e.sent := by
  unfold passiveOpen
  split
  · split
    · rfl
    split
    · rfl
    dsimp only
    split <;> rfl
  · rfl

theorem input_sent (e : Endpoint) (io : Io) (iss : BitVec 32) (seg : Segment) :
    (e.input io iss seg).sent = e.sent := by
  unfold input
  split
  · rfl
  split
  · split
    · rfl
    · exact passiveOpen_sent e io iss _ seg
  · rfl

theorem act_sent (e f : Endpoint) (ev : Event) : e.sent <+: (e.act f ev).1.sent := by
  unfold act
  split
  · rename_i op _
    unfold call
    split
    · exact prefix_rfl
    split
    · rename_i p _ hper
      obtain ⟨hen,hset,-⟩ := permits_enabled hper
      obtain ⟨more,hmore,-⟩ := Op.sentAfter_append hen (isConnect_of_setup hset) e.sent
        (op.run ⟨ev.ticks,ev.mem,[]⟩ p).result
      exact ⟨more,hmore.symm⟩
    · exact prefix_rfl
  all_goals
    split
    · exact prefix_rfl
    · rw [input_sent]

theorem recv_zero {io : Io} {caller : Caller} {len : Nat} (hlen : 0 < len)
    (h : (tcpRecv io p caller len).result = .code 0) :
    p.state = .closeWait ∧ p.rcvBuf.used = 0 := by
  have hq := stopWaitRecv_waitersOnly p caller.thread
  unfold tcpRecv at h
  rw [if_neg (by omega)] at h
  dsimp only at h
  generalize stopWaitRecv p caller.thread = q at hq h
  have hst : q.state = p.state := congrArg Control.state hq.control
  have hbuf : q.rcvBuf = p.rcvBuf := congrArg Receiver.rcvBuf hq.receiver
  rw [← hst,← hbuf]
  split at h
  · simp [Outcome.return] at h
  split at h
  · simp at h
  have hempty : q.rcvBuf.used = 0 := by omega
  split at h
  · refine ⟨?_,hempty⟩
    by_contra hn
    simp only [Outcome.return,hn,if_false,Result.code.injEq] at h
    split at h <;> omega
  split at h
  · simp [Outcome.return] at h
  split at h
  · simp only [Outcome.return,Result.code.injEq] at h
    split at h <;> omega
  · simp at h

end Endpoint

def Inv (s : Side → Endpoint) : Prop := ∀ side, (s side).Ok ∧ (s side).Tracks (s side.other)

def Bounded (s : Side → Endpoint) : Prop := ∀ side, (s side).sent.length < 2^31

theorem Side.other_ne (side : Side) : side.other ≠ side := by cases side <;> decide

@[simp] theorem Side.other_other (side : Side) : side.other.other = side := by cases side <;> rfl

theorem Side.eq_or_other (a b : Side) : b = a ∨ b = a.other := by cases a <;> cases b <;> decide

section
variable (u : Setup)

theorem caller_connects : ∃ o : Outcome,
    u.dialled = ⟨some o.pcb,none,true,false,u.iss,[],[],o.io.output.map (·.seg)⟩ ∧
    SendOk o.pcb [] ∧ ControlOk o.pcb.toControl ∧ o.pcb.iss = u.iss ∧
    (o.pcb.state = .synSent ∨ o.pcb.state = .closed) ∧ RingOk o.pcb [] [] ∧
    ∀ seg ∈ o.io.output.map (·.seg), OnWire u.iss [] u.dialled.finished seg := by
  have hsend : SendOk u.caller [] := (fresh_sendOk u.client []).transfer rfl rfl
  have hring : RingOk u.caller [] [] := (fresh_ringOk u.client).transfer rfl
  have hctl : ControlOk u.caller.toControl := ⟨rfl,nofun,nofun⟩
  obtain ⟨hs,hiss,he⟩ := connectPcb_sends u.dialled.finished hsend rfl ⟨u.ticks,u.mem,[]⟩ u.ifaceIp
    u.remoteIp u.serverPort u.iss
  obtain ⟨hc,hfree,-⟩ := connectPcb_control ⟨u.ticks,u.mem,[]⟩ u.caller u.ifaceIp u.remoteIp
    u.serverPort u.iss
  have hrcv := (connectPcb_receiver ⟨u.ticks,u.mem,[]⟩ u.caller u.ifaceIp u.remoteIp u.serverPort u.iss).1
  refine ⟨_,rfl,?_,?_,hiss,?_,hring.transfer hrcv,?_⟩
  · rcases hc with ⟨-,hr⟩ | ⟨-,hr⟩ <;> rwa [hr] at hs
  · exact Op.run_controlOk _ u.caller (.connect u.ifaceIp u.remoteIp u.serverPort u.iss)
      ⟨⟨rfl,rfl⟩,rfl⟩ hctl hfree
  · rcases hc with ⟨hc,-⟩ | ⟨hc,-⟩
    · exact .inl (congrArg Control.state hc)
    · exact .inr (congrArg Control.state hc)
  intro seg hseg
  obtain ⟨new,hnew,hwire⟩ := he.out
  rw [hnew,nil_append] at hseg
  obtain ⟨pk,hpk,rfl⟩ := mem_map.mp hseg
  exact (hwire pk hpk).2

theorem initial_inv : Inv u.initial := by
  obtain ⟨o,hd,hs,hctl,hiss,hst,hring,hwire⟩ := caller_connects u
  have hopen : o.pcb.state.isOpen = false := by
    rcases hst with hst | hst <;> rw [hst] <;> rfl
  intro side
  cases side with
  | active =>
    change u.dialled.Ok ∧ u.dialled.Tracks u.listening
    rw [hd] at hwire ⊢
    refine ⟨⟨?_,?_,?_,?_,hwire,nofun⟩, nil_prefix,?_⟩
    all_goals
      rintro p hp
      obtain rfl := some.inj hp
    · exact hs
    · exact hctl
    · exact hiss
    · rcases hst with hst | hst <;> rw [hst] <;> nofun
    refine fun _ => ⟨[],false,⟨hring, nil_prefix,fun _ => ⟨rfl,rfl⟩,fun hn => ?_,nofun,
      fun hn => ?_⟩,fun _ => ⟨hopen,rfl⟩⟩
    · rw [hopen] at hn
      cases hn
    · rw [hn] at hopen
      cases hopen
  | passive =>
    have hnone : ∀ {P : Pcb → Prop}, ∀ p ∈ u.listening.pcb, P p := fun p hp => nomatch hp
    have hwire : ∀ {P : Segment → Prop}, ∀ seg ∈ u.listening.emitted, P seg := by
      intro P seg hseg
      cases hseg
    exact ⟨⟨hnone,hnone,hnone,hnone,hwire,fun _ => ⟨rfl,rfl,rfl,rfl⟩⟩, nil_prefix,hnone⟩

end

theorem step_inv {s : Side → Endpoint} (h : Inv s) (hb : Bounded s) (ev : Event) : Inv (step s ev) := by
  have hk := Endpoint.act_kept (h ev.side).1 (h ev.side.other).1 (h ev.side).2 (hb ev.side.other) ev
  have hother : step s ev ev.side.other = s ev.side.other :=
    update_of_ne ev.side.other_ne _ _
  have hself : step s ev ev.side = ((s ev.side).act (s ev.side.other) ev).1 :=
    update_self ..
  intro side
  rcases Side.eq_or_other ev.side side with rfl | rfl
  · rw [hself,hother]
    exact ⟨hk.ok,hk.tracks⟩
  rw [Side.other_other,hself,hother]
  have ht := (h ev.side.other).2
  rw [Side.other_other] at ht
  exact ⟨(h ev.side.other).1,ht.grow hk.grows⟩

theorem Bounded.of_step {s : Side → Endpoint} {ev : Event} (h : Bounded (step s ev)) : Bounded s := by
  intro side
  by_cases hs : side = ev.side
  · have hb := h ev.side
    have hself : step s ev ev.side = ((s ev.side).act (s ev.side.other) ev).1 :=
      update_self ..
    rw [hself] at hb
    rw [hs]
    exact (Endpoint.act_sent (s ev.side) (s ev.side.other) ev).length_le.trans_lt hb
  · have hb := h side
    rwa [show step s ev side = s side from update_of_ne hs _ _] at hb

theorem run_inv (u : Setup) (es : List Event) (hb : Bounded ((machine u).run es)) :
    Inv ((machine u).run es) :=
  (machine u).run_invariant (I := fun s => Bounded s → Inv s) (fun _ => initial_inv u)
    (fun _ e ih hb => step_inv (ih hb.of_step) hb.of_step e) es hb

end Stream

/-- Whatever the two ends do and whatever the network does with their segments, each
application reads a prefix of what the other was allowed to send, and is told of the end
only when it has read all of it. -/
theorem stream_integrity (u : Stream.Setup) (es : List Stream.Event)
    (hlen : ∀ side, ((Stream.machine u).run es side).sent.length < 2^31) (side : Stream.Side) :
    ((Stream.machine u).run es side).returned <+: ((Stream.machine u).run es side.other).sent ∧
    ∀ (ticks : Nat) (mem : List (Option Nat)) (iss : BitVec 32) (caller : Caller) (len : Nat), 0 < len →
      Stream.result ((Stream.machine u).run es) ⟨side,ticks,mem,iss,.call (.recv caller len)⟩ = .code 0 →
      ((Stream.machine u).run es side).returned = ((Stream.machine u).run es side.other).sent := by
  obtain ⟨hok,ht⟩ := Stream.run_inv u es hlen side
  refine ⟨ht.returned,fun ticks mem iss caller len hl hr => ?_⟩
  simp only [Stream.result,Stream.Endpoint.act,Stream.Endpoint.call] at hr
  split at hr
  · cases hr
  rename_i p hp
  split at hr
  · rename_i hper
    obtain ⟨hen,-,-⟩ := Stream.Endpoint.permits_enabled hper
    obtain ⟨hst,hempty⟩ := Stream.Endpoint.recv_zero hl hr
    obtain ⟨stored,fin,hf,-⟩ := ht.follows p hp hen.1
    have hnil : p.rcvBuf.contents = [] := by
      rw [← length_eq_zero_iff,RingBuffer.contents_length,hempty]
    have hfifo := hf.ring.fifo
    rw [hnil,append_nil] at hfifo
    rw [hfifo,(hf.ended (hf.closeWait hst)).1]
  · cases hr

namespace Stream

def lan : Setup := ⟨1,0x0A000002,7,0x0A000002,1000,0,[some 2,some 3],10,0,80,0x0A000001,1⟩

def reader : Caller := ⟨some 1,false,true⟩

/-- The handshake, two bytes and a FIN that overtakes them; the bytes arrive twice. -/
def greeting : List Event :=
  [⟨.passive,1,[some 11,some 12,some 13,some 14],5000,.deliver 0⟩, ⟨.active,2,[some 4],0,.deliver 0⟩,
    ⟨.passive,3,[],0,.deliver 1⟩,
    ⟨.passive,4,[],0,.call .accept⟩,
    ⟨.active,5,[some 5,some 6],0,.call (.send [104,105])⟩,
    ⟨.active,6,[some 7,some 8],0,.call .close⟩,
    ⟨.passive,7,[],0,.deliver 3⟩,
    ⟨.passive,8,[some 15],0,.deliver 2⟩,
    ⟨.passive,9,[some 16],0,.deliver 2⟩,
    ⟨.passive,10,[some 17],0,.call (.recv reader 10)⟩,
    ⟨.passive,11,[some 18],0,.deliver 3⟩]

end Stream

theorem stream_integrity_greeting : Stream.result ((Stream.machine Stream.lan).run Stream.greeting)
      ⟨.passive,12,[],0,.call (.recv Stream.reader 10)⟩ = .code 0 ∧
    ((Stream.machine Stream.lan).run Stream.greeting .passive).returned =
      ((Stream.machine Stream.lan).run Stream.greeting .active).sent ∧
    ((Stream.machine Stream.lan).run Stream.greeting .active).sent = [104,105] := by
  have hlen : ∀ side, ((Stream.machine Stream.lan).run Stream.greeting side).sent.length < 2^31 := by
    intro side
    cases side <;> decide +kernel
  have hzero : Stream.result ((Stream.machine Stream.lan).run Stream.greeting)
      ⟨.passive,12,[],0,.call (.recv Stream.reader 10)⟩ = .code 0 := by decide +kernel
  exact ⟨hzero,(stream_integrity Stream.lan Stream.greeting hlen .passive).2 12 [] 0 Stream.reader 10
    (by decide) hzero,by decide +kernel⟩

end Rucux.Net
