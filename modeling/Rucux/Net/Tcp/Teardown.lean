import Rucux.Net.Tcp.Sending

namespace Rucux.Net
open Tcp History

theorem segmentArrives_detached (io : Io) (p : Pcb) (seg : Segment) :
    (segmentArrives io p seg).pcb.detached = p.detached := by
  have hadv : ∀ {now : Nat} {c d : Control} {freed : Bool}, Advance now c d freed →
      d.detached = c.detached := by
    intro now c d freed h
    cases h <;> rfl
  unfold segmentArrives
  split
  · unfold rstInput
    split <;> rfl
  split
  · rcases synSentInput_control io p seg with h | h
    · rw [h]
    rw [h]
    rfl
  split
  · unfold synReceivedInput
    split
    · split <;> rfl
    split
    · have h := hadv (synchronizedInput_advance io (establish io.ticks p) seg).1
      exact h
    · rfl
  · exact hadv (synchronizedInput_advance io p seg).1

theorem Op.run_detached (io : Io) (p : Pcb) {op : Op} (hno : op.isClose = false) :
    (op.run io p).pcb.detached = p.detached := by
  cases op with
  | bind | accept => rfl
  | listen backlog =>
    simp only [Op.run,listenPcb]
    split <;> rfl
  | connect ifaceIp addr port iss =>
    simp only [Op.run]
    rcases (connectPcb_control io p ifaceIp addr port iss).1 with ⟨hc,-⟩ | ⟨hc,-⟩ <;> rw [hc] <;> rfl
  | connectWait caller => rw [Op.run,(connectWait_waitersOnly io p caller).1.control]
  | send data => rw [Op.run,(tcpSend_senderOnly io p data).1.control]
  | recv caller len => rw [Op.run,(tcpRecv_cases io p caller len).2.1]
  | close => cases hno
  | input seg => exact segmentArrives_detached io p seg
  | tick now =>
    rw [Op.run,(tickPcb_control io p now).2.2]
    split <;> rfl

theorem Op.Enabled.detached {p : Pcb} {op : Op} (hen : op.Enabled p) (hctl : ControlOk p.toControl)
    (hd : p.detached = true) : (∃ seg, op = .input seg) ∨ ∃ now, op = .tick now := by
  have howned : ¬ p.Owned := fun ho => by simp [ho.1] at hd
  cases op with
  | bind | connect => exact absurd hen.1 howned
  | listen | connectWait | send | recv | close => exact absurd hen howned
  | accept =>
    have hc := hctl.child_open hen
    rw [← hctl.detached] at hc
    simp [hc] at hd
  | input seg => exact .inl ⟨seg,rfl⟩
  | tick now => exact .inr ⟨now,rfl⟩

/-- The deadline of a closed connection, given when it was closed and when it entered
TIME_WAIT. -/
def Deadline (c : Control) (closedAt : Nat) (lingerAt : Option Nat) : Prop :=
  (c.state ≠ .timeWait ∧ lingerAt = none ∧ c.expires = closedAt+15000) ∨
    (c.state = .timeWait ∧ ∃ u, lingerAt = some u ∧ c.expires = u+2000)

theorem Moves.deadline {now : Nat} {c d : Control} {completed : Bool} {t : Nat}
    {linger : Option Nat} (h : Moves now c d false completed) (hctl : ControlOk c)
    (hd : c.detached = true) (hdl : Deadline c t linger) :
    Deadline d t (if d.state = .timeWait then linger.or (some now) else linger) := by
  have hcl : c.state.isClosing = true := hctl.detached.symm.trans hd
  have hsame : d = c → Deadline d t (if d.state = .timeWait then linger.or (some now) else linger) := by
    rintro rfl
    rcases hdl with ⟨hs,hl,he⟩ | ⟨hs,u,hl,he⟩
    · exact .inl ⟨hs,by rw [if_neg hs,hl],he⟩
    · exact .inr ⟨hs,u,by rw [if_pos hs,hl]; rfl,he⟩
  generalize hfree : false = freed at h
  cases h with
  | advance h =>
    cases h with
    | stay => exact hsame rfl
    | closeWait hs => simp [hs,TcpState.isClosing] at hcl
    | finWait2 hs | closing hs =>
      rcases hdl with ⟨-,hl,he⟩ | ⟨hn,-⟩
      · exact .inl ⟨by simp [Control.moveTo],by rw [if_neg (by simp [Control.moveTo]),hl],he⟩
      rw [hs] at hn
      cases hn
    | timeWait hs =>
      rcases hdl with ⟨-,hl,he⟩ | ⟨hn,-⟩
      · exact .inr ⟨rfl,now,(if_pos rfl).trans (by rw [hl]; rfl),rfl⟩
      · simp [hn] at hs
    | lastAck => rw [hd] at hfree; cases hfree
  | complete hs | opened hs | close hs _ | closeLast hs _ => simp [hs,TcpState.isClosing] at hcl
  | reset => simp [hd] at hfree
  | gone => cases hfree

structure Teardown (p : Pcb) (h : History) : Prop where
  sends : SendOk p h.sent
  emitted : ∀ seg ∈ h.emitted, OnWire p.iss h.sent p.detached seg
  attached : h.closedAt = none → p.detached = false ∧ h.lingerAt = none
  closed : ∀ t, h.closedAt = some t → p.detached = true ∧ Deadline p.toControl t h.lingerAt

theorem Teardown.closedAt_none {p : Pcb} {h : History} (ht : Teardown p h)
    (hd : p.detached = false) : h.closedAt = none := by
  cases hc : h.closedAt with
  | none => rfl
  | some t =>
    have := (ht.closed t hc).1
    rw [hd] at this
    cases this

theorem Teardown.run_emitted {p : Pcb} {h : History} {op : Op} (io : Io) (ht : Teardown p h)
    (hctl : ControlOk p.toControl) (hen : op.Enabled p) (hf : (op.run io p).freed = false) :
    ∀ seg ∈ (h.after (op.ran io (op.run io p))).emitted,
      OnWire (op.run io p).pcb.iss (h.after (op.ran io (op.run io p))).sent
        (op.run io p).pcb.detached seg := by
  have hmono : p.detached = true → (op.run io p).pcb.detached = true := fun hd => by
    by_contra hn
    rw [Op.run_attached io p hen (by simpa using hn)] at hd
    cases hd
  cases hop : op.isConnect with
  | false =>
    have hc : p.state.isClosing = true ∨ op = .close → (op.run io p).pcb.detached = true := by
      rintro (hcl | rfl)
      · exact hmono (hctl.detached.trans hcl)
      · exact (closePcb_kept io hf).1
    have hs := Op.run_sends io ht.sends hctl hen hop hc
    obtain ⟨more,hmore,hopen⟩ := Op.sentAfter_append hen hop h.sent (op.run io p).result
    intro seg hseg
    have hsent : (h.after (op.ran io (op.run io p))).sent = h.sent ++ more := hmore
    simp only [after,Op.ran,hop] at hseg
    rw [hsent,hs.iss]
    rcases List.mem_append.mp hseg with hold | hnew
    · exact ((ht.emitted seg hold).append more hopen).mono hmono
    rw [← hmore]
    exact hs.emits.emitted op seg hnew
  | true =>
    cases op with
    | connect ifaceIp addr port iss =>
      obtain ⟨-,hiss,he⟩ := connectPcb_sends false ht.sends hen.2 io ifaceIp addr port iss
      intro seg hseg
      have hwire := he.emitted (.connect ifaceIp addr port iss) seg hseg
      simp only [Op.run,hiss]
      exact (hwire.append (h.after ((Op.connect ifaceIp addr port iss).ran io _)).sent (by simp)).mono (by simp)
    | _ => cases hop

theorem teardown_invariant : PcbInvariant (fun _ _ => True) Teardown where
  backlog hb h := by
    have hctl := hb.control
    refine ⟨h.sends.transfer hb.sender (by rw [hctl]),?_,?_,?_⟩
    · rw [hb.sender,hctl]
      exact h.emitted
    · rw [hctl]
      exact h.attached
    · rw [hctl]
      exact h.closed
  fresh a := ⟨fresh_sendOk a [],by simp [empty],fun _ => ⟨rfl,rfl⟩,nofun⟩
  child io a l iss seg hm hok := by
    have hctl := (sendSegment_senderOnly io (synChild io.ticks a l iss seg) (tcpSyn ||| tcpAck)
      [] false).control
    refine ⟨sendOk_invariant.child io a l iss seg hm hok,by simp [empty],fun _ => ⟨?_,rfl⟩,
      nofun⟩
    rw [hctl]
    rfl
  run io p h op ht hctl hen _ hf := by
    refine ⟨Op.run_sendOk io ht.sends hctl hen hf,ht.run_emitted io hctl hen hf,?_,?_⟩
    · intro hnone
      cases hcl : op.isClose with
      | true => simp [after,Op.ran,hcl] at hnone
      | false =>
        have hnone : h.closedAt = none := by simpa [after,Op.ran,hcl] using hnone
        obtain ⟨hd,hl⟩ := ht.attached hnone
        have hd' : (op.run io p).pcb.detached = false := (Op.run_detached io p hcl).trans hd
        have hctl' := Op.run_controlOk io p op hen hctl hf
        have hs : (op.run io p).pcb.state ≠ .timeWait := fun hs => by
          have := hctl'.detached
          rw [hd',hs] at this
          cases this
        exact ⟨hd',by simp [after,Op.ran,hs,hl]⟩
    intro t hc
    cases hcl : op.isClose with
    | true =>
      cases op with
      | close =>
        obtain ⟨hd,hs,he⟩ := closePcb_kept io hf
        obtain rfl : io.ticks = t := by simpa [after,Op.ran,Op.isClose] using hc
        have hl := (ht.attached (ht.closedAt_none hen.1)).2
        exact ⟨hd,.inl ⟨hs,by simp [after,Op.ran,Op.run,hs,hl],he⟩⟩
      | _ => cases hcl
    | false =>
      obtain ⟨hd,hdl⟩ := ht.closed t (by simpa [after,Op.ran,hcl] using hc)
      have hset : op.isSetup = false := by
        rcases hen.detached hctl hd with ⟨_,rfl⟩ | ⟨_,rfl⟩ <;> rfl
      have hm := Op.run_moves io p op hen hset
      rw [hf] at hm
      exact ⟨(Op.run_detached io p hcl).trans hd,hm.deadline hctl hd hdl⟩

namespace Tcp
variable {s : Tcp}

def Doomed (s : Tcp) (a now : Nat) : Prop :=
  ∀ q ∈ s.pcbs, q.addr = a → q.detached = true ∧ q.expires ≠ 0 ∧ q.expires ≤ now

section
variable {a now : Nat} (h : s.Doomed a now)
include h

theorem Doomed.tickAt (b : Nat) : (tickAt now s b).Doomed a now := by
  intro q hq ha
  obtain ⟨r,hr,hc | ⟨hc,hd⟩⟩ := tickAt_control now b hq
  · rw [hc] at ha ⊢
    exact h r hr ha
  rw [hc] at ha
  rw [(h r hr ha).1] at hd
  cases hd

theorem Doomed.gone : a ∉ (Tcp.tickAt now s a).addrs := by
  unfold Tcp.tickAt
  split
  · exact find_none ‹_›
  rename_i p hp
  obtain ⟨hm,rfl⟩ := find_mem hp
  obtain ⟨hd,he,hle⟩ := h p hm rfl
  have hf : ((Op.tick now).run s.io p).freed = true := by
    rw [Op.run,(tickPcb_control s.io p now).1]
    simp [expired,hd,he,hle]
  intro ha
  obtain ⟨q,hq,hqa⟩ := List.mem_map.mp ha
  have hen : (Op.tick now).Enabled p := trivial
  rw [runOn_freed hen (by simp) hf] at hq
  exact (freeLocked_origin hq).1 hqa

theorem Doomed.fold {as : List Nat} (ha : a ∈ as ∨ a ∉ s.addrs) :
    a ∉ (as.foldl (Tcp.tickAt now) s).addrs := by
  induction as generalizing s with
  | nil => exact ha.resolve_left (by simp)
  | cons b as ih =>
    refine ih (h.tickAt b) ?_
    by_cases hb : a = b
    · exact .inr (hb ▸ h.gone)
    rcases ha with ha | ha
    · exact .inl ((List.mem_cons.mp ha).resolve_left hb)
    · exact .inr fun hm => ha (tickAt_addrs now b hm)

end

theorem tick_frees (hn : s.addrs.Nodup) {p : Pcb} (hp : p ∈ s.pcbs) (hd : p.detached = true)
    (he : p.expires ≠ 0) {e : Event} {now : Nat} (hcall : e.call = .tick now)
    (hle : p.expires ≤ now) : p.addr ∉ (s.step e).addrs := by
  have hdoom : (s.enter e).Doomed p.addr now := fun q hq ha => by
    obtain rfl := eq_of_addr hn hq hp ha
    exact ⟨hd,he,hle⟩
  have hstep : s.step e = (s.enter e).tcpTick now := by simp only [step,dispatch,hcall]
  rw [hstep]
  exact hdoom.fold (.inl (mem_addrs (s := s.enter e) hp))

end Tcp

/-- A connection that was closed at time `t` is in a closing state with a deadline as long as it is on the list; all
its FINs have one sequence number; and the timer frees it 15 seconds after `t`, or 2 seconds after it entered
TIME_WAIT. -/
theorem teardown_bounded (es : List Tcp.Event) (p : Pcb) (hp : p ∈ (machine.run es).pcbs)
    (t : Nat) (hclosed : (history (machine.run es).log p.addr).closedAt = some t) :
    p.detached = true ∧ p.state.isClosing = true ∧ p.expires ≠ 0 ∧
    (∃ f, ∀ seg ∈ (history (machine.run es).log p.addr).emitted, seg.fin = true → seg.seq = f) ∧
    ∀ e now, e.call = .tick now →
      (p.state ≠ .timeWait → t+15000 ≤ now → p.addr ∉ ((machine.run es).step e).addrs) ∧
      (p.state = .timeWait → ∃ u, (history (machine.run es).log p.addr).lingerAt = some u ∧
        (u+2000 ≤ now → p.addr ∉ ((machine.run es).step e).addrs)) := by
  have h := teardown_invariant.run_all es p hp
  have hwf := run_wf es
  have hctl := hwf.control p hp
  obtain ⟨hd,hdl⟩ := h.closed t hclosed
  have hcl : p.state.isClosing = true := hctl.detached.symm.trans hd
  have hne := hctl.deadline hcl
  refine ⟨hd,hcl,hne,⟨_,fun seg hseg hf => ((h.emitted seg hseg).fin hf).2.1⟩,
    fun e now hcall => ⟨fun hs hle => ?_,fun hs => ?_⟩⟩
  · rcases hdl with ⟨-,-,he⟩ | ⟨hs',-⟩
    · exact tick_frees hwf.nodup hp hd hne hcall (by rw [he]; exact hle)
    · exact absurd hs' hs
  rcases hdl with ⟨hs',-⟩ | ⟨-,u,hu,he⟩
  · exact absurd hs hs'
  · exact ⟨u,hu,fun hle => tick_frees hwf.nodup hp hd hne hcall (by rw [he]; exact hle)⟩

def Tcp.hungUp : List Tcp.Event := served ++ [⟨7,[some 7,some 8],⟨none,none⟩,3,.close⟩]

theorem teardown_bounded_hungUp : ∃ p ∈ (machine.run hungUp).pcbs,
      (history (machine.run hungUp).log p.addr).closedAt = some 7 ∧
      p.addr ∉ ((machine.run hungUp).step ⟨15007,[],⟨none,none⟩,0,.tick 15007⟩).addrs := by
  have hrun : (machine.run hungUp).pcbs.map (fun p => (p.addr,p.state)) =
      [(3,.finWait1),(1,.listen)] := by decide +kernel
  have hlog : (history (machine.run hungUp).log 3).closedAt = some 7 := by decide +kernel
  obtain ⟨p,rest,hp,hps,-⟩ := List.map_eq_cons_iff.mp hrun
  have hm : p ∈ (machine.run hungUp).pcbs := by rw [hp]; exact List.mem_cons_self
  obtain ⟨ha,hs⟩ := Prod.mk.inj hps
  have hc : (history (machine.run hungUp).log p.addr).closedAt = some 7 := by rw [ha]; exact hlog
  have hb := (teardown_bounded hungUp p hm 7 hc).2.2.2.2 ⟨15007,[],⟨none,none⟩,0,.tick 15007⟩
    15007 rfl
  exact ⟨p,hm,hc,hb.1 (by rw [hs]; decide) (by decide)⟩

/-!
Which resets `tcp_input` takes. The second half of its condition does not ask
whether the connection is synchronized, so that a PCB in SYN_SENT, whose `rcv_nxt`
means nothing yet, is also reset by a segment that acknowledges nothing.
-/

open List

namespace Tcp
variable {s : Tcp} {p q : Pcb}

theorem freeLocked_other (hq : q ∈ s.pcbs) (ha : q.addr ≠ p.addr) :
    ∃ r ∈ (s.freeLocked p).pcbs, BacklogOnly q r := by
  unfold freeLocked
  split
  · exact ⟨q,mem_filter.mpr ⟨hq,by simpa using ha⟩,rfl,rfl,rfl⟩
  rename_i l _
  have hb : BacklogOnly q (if q.addr = l then dropChild p.addr q else q) :=
    (dropChild_backlogOnly _ _).ite _
  refine ⟨_,mem_filter.mpr ⟨mem_map.mpr ⟨q,hq,rfl⟩,?_⟩,hb⟩
  rw [hb.control]
  simpa using ha

end Tcp

/-- The event takes the PCB out of a state other than CLOSED into CLOSED, or frees it. -/
def Tcp.Aborts (s : Tcp) (e : Tcp.Event) (p : Pcb) : Prop :=
  p.state ≠ .closed ∧ ∀ q ∈ (s.step e).pcbs, q.addr = p.addr → q.state = .closed

/-- The resets that ought to be taken: the answer to our SYN, and one that is exactly
in sequence on a connection past it. -/
def ResetAllowed (p : Pcb) (seg : Segment) : Prop :=
  (p.state = .synSent ∧ seg.hasAck = true ∧ seg.ack = p.sndNxt) ∨
    (p.state ≠ .closed ∧ p.state ≠ .listen ∧ p.state ≠ .synSent ∧ seg.seq = p.rcvNxt)

/-- A reset without a word about our SYN that hits the unset `rcv_nxt` of SYN_SENT. -/
def BlindReset (p : Pcb) (seg : Segment) : Prop :=
  p.state = .synSent ∧ seg.seq = p.rcvNxt ∧ ¬ (seg.hasAck = true ∧ seg.ack = p.sndNxt)

def ResetTaken (p : Pcb) (seg : Segment) : Prop :=
  (p.state = .synSent ∧ seg.hasAck = true ∧ seg.ack = p.sndNxt) ∨ (p.state ≠ .listen ∧ seg.seq = p.rcvNxt)

section
variable {p : Pcb} {seg : Segment}

theorem resetTaken_allowed (hs : p.state ≠ .closed) (ht : ResetTaken p seg) :
    ResetAllowed p seg ↔ ¬ BlindReset p seg := by
  unfold ResetAllowed BlindReset
  rcases ht with ⟨h₁,h₂,h₃⟩ | ⟨h₁,h₂⟩
  · simp [h₁,h₂,h₃]
  by_cases hsyn : p.state = .synSent
  · simp [hsyn,h₂]
  · simp [hsyn,h₂,h₁,hs]

theorem BlindReset.taken (h : BlindReset p seg) : ResetTaken p seg :=
  .inr ⟨by rw [h.1]; decide,h.2.1⟩

theorem rstInput_taken (io : Io) (h : ResetTaken p seg) :
    rstInput io p seg = .free (resetLocked p) io (p.detached || p.listener.isSome) := if_pos h

theorem rstInput_ignored (io : Io) (h : ¬ ResetTaken p seg) : rstInput io p seg = .keep p io := if_neg h

end

namespace Tcp
variable {s : Tcp} {e : Event} {src dst : BitVec 32} {bytes : List UInt8} {seg : Segment} {p : Pcb}

theorem step_reset (hcall : e.call = .input src dst bytes)
    (hparse : tcpParse src dst bytes = some seg) (hrst : seg.rst = true) :
    (findPcb s.pcbs seg.dstIp seg.dstPort seg.srcIp seg.srcPort = none ∧ s.step e = s.enter e) ∨
    ∃ r, findPcb s.pcbs seg.dstIp seg.dstPort seg.srcIp seg.srcPort = some r ∧
      s.step e = ((s.enter e).runOn r (.input seg)).1 := by
  have hstep : s.step e = (s.enter e).segmentInput seg := by
    simp only [step,dispatch,hcall,tcpInput,hparse]
  rw [hstep]
  unfold segmentInput
  cases hfind : findPcb s.pcbs seg.dstIp seg.dstPort seg.srcIp seg.srcPort with
  | none =>
    left
    simp [show findPcb (s.enter e).pcbs seg.dstIp seg.dstPort seg.srcIp seg.srcPort = none from hfind,
      rejectSegment,hrst]
  | some r =>
    refine .inr ⟨r,rfl,?_⟩
    simp [show findPcb (s.enter e).pcbs seg.dstIp seg.dstPort seg.srcIp seg.srcPort = some r
      from hfind,hrst]

theorem input_reset (io : Io) (p : Pcb) (hrst : seg.rst = true) :
    (Op.input seg).run io p = rstInput io p seg := by
  simp [Op.run,segmentArrives,hrst]

theorem reset_ignored (hp : p ∈ s.pcbs) {r : Pcb} (hr : r ∈ s.pcbs) (hrst : seg.rst = true)
    (hen : (Op.input seg).Enabled r) (hnodup : s.addrs.Nodup)
    (h : p.addr = r.addr → ¬ ResetTaken r seg) :
    ∃ q ∈ (s.runOn r (.input seg)).1.pcbs, q.toControl = p.toControl := by
  have hrun := input_reset s.io r hrst
  by_cases ht : ResetTaken r seg
  · have hne : p.addr ≠ r.addr := fun hn => h hn ht
    rw [rstInput_taken s.io ht] at hrun
    cases hf : ((Op.input seg).run s.io r).freed with
    | true =>
      rw [runOn_freed hen (by simp) hf]
      obtain ⟨q,hq,hb⟩ := freeLocked_other hp hne
      exact ⟨q,hq,hb.control⟩
    | false =>
      rw [runOn_kept hen hf (by rw [hrun]; rfl)]
      exact ⟨p,mem_map.mpr ⟨p,hp,if_neg hne⟩,rfl⟩
  rw [rstInput_ignored s.io ht] at hrun
  rw [runOn_kept hen (by rw [hrun]; rfl) (by rw [hrun]; rfl),hrun]
  refine ⟨p,mem_map.mpr ⟨p,hp,?_⟩,rfl⟩
  split
  · rename_i ha
    exact eq_of_addr hnodup hr hp ha.symm
  · rfl

theorem reset_taken (hrst : seg.rst = true) (hen : (Op.input seg).Enabled p) (ht : ResetTaken p seg)
    {q : Pcb} (hq : q ∈ (s.runOn p (.input seg)).1.pcbs) (ha : q.addr = p.addr) :
    q.state = .closed := by
  have hrun := input_reset s.io p hrst
  rw [rstInput_taken s.io ht] at hrun
  cases hf : ((Op.input seg).run s.io p).freed with
  | true =>
    rw [runOn_freed hen (by simp) hf] at hq
    exact absurd ha (freeLocked_origin hq).1
  | false =>
    rw [runOn_kept hen hf (by rw [hrun]; rfl),hrun] at hq
    obtain ⟨r,-,rfl⟩ := mem_map.mp hq
    split at ha
    · rw [if_pos ‹_›]
      rfl
    · exact absurd ha ‹_›

end Tcp

/-- In every reachable state, a reset aborts a PCB only when it ought to, unless it is
a blind one that was found to be for that PCB. -/
theorem reset_aborts_only_allowed (es : List Tcp.Event) (e : Tcp.Event) (src dst : BitVec 32)
    (bytes : List UInt8) (seg : Segment) (p : Pcb) (hcall : e.call = .input src dst bytes)
    (hparse : tcpParse src dst bytes = some seg) (hrst : seg.rst = true)
    (hp : p ∈ (machine.run es).pcbs) :
    ((machine.run es).Aborts e p → ResetAllowed p seg) ↔
      ¬ (findPcb (machine.run es).pcbs seg.dstIp seg.dstPort seg.srcIp seg.srcPort = some p ∧
        BlindReset p seg) := by
  have hwf := run_wf es
  generalize machine.run es = s at hp hwf ⊢
  have hmss := tcpParse_mss hparse
  rcases step_reset (s := s) hcall hparse hrst with ⟨hnone,hstep⟩ | ⟨r,hr,hstep⟩
  · simp only [hnone,reduceCtorEq,false_and,not_false_eq_true,iff_true]
    intro ha
    refine absurd (ha.2 p ?_ rfl) ha.1
    rw [hstep]
    exact hp
  obtain ⟨hmem,hopen⟩ := findPcb_mem hr
  have hen : (Op.input seg).Enabled r := ⟨hopen,hmss.1,hmss.2,fun _ => hrst⟩
  by_cases ht : p.addr = r.addr ∧ ResetTaken r seg
  · obtain ⟨ha,ht⟩ := ht
    obtain rfl := eq_of_addr hwf.nodup hp hmem ha
    have habort : s.Aborts e p := ⟨hopen,fun q hq hqa => by
      rw [hstep] at hq
      exact reset_taken hrst hen ht hq hqa⟩
    simp only [habort,hr,true_and,true_imp_iff]
    exact resetTaken_allowed hopen ht
  have hstays : ¬ s.Aborts e p := by
    rintro ⟨hn,hall⟩
    obtain ⟨q,hq,hc⟩ := reset_ignored (s := s.enter e) hp hmem hrst hen hwf.nodup
      fun ha ht' => ht ⟨ha,ht'⟩
    rw [← hstep] at hq
    exact hn (by rw [← hall q hq (by rw [hc]),hc])
  simp only [hstays,false_imp_iff,true_iff]
  rintro ⟨hfind,hblind⟩
  rw [hr] at hfind
  cases hfind
  exact ht ⟨rfl,hblind.taken⟩

/-- A reset that the peer sends with the sequence number 0 while our SYN is under way. -/
def Tcp.blindReset : Segment := fromServer 0 0 tcpRst []

/-- The peer refuses our SYN. -/
def Tcp.refusal : Tcp.Event := arrival 2 [] (fromServer 7 66537 (tcpRst ||| tcpAck) [])

theorem reset_aborts_only_allowed_refused : ∃ p ∈ (machine.run dialling).pcbs,
    (machine.run dialling).Aborts refusal p ∧ ResetAllowed p (fromServer 7 66537 (tcpRst ||| tcpAck) []) := by
  have hrun : (machine.run dialling).pcbs.map (fun p => (p.addr,p.state,p.rcvNxt)) = [(1,.synSent,0)] := by
    decide +kernel
  have habort : ∀ q ∈ ((machine.run dialling).step refusal).pcbs, q.addr = 1 → q.state = .closed := by
    decide +kernel
  obtain ⟨p,hp,he⟩ := map_eq_singleton_iff.mp hrun
  simp only [Prod.mk.injEq] at he
  obtain ⟨ha,hs,hn⟩ := he
  have hm : p ∈ (machine.run dialling).pcbs := by rw [hp]; exact mem_singleton_self p
  have haborts : (machine.run dialling).Aborts refusal p :=
    ⟨by rw [hs]; decide,fun q hq hqa => habort q hq (hqa.trans ha)⟩
  refine ⟨p,hm,haborts,(reset_aborts_only_allowed dialling _ _ _ _ _ p rfl (by decide +kernel) rfl hm).mpr ?_ haborts⟩
  rintro ⟨-,-,hseq,-⟩
  rw [hn] at hseq
  exact absurd hseq (by decide)

/-- The PCB is in SYN_SENT, the reset acknowledges nothing, and the PCB is closed. -/
theorem blindReset_closes :
    (machine.run dialling).pcbs.map (fun p => (p.addr,p.state)) = [(1,.synSent)] ∧
    tcpParse 0x0A000001 0x0A000002 (segmentBytes blindReset) = some blindReset ∧
    blindReset.rst = true ∧ blindReset.hasAck = false ∧
    (machine.run (dialling ++ [arrival 2 [] blindReset])).pcbs.map
      (fun p => (p.addr,p.state)) = [(1,.closed)] := by
  decide +kernel

end Rucux.Net
