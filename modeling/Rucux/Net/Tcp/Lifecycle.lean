import Rucux.Net.Tcp.Ops

namespace Rucux.Net

def TcpState.isClosing : TcpState → Bool
  | .finWait1 | .finWait2 | .closing | .lastAck | .timeWait => true
  | _ => false

def TcpState.isLive : TcpState → Bool
  | .closed | .listen => false
  | _ => true

def Control.moveTo (c : Control) (s : TcpState) : Control := { c with state := s }

def Control.moveUntil (c : Control) (s : TcpState) (deadline : Nat) : Control :=
  { c with state := s, expires := deadline }

inductive Advance (now : Nat) (c : Control) : Control → Bool → Prop where
  | stay : Advance now c c false
  | closeWait (h : c.state = .established) : Advance now c (c.moveTo .closeWait) false
  | finWait2 (h : c.state = .finWait1) : Advance now c (c.moveTo .finWait2) false
  | closing (h : c.state = .finWait1) : Advance now c (c.moveTo .closing) false
  | timeWait (h : c.state = .finWait1 ∨ c.state = .finWait2 ∨ c.state = .closing) :
      Advance now c (c.moveUntil .timeWait (now+2000)) false
  | lastAck (h : c.state = .lastAck) : Advance now c (c.moveTo .closed) c.detached

def Control.reset (c : Control) (error : Int) (deadline : Nat) : Control :=
  { c with state := .closed, error := error, expires := deadline }

def Control.detach (c : Control) (s : TcpState) (deadline : Nat) : Control :=
  { c with state := s, detached := true, expires := deadline }

/-- What an operation on a PCB can do to its control fields, once its endpoints are set, with whether
the PCB is freed and whether it enters its listener's accept queue. -/
inductive Moves (now : Nat) (c : Control) : Control → Bool → Bool → Prop where
  | advance {d : Control} {freed : Bool} (h : Advance now c d freed) : Moves now c d freed false
  | complete (hs : c.state = .synReceived) {d : Control} {freed : Bool}
      (h : Advance now (c.moveUntil .established (now+5000)) d freed) : Moves now c d freed true
  | opened (hs : c.state = .synSent) : Moves now c (c.moveUntil .established 0) false false
  | reset (error : Int) (deadline : Nat) :
      Moves now c (c.reset error deadline) (c.detached || c.listener.isSome) false
  | close (hs : c.state = .established) (hl : c.listener = none) :
      Moves now c (c.detach .finWait1 (now+15000)) false false
  | closeLast (hs : c.state = .closeWait) (hl : c.listener = none) :
      Moves now c (c.detach .lastAck (now+15000)) false false
  | gone : Moves now c c true false

theorem finAcked_control (now : Nat) (p : Pcb) (ack : BitVec 32) :
    (finAcked now p ack).toControl = p.toControl ∨
    (p.state = .finWait1 ∧ (finAcked now p ack).toControl = p.toControl.moveTo .finWait2) ∨
    (p.state = .closing ∧ (finAcked now p ack).toControl =
      p.toControl.moveUntil .timeWait (now+2000)) := by
  unfold finAcked
  dsimp only
  split
  · rename_i h
    exact .inr (.inl ⟨h.1,rfl⟩)
  split
  · rename_i h
    exact .inr (.inr ⟨h.1,rfl⟩)
  · exact .inl rfl

section
variable (io : Io) (p : Pcb) (seg : Segment)

theorem dataInput_control : ((dataInput io p seg).pcb.toControl = p.toControl ∨
      (p.state = .established ∧ (dataInput io p seg).pcb.toControl = p.toControl.moveTo .closeWait) ∨
      (p.state = .finWait1 ∧ (dataInput io p seg).pcb.toControl = p.toControl.moveTo .closing) ∨
      (p.state = .finWait2 ∧ (dataInput io p seg).pcb.toControl =
        p.toControl.moveUntil .timeWait (io.ticks+2000))) ∧
    (dataInput io p seg).freed = false ∧ (dataInput io p seg).completed = false := by
  have hfin : p.state = .established ∨ p.state = .finWait1 ∨ p.state = .finWait2 →
      (p.state = .established ∧ (finInput io.ticks (takePayload p seg)).toControl =
        p.toControl.moveTo .closeWait) ∨
      (p.state = .finWait1 ∧ (finInput io.ticks (takePayload p seg)).toControl =
        p.toControl.moveTo .closing) ∨
      (p.state = .finWait2 ∧ (finInput io.ticks (takePayload p seg)).toControl =
        p.toControl.moveUntil .timeWait (io.ticks+2000)) := by
    have hs : (takePayload p seg).state = p.state := rfl
    rintro (h | h | h)
    · exact .inl ⟨h,by simp only [finInput,hs,h]; rfl⟩
    · exact .inr (.inl ⟨h,by simp only [finInput,hs,h]; rfl⟩)
    · exact .inr (.inr ⟨h,by simp only [finInput,hs,h]; rfl⟩)
  unfold dataInput
  split
  · rename_i h
    dsimp only
    split <;> split
    · exact ⟨.inr (hfin h),rfl,rfl⟩
    · exact ⟨.inl rfl,rfl,rfl⟩
    · exact ⟨.inr (hfin h),rfl,rfl⟩
    · exact ⟨.inl rfl,rfl,rfl⟩
  · exact ⟨.inl rfl,rfl,rfl⟩

theorem synchronizedInput_advance :
    Advance io.ticks p.toControl (synchronizedInput io p seg).pcb.toControl
      (synchronizedInput io p seg).freed ∧ (synchronizedInput io p seg).completed = false := by
  unfold synchronizedInput
  split
  · exact ⟨.stay,rfl⟩
  split
  · exact ⟨.stay,rfl⟩
  dsimp only
  have hc := (ackInput_senderOnly io p seg).control
  have ht := (ackInput_emits io p seg).ticks
  generalize ackInput io p seg = a at hc ht ⊢
  split
  · rename_i h
    have hs : p.state = .lastAck := by rw [← h.1,hc]
    refine ⟨?_,rfl⟩
    simp only [Outcome.free,hc]
    exact .lastAck hs
  have hst : a.1.state = p.state := by rw [hc]
  obtain ⟨hd,hf,hcomp⟩ := dataInput_control a.2 (finAcked a.2.ticks a.1 seg.ack) seg
  refine ⟨?_,hcomp⟩
  rw [hf]
  rw [ht] at hd ⊢
  rcases finAcked_control io.ticks a.1 seg.ack with hk | ⟨h1,hk⟩ | ⟨h1,hk⟩
  · rw [hk,hc] at hd
    rcases hd with hd | ⟨h2,hd⟩ | ⟨h2,hd⟩ | ⟨h2,hd⟩
    · rw [hd]; exact .stay
    · rw [hd]; exact .closeWait h2
    · rw [hd]; exact .closing h2
    · rw [hd]; exact .timeWait (.inr (.inl h2))
  · -- The acknowledged FIN came first; the peer's may be in the same segment.
    rw [hk,hc] at hd
    rw [hst] at h1
    rcases hd with hd | ⟨h2,_⟩ | ⟨h2,_⟩ | ⟨_,hd⟩
    · rw [hd]; exact .finWait2 h1
    · cases h2
    · cases h2
    · rw [hd]; exact .timeWait (.inl h1)
  rw [hk,hc] at hd
  rw [hst] at h1
  rcases hd with hd | ⟨h2,_⟩ | ⟨h2,_⟩ | ⟨h2,_⟩
  · rw [hd]; exact .timeWait (.inr (.inr h1))
  · cases h2
  · cases h2
  · cases h2

theorem rstInput_moves :
    Moves io.ticks p.toControl (rstInput io p seg).pcb.toControl (rstInput io p seg).freed
      (rstInput io p seg).completed := by
  unfold rstInput
  split
  · exact .reset (-104) p.expires
  · exact .advance .stay

theorem synSentInput_control : (synSentInput io p seg).pcb.toControl = p.toControl ∨
      (synSentInput io p seg).pcb.toControl = p.toControl.moveUntil .established 0 := by
  unfold synSentInput
  split
  · have ha := (acknowledge_senderOnly io.ticks (acceptSyn p seg) seg.ack).control
    have hw := (updateWindow_timersOnly io (acknowledge io.ticks
      (acceptSyn p seg) seg.ack) seg.window.toNat).control
    have hc := hw.trans ha
    right
    exact congrArg (fun c => c.moveUntil .established 0) hc
  · exact .inl rfl

theorem segmentArrives_moves : Moves io.ticks p.toControl (segmentArrives io p seg).pcb.toControl
      (segmentArrives io p seg).freed (segmentArrives io p seg).completed := by
  unfold segmentArrives
  split
  · exact rstInput_moves io p seg
  split
  · rename_i hs
    have hf : (synSentInput io p seg).freed = false ∧ (synSentInput io p seg).completed = false := by
      unfold synSentInput
      split <;> exact ⟨rfl,rfl⟩
    rw [hf.1,hf.2]
    rcases synSentInput_control io p seg with hc | hc
    · rw [hc]; exact .advance .stay
    · rw [hc]; exact .opened hs
  split
  · rename_i hs
    unfold synReceivedInput
    split
    · split <;> exact .advance .stay
    split
    · exact .complete hs (synchronizedInput_advance io (establish io.ticks p) seg).1
    · exact .advance .stay
  obtain ⟨h,hc⟩ := synchronizedInput_advance io p seg
  rw [hc]
  exact .advance h

end

theorem tickPcb_control (io : Io) (p : Pcb) (now : Nat) :
    (tickPcb io p now).freed = (expired p now && (p.detached || p.listener.isSome)) ∧
    (tickPcb io p now).completed = false ∧
    (tickPcb io p now).pcb.toControl =
      (if expired p now && !(p.detached || p.listener.isSome) then p.toControl.reset (-110) 0
        else p.toControl) := by
  unfold tickPcb
  cases he : expired p now with
  | true =>
    cases hh : p.detached || p.listener.isSome with
    | true => exact ⟨rfl,rfl,rfl⟩
    | false => exact ⟨rfl,rfl,rfl⟩
  | false =>
    simp only [Bool.false_and,Bool.false_eq_true,if_false]
    split
    · exact ⟨rfl,rfl,(sendSegment_senderOnly io p tcpAck [] true).control⟩
    split
    · refine ⟨rfl,rfl,?_⟩
      unfold retransmit
      split <;> rfl
    split
    · exact ⟨rfl,rfl,(sendPendingFin_senderOnly io p).control⟩
    · exact ⟨rfl,rfl,rfl⟩

theorem tickPcb_moves (io : Io) (p : Pcb) (now : Nat) :
    Moves io.ticks p.toControl (tickPcb io p now).pcb.toControl (tickPcb io p now).freed
      (tickPcb io p now).completed := by
  obtain ⟨hf,hd,hc⟩ := tickPcb_control io p now
  rw [hf,hd,hc]
  cases expired p now with
  | false => exact .advance .stay
  | true =>
    have hr : Moves io.ticks p.toControl _ _ _ := .reset (-110) 0
    cases hh : p.detached || p.listener.isSome with
    | false => rwa [hh] at hr
    | true => exact .gone

theorem closePcb_moves (io : Io) (p : Pcb) (hl : p.listener = none) :
    Moves io.ticks p.toControl (closePcb io p).pcb.toControl (closePcb io p).freed
      (closePcb io p).completed := by
  unfold closePcb
  split
  · rename_i h
    dsimp only [Outcome.return]
    rw [(sendPendingFin_senderOnly io _).control]
    rcases h with h | h
    · have hc : (detachPcb io.ticks p).toControl = p.toControl.detach .finWait1 (io.ticks+15000) := by
        simp [detachPcb,Control.detach,h]
      rw [hc]
      exact .close h hl
    have hc : (detachPcb io.ticks p).toControl = p.toControl.detach .lastAck (io.ticks+15000) := by
      simp [detachPcb,Control.detach,h]
    rw [hc]
    exact .closeLast h hl
  · exact .gone

theorem closePcb_kept (io : Io) {p : Pcb} (hf : (closePcb io p).freed = false) :
    (closePcb io p).pcb.detached = true ∧ (closePcb io p).pcb.state ≠ .timeWait ∧
      (closePcb io p).pcb.expires = io.ticks+15000 := by
  unfold closePcb at hf ⊢
  split
  · simp only [Outcome.return]
    rw [(sendPendingFin_senderOnly io (detachPcb io.ticks p)).control]
    refine ⟨rfl,?_,rfl⟩
    simp only [detachPcb]
    split <;> decide
  · rw [if_neg ‹_›] at hf
    cases hf

def Op.isSetup : Op → Bool
  | .bind _ _ | .listen _ | .connect _ _ _ _ | .accept => true
  | _ => false

theorem Op.run_moves (io : Io) (p : Pcb) (op : Op) (hen : op.Enabled p) (h : op.isSetup = false) :
    Moves io.ticks p.toControl (op.run io p).pcb.toControl (op.run io p).freed
      (op.run io p).completed := by
  cases op with
  | bind | listen | connect | accept => cases h
  | connectWait caller =>
    obtain ⟨hw,hp,-⟩ := connectWait_waitersOnly io p caller
    simp only [Op.run,hw.control,hp.freed,hp.completed]
    exact .advance .stay
  | send data =>
    obtain ⟨hs,hp⟩ := tcpSend_senderOnly io p data
    simp only [Op.run,hs.control,hp.freed,hp.completed]
    exact .advance .stay
  | recv caller len =>
    obtain ⟨hp,hc,-⟩ := tcpRecv_cases io p caller len
    simp only [Op.run,hc,hp.freed,hp.completed]
    exact .advance .stay
  | close => exact closePcb_moves io p hen.2
  | input seg => exact segmentArrives_moves io p seg
  | tick now => exact tickPcb_moves io p now

/-- What holds of every PCB on the list. A detached PCB is one that is closing and
has a deadline, and only handshakes and unaccepted connections have a listener. -/
structure ControlOk (c : Control) : Prop where
  detached : c.detached = c.state.isClosing
  deadline : c.state.isClosing = true → c.expires ≠ 0
  child : c.listener.isSome = true →
    c.state = .synReceived ∨ c.state = .established ∨ c.state = .closeWait

variable {c d : Control} {now : Nat} {freed : Bool} {op : Op}

theorem ControlOk.child_open (h : ControlOk c) (hl : c.listener.isSome = true) :
    c.state.isClosing = false := by
  rcases h.child hl with hc | hc | hc <;> rw [hc] <;> rfl

theorem Advance.controlOk (hm : Advance now c d false) (h : ControlOk c) : ControlOk d := by
  have hcl : c.state.isClosing = true → ¬ c.listener.isSome = true := by
    intro hs hl
    simp [h.child_open hl] at hs
  generalize hfree : false = freed at hm
  cases hm with
  | stay => exact h
  | closeWait hs =>
    refine ⟨?_,nofun,fun _ => .inr (.inr rfl)⟩
    exact h.detached.trans (by rw [hs]; rfl)
  | finWait2 hs | closing hs =>
    have hc : c.state.isClosing = true := by rw [hs]; rfl
    exact ⟨h.detached.trans hc,fun _ => h.deadline hc,fun hl => absurd hl (hcl hc)⟩
  | timeWait hs =>
    have hc : c.state.isClosing = true := by rcases hs with hs | hs | hs <;> rw [hs] <;> rfl
    exact ⟨h.detached.trans hc,fun _ => Nat.succ_ne_zero _,fun hl => absurd hl (hcl hc)⟩
  | lastAck hs =>
    rw [h.detached,hs] at hfree
    cases hfree

theorem Advance.live (hm : Advance now c d false) (h : ControlOk c) (hl : c.state.isLive = true) :
    d.state.isLive = true := by
  generalize hfree : false = freed at hm
  cases hm with
  | stay => exact hl
  | closeWait | finWait2 | closing | timeWait => rfl
  | lastAck hs =>
    rw [h.detached,hs] at hfree
    cases hfree

theorem Moves.controlOk {completed : Bool} (hm : Moves now c d false completed) (h : ControlOk c) :
    ControlOk d := by
  generalize hfree : false = freed at hm
  cases hm with
  | advance ha => subst hfree; exact ha.controlOk h
  | complete hs ha =>
    subst hfree
    exact ha.controlOk ⟨h.detached.trans (by rw [hs]; rfl),nofun,fun _ => .inr (.inl rfl)⟩
  | opened hs =>
    exact ⟨h.detached.trans (by rw [hs]; rfl),nofun,fun _ => .inr (.inl rfl)⟩
  | reset error deadline =>
    obtain ⟨hd,hl⟩ := Bool.or_eq_false_iff.mp hfree.symm
    exact ⟨hd,nofun,fun hn => by simp [Control.reset,hl] at hn⟩
  | close _ hl | closeLast _ hl =>
    exact ⟨rfl,fun _ => Nat.succ_ne_zero _,fun hn => by simp [Control.detach,hl] at hn⟩
  | gone => cases hfree

theorem connectPcb_control (io : Io) (p : Pcb) (ifaceIp addr : BitVec 32) (port : BitVec 16)
    (iss : BitVec 32) :
    ((connectPcb io p ifaceIp addr port iss).pcb.toControl =
        (startConnect io.ticks p ifaceIp addr port iss).toControl ∧
        (connectPcb io p ifaceIp addr port iss).result = .blocked ∨
      (connectPcb io p ifaceIp addr port iss).pcb.toControl =
        (startConnect io.ticks p ifaceIp addr port iss).toControl.moveTo .closed ∧
        (connectPcb io p ifaceIp addr port iss).result = .code (-12)) ∧
    (connectPcb io p ifaceIp addr port iss).freed = false ∧
    (connectPcb io p ifaceIp addr port iss).completed = false := by
  have hc := (sendSegment_senderOnly io (startConnect io.ticks p ifaceIp addr port iss)
    tcpSyn [] false).control
  unfold connectPcb
  dsimp only
  split
  · exact ⟨.inl ⟨hc,rfl⟩,rfl,rfl⟩
  · exact ⟨.inr ⟨congrArg (fun c => c.moveTo .closed) hc,rfl⟩,rfl,rfl⟩

theorem Op.run_controlOk (io : Io) (p : Pcb) (op : Op) (hen : op.Enabled p)
    (h : ControlOk p.toControl) (hf : (op.run io p).freed = false) :
    ControlOk (op.run io p).pcb.toControl := by
  cases op with
  | bind ip port => exact ⟨h.detached,h.deadline,h.child⟩
  | listen backlog =>
    simp only [Op.run,listenPcb]
    split
    · exact h
    rename_i hs
    have hs : p.state = .closed := by by_contra hn; exact hs (.inl hn)
    exact ⟨h.detached.trans (by rw [hs]; rfl),nofun, fun hn => by simp [Outcome.return,hen.2] at hn⟩
  | accept =>
    have hs := h.child_open hen
    exact ⟨h.detached,fun hn => by simp [Op.run,Outcome.keep,acceptPcb,hs] at hn,nofun⟩
  | connect ifaceIp addr port iss =>
    obtain ⟨⟨hd,hl⟩,hst⟩ := hen
    rcases (connectPcb_control io p ifaceIp addr port iss).1 with ⟨hc,-⟩ | ⟨hc,-⟩
    · simp only [Op.run]
      rw [hc]
      exact ⟨hd,nofun,fun hn => by simp [startConnect,hl] at hn⟩
    simp only [Op.run]
    rw [hc]
    exact ⟨hd,nofun,fun hn => by simp [Control.moveTo,startConnect,hl] at hn⟩
  | connectWait caller | send data | recv caller len | close | input seg | tick now =>
    have hm := Op.run_moves io p _ hen rfl
    rw [hf] at hm
    exact hm.controlOk h

structure SameEnds (c d : Control) : Prop where
  addr : d.addr = c.addr
  localIp : d.localIp = c.localIp
  localPort : d.localPort = c.localPort
  remoteIp : d.remoteIp = c.remoteIp
  remotePort : d.remotePort = c.remotePort
  listener : d.listener = c.listener

theorem Advance.sameEnds (h : Advance now c d freed) : SameEnds c d := by
  cases h <;> exact ⟨rfl,rfl,rfl,rfl,rfl,rfl⟩

section
variable {completed : Bool} (h : Moves now c d freed completed)
include h

theorem Moves.sameEnds : SameEnds c d := by
  cases h with
  | advance h => exact h.sameEnds
  | complete _ h =>
    obtain ⟨h₁,h₂,h₃,h₄,h₅,h₆⟩ := h.sameEnds
    exact ⟨h₁,h₂,h₃,h₄,h₅,h₆⟩
  | opened | reset | close | closeLast | gone => exact ⟨rfl,rfl,rfl,rfl,rfl,rfl⟩

theorem Moves.synReceived (hd : d.state = .synReceived) : c.state = .synReceived ∧ completed = false := by
  cases h with
  | advance h => cases h <;> first | exact ⟨hd,rfl⟩ | cases hd
  | complete _ h => cases h <;> cases hd
  | opened | reset | close | closeLast => cases hd
  | gone => exact ⟨hd,rfl⟩

end

theorem Moves.handshake {completed : Bool} (h : Moves now c d false completed)
    (hs : c.state = .synReceived) (hl : c.listener.isSome = true) :
    completed = true ∨ d.state = .synReceived := by
  generalize hfree : false = freed at h
  cases h with
  | advance h =>
    cases h with
    | stay => exact .inr hs
    | closeWait h | finWait2 h | closing h | lastAck h => simp [hs] at h
    | timeWait h => simp [hs] at h
  | complete => exact .inl rfl
  | opened h | close h _ | closeLast h _ => simp [hs] at h
  | reset => simp [hl] at hfree
  | gone => cases hfree

theorem Moves.completed (h : Moves now c d freed true) : c.state = .synReceived := by
  cases h with
  | complete hs => exact hs

section
variable {completed : Bool} (h : Moves now c d freed completed)
include h

theorem Moves.entered {st : TcpState} (hst : st = .synSent ∨ st = .listen) (hd : d.state = st) :
    c.state = st := by
  rcases hst with rfl | rfl <;> cases h with
  | advance h => cases h <;> first | exact hd | cases hd
  | complete _ h => cases h <;> cases hd
  | opened | reset | close | closeLast => cases hd
  | gone => exact hd

theorem Moves.attached (hd : d.detached = false) : c.detached = false := by
  cases h with
  | advance h => cases h <;> exact hd
  | complete _ h => cases h <;> exact hd
  | opened | reset | gone => exact hd
  | close | closeLast => cases hd

end

section
variable (io : Io) (p : Pcb) (hen : op.Enabled p)
include hen

theorem Op.run_fixed :
    (op.run io p).pcb.addr = p.addr ∧ (op ≠ .accept → (op.run io p).pcb.listener = p.listener) := by
  cases op with
  | bind => exact ⟨rfl,fun _ => rfl⟩
  | accept => exact ⟨rfl,fun hna => absurd rfl hna⟩
  | listen backlog =>
    simp only [Op.run,listenPcb]
    split <;> exact ⟨rfl,fun _ => rfl⟩
  | connect ifaceIp addr port iss =>
    simp only [Op.run]
    rcases (connectPcb_control io p ifaceIp addr port iss).1 with ⟨hc,-⟩ | ⟨hc,-⟩ <;> rw [hc] <;>
      exact ⟨rfl,fun _ => rfl⟩
  | connectWait | send | recv | close | input | tick =>
    have h := (Op.run_moves io p _ hen rfl).sameEnds
    exact ⟨h.addr,fun _ => h.listener⟩

theorem Op.run_attached (hd : (op.run io p).pcb.detached = false) : p.detached = false := by
  cases op with
  | bind | accept => exact hd
  | listen => exact hen.1
  | connect => exact hen.1.1
  | connectWait | send | recv | close | input | tick =>
    exact (Op.run_moves io p _ hen rfl).attached hd

theorem Op.run_synSent (hs : (op.run io p).pcb.state = .synSent) :
    op.isConnect = true ∨ p.state = .synSent := by
  cases op with
  | bind | accept => exact .inr hs
  | listen backlog =>
    simp only [Op.run,listenPcb] at hs
    split at hs
    · exact .inr hs
    · cases hs
  | connect => exact .inl rfl
  | connectWait | send | recv | close | input | tick =>
    exact .inr ((Op.run_moves io p _ hen rfl).entered (.inl rfl) hs)

end

theorem Op.notSetup {p : Pcb} (hen : op.Enabled p) (hna : op ≠ .accept) (hl : p.listener.isSome = true) :
    op.isSetup = false := by
  have hn : p.listener ≠ none := fun hn => by simp [hn] at hl
  cases op with
  | bind | connect => exact absurd hen.1.2 hn
  | listen => exact absurd hen.2 hn
  | accept => exact absurd rfl hna
  | connectWait | send | recv | close | input | tick => rfl

section
variable (io : Io) (p : Pcb)

theorem dataInput_backlog (seg : Segment) : (dataInput io p seg).pcb.toBacklog = p.toBacklog := by
  have hf : (finInput io.ticks (takePayload p seg)).toBacklog = p.toBacklog := by
    unfold finInput
    split <;> rfl
  unfold dataInput
  split
  · dsimp only
    split <;> split
    · exact hf
    · rfl
    · exact hf
    · rfl
  · rfl

theorem synchronizedInput_backlog (seg : Segment) :
    (synchronizedInput io p seg).pcb.toBacklog = p.toBacklog := by
  unfold synchronizedInput
  split
  · rfl
  split
  · rfl
  have ha := (ackInput_senderOnly io p seg).backlog
  dsimp only
  generalize ackInput io p seg = a at ha ⊢
  split
  · exact ha
  have hf : (finAcked a.2.ticks a.1 seg.ack).toBacklog = a.1.toBacklog := by
    unfold finAcked
    dsimp only
    split <;> split <;> rfl
  rw [dataInput_backlog,hf]
  exact ha

theorem segmentArrives_backlog (seg : Segment) :
    (segmentArrives io p seg).pcb.toBacklog = p.toBacklog := by
  unfold segmentArrives
  split
  · unfold rstInput
    split <;> rfl
  split
  · unfold synSentInput
    split
    · exact (updateWindow_timersOnly io _ _).backlog.trans
        (acknowledge_senderOnly io.ticks (acceptSyn p seg) seg.ack).backlog
    · rfl
  split
  · unfold synReceivedInput
    split
    · split <;> rfl
    split
    · exact synchronizedInput_backlog io (establish io.ticks p) seg
    · rfl
  · exact synchronizedInput_backlog io p seg

theorem Op.run_toBacklog (hno : ∀ b, op ≠ .listen b) : (op.run io p).pcb.toBacklog = p.toBacklog := by
  cases op with
  | bind | accept => rfl
  | listen backlog => exact absurd rfl (hno backlog)
  | connect ifaceIp addr port iss =>
    have hb := (sendSegment_senderOnly io (startConnect io.ticks p ifaceIp addr port iss)
      tcpSyn [] false).backlog
    simp only [Op.run,connectPcb]
    split <;> exact hb
  | connectWait caller => exact (connectWait_waitersOnly io p caller).1.backlog
  | send data => exact (tcpSend_senderOnly io p data).1.backlog
  | recv caller len => exact (tcpRecv_cases io p caller len).2.2.2.1
  | close =>
    simp only [Op.run,closePcb]
    split
    · exact (sendPendingFin_senderOnly io (detachPcb io.ticks p)).backlog
    · rfl
  | input seg => exact segmentArrives_backlog io p seg
  | tick now =>
    simp only [Op.run,tickPcb]
    split
    · split <;> rfl
    split
    · exact (sendSegment_senderOnly io p tcpAck [] true).backlog
    split
    · unfold retransmit
      split <;> rfl
    split
    · exact (sendPendingFin_senderOnly io p).backlog
    · rfl

theorem Op.run_backlog (op : Op) : (op.run io p).pcb.acceptQueue = p.acceptQueue ∧
      (op.run io p).pcb.pendingCount = p.pendingCount := by
  by_cases hno : ∀ b, op ≠ .listen b
  · have h := Op.run_toBacklog io p hno
    exact ⟨congrArg Backlog.acceptQueue h,congrArg Backlog.pendingCount h⟩
  obtain ⟨b,rfl⟩ : ∃ b, op = .listen b := by simpa using hno
  simp only [Op.run,listenPcb]
  split <;> exact ⟨rfl,rfl⟩

theorem Op.run_listening (hen : op.Enabled p) (hs : (op.run io p).pcb.state = .listen) :
    (p.state = .listen ∧ (op.run io p).pcb.backlog = p.backlog) ∨
      (p.state = .closed ∧ 1 ≤ (op.run io p).pcb.backlog) := by
  cases op with
  | listen backlog =>
    simp only [Op.run,listenPcb] at hs ⊢
    split
    · rw [if_pos ‹_›] at hs
      exact .inl ⟨hs,rfl⟩
    rename_i hguard
    refine .inr ⟨by by_contra hn; exact hguard (.inl hn),?_⟩
    dsimp only [Outcome.return]
    split
    · omega
    · split <;> omega
  | bind => exact .inl ⟨hs,rfl⟩
  | accept => exact .inl ⟨hs,rfl⟩
  | connect ifaceIp addr port iss =>
    simp only [Op.run] at hs
    rcases (connectPcb_control io p ifaceIp addr port iss).1 with ⟨hc,-⟩ | ⟨hc,-⟩ <;>
      · rw [hc] at hs
        cases hs
  | connectWait | send | recv | close | input | tick =>
    exact .inl ⟨(Op.run_moves io p _ hen rfl).entered (.inr rfl) hs,
      congrArg Backlog.backlog (Op.run_toBacklog io p (by simp))⟩

theorem Op.run_synReceived (hen : op.Enabled p) (hs : (op.run io p).pcb.state = .synReceived) :
    p.state = .synReceived ∧ (op.run io p).completed = false := by
  cases op with
  | bind | accept => exact ⟨hs,rfl⟩
  | listen backlog =>
    simp only [Op.run,listenPcb] at hs ⊢
    split
    · rw [if_pos ‹_›] at hs
      exact ⟨hs,rfl⟩
    · rw [if_neg ‹_›] at hs
      cases hs
  | connect ifaceIp addr port iss =>
    simp only [Op.run] at hs
    rcases (connectPcb_control io p ifaceIp addr port iss).1 with ⟨hc,-⟩ | ⟨hc,-⟩ <;>
      · rw [hc] at hs
        cases hs
  | connectWait | send | recv | close | input | tick =>
    exact (Op.run_moves io p _ hen rfl).synReceived hs

end

end Rucux.Net
