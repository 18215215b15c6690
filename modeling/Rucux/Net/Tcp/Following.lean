import Rucux.Net.Tcp.Receiving
import Rucux.Net.Tcp.SendInvariant

namespace Rucux.Net
open Lib List
open Lib.Serial (offset)

def TcpState.isOpen : TcpState → Bool
  | .synReceived | .established | .closeWait => true
  | _ => false

/-- `stored` and `returned` are what a PCB has taken from the stream `sent`, which starts
at `iss` and is over once it cannot grow; `fin` says that the FIN has been taken. -/
structure Follows (iss : BitVec 32) (sent : List UInt8) (finished : Bool) (p : Pcb)
    (stored returned : List UInt8) (fin : Bool) : Prop where
  ring : RingOk p stored returned
  within : stored <+: sent
  opening : p.state = .synSent → stored = [] ∧ fin = false
  next : p.state.isOpen = true → p.rcvNxt = offset iss (1+stored.length+fin.toNat)
  ended : fin = true → stored = sent ∧ finished = true
  closeWait : p.state = .closeWait → fin = true

variable {iss : BitVec 32} {sent stored returned : List UInt8} {finished fin : Bool} {p : Pcb}

section
variable (h : Follows iss sent finished p stored returned fin)
include h

theorem Follows.grow {sent' : List UInt8} {finished' : Bool} (hs : sent <+: sent')
    (ho : finished = true → sent' = sent ∧ finished' = true) :
    Follows iss sent' finished' p stored returned fin :=
  ⟨h.ring,h.within.trans hs,h.opening,h.next,fun hf => by
    obtain ⟨rfl,hfinished⟩ := h.ended hf
    obtain ⟨rfl,ho'⟩ := ho hfinished
    exact ⟨rfl,ho'⟩,h.closeWait⟩

theorem Follows.closed {q : Pcb} {returned' : List UInt8} (hr : RingOk q stored returned')
    (hs : q.state = .closed) :
    Follows iss sent finished q stored returned' fin where
  ring := hr
  within := h.within
  opening hn := by rw [hs] at hn; cases hn
  next hn := by rw [hs] at hn; cases hn
  ended := h.ended
  closeWait hn := by rw [hs] at hn; cases hn

end

theorem Op.run_state (io : Io) (p : Pcb) {op : Op} (hno : ∀ seg, op ≠ .input seg)
    (hset : op.isSetup = false ∨ op = .accept) (hf : (op.run io p).freed = false)
    (hd : (op.run io p).pcb.detached = false) :
    (op.run io p).pcb.state = p.state ∨ (op.run io p).pcb.state = .closed := by
  cases op with
  | bind | listen | connect => simp [Op.isSetup] at hset
  | accept => exact .inl rfl
  | connectWait caller => exact .inl (congrArg Control.state (connectWait_waitersOnly io p caller).1.control)
  | send data => exact .inl (congrArg Control.state (tcpSend_senderOnly io p data).1.control)
  | recv caller len => exact .inl (congrArg Control.state (tcpRecv_cases io p caller len).2.1)
  | close =>
    have hd : (closePcb io p).pcb.detached = false := hd
    simp [(closePcb_kept io hf).1] at hd
  | input seg => exact absurd rfl (hno seg)
  | tick now =>
    have hc := congrArg Control.state (tickPcb_control io p now).2.2
    rw [Op.run,hc]
    split
    · exact .inr rfl
    · exact .inl rfl

theorem Follows.run (h : Follows iss sent finished p stored returned fin) (io : Io) {op : Op}
    (hctl : ControlOk p.toControl) (hno : ∀ seg, op ≠ .input seg)
    (hset : op.isSetup = false ∨ op = .accept) (hd : p.detached = false)
    (hf : (op.run io p).freed = false) (hd' : (op.run io p).pcb.detached = false) :
    Follows iss sent finished (op.run io p).pcb stored
      (returned ++ op.returnedBytes (op.run io p).result) fin := by
  obtain ⟨hn,hst⟩ := Op.run_rcvNxt_same io p hno
  have hring := Op.run_ringOk io h.ring hctl hd hd'
  rw [hst,append_nil] at hring
  rcases Op.run_state io p hno hset hf hd' with hs | hs
  · exact ⟨hring,h.within,by rw [hs]; exact h.opening,by rw [hs,hn]; exact h.next,h.ended,
      by rw [hs]; exact h.closeWait⟩
  · exact h.closed hring hs

theorem ControlOk.isOpen (hctl : ControlOk p.toControl) (hd : p.detached = false)
    (hc : p.state ≠ .closed) (hl : p.state ≠ .listen) (hs : p.state ≠ .synSent) :
    p.state.isOpen = true := by
  have hcl : p.state.isClosing = false := hctl.detached.symm.trans hd
  cases h : p.state <;> simp_all [TcpState.isOpen,TcpState.isClosing]

theorem rstInput_follows (h : Follows iss sent finished p stored returned fin) (io : Io)
    (seg : Segment) : Follows iss sent finished (rstInput io p seg).pcb
      (stored ++ (rstInput io p seg).stored) returned fin := by
  unfold rstInput
  split
  · rw [show stored ++ (Outcome.free (resetLocked p) io _).stored = stored from append_nil _]
    exact h.closed (h.ring.transfer rfl) rfl
  · rw [show stored ++ (Outcome.keep p io).stored = stored from append_nil _]
    exact h

section
variable (h : Follows iss sent finished p stored returned fin) (ho : p.state.isOpen = true) {seg : Segment}
  (hw : OnWire iss sent finished seg) (hlen : sent.length < 2^31) (hseq : seg.seq = p.rcvNxt)
include h ho hw hlen hseq

theorem Follows.continues (n : Nat) : stored ++ seg.payload.take n <+: sent := by
  by_cases hp : seg.payload = []
  · rw [hp,take_nil,append_nil]
    exact h.within
  obtain ⟨k,hk,hpre⟩ := hw.data hp
  have hks : k < sent.length := by
    by_contra hn
    rw [drop_of_length_le (by omega)] at hpre
    exact hp (prefix_nil.mp hpre)
  have hle := h.within.length_le
  have hpos : k+1 = 1+stored.length+fin.toNat := by
    have hf := Bool.toNat_le fin
    refine Serial.offset_inj iss (by omega) (by omega) ?_
    rw [← hk,hseq,h.next ho]
  cases hfin : fin with
  | true =>
    -- everything is stored already, so there is no position for the payload
    have hall := (h.ended hfin).1
    rw [hfin,hall] at hpos
    simp at hpos
    omega
  | false =>
    have hk : k = stored.length := by rw [hfin] at hpos; simp at hpos; omega
    obtain ⟨rest,rfl⟩ := h.within
    rw [hk,drop_left] at hpre
    exact prefix_append_right_inj stored |>.mpr (( take_prefix _ _).trans hpre)

theorem Follows.atEnd (hf : seg.fin = true) :
    fin = false ∧ stored = sent ∧ finished = true ∧ seg.payload = [] := by
  obtain ⟨hp,hpos,hfinished⟩ := hw.fin hf
  have hle := h.within.length_le
  have hpos : sent.length+1 = 1+stored.length+fin.toNat := by
    have hf := Bool.toNat_le fin
    refine Serial.offset_inj iss (by omega) (by omega) ?_
    rw [← hpos,hseq,h.next ho]
  cases hfin : fin with
  | true =>
    rw [hfin,(h.ended hfin).1] at hpos
    simp at hpos
  | false =>
    rw [hfin] at hpos
    exact ⟨rfl,h.within.eq_of_length (by simp at hpos; omega),hfinished,hp⟩

end

theorem Follows.input (h : Follows iss sent finished p stored returned fin) (io : Io) {seg : Segment}
    (hctl : ControlOk p.toControl) (hw : OnWire iss sent finished seg) (hlen : sent.length < 2^31)
    (hc : p.state ≠ .closed) (hl : p.state ≠ .listen) (hd : p.detached = false)
    (hd' : (segmentArrives io p seg).pcb.detached = false) :
    ∃ fin', Follows iss sent finished (segmentArrives io p seg).pcb
      (stored ++ (segmentArrives io p seg).stored) returned fin' := by
  have hring : RingOk (segmentArrives io p seg).pcb (stored ++ (segmentArrives io p seg).stored)
      returned := by
    have hr : RingOk ((Op.input seg).run io p).pcb (stored ++ ((Op.input seg).run io p).stored)
        (returned ++ []) := Op.run_ringOk io h.ring hctl hd hd'
    rwa [append_nil] at hr
  by_cases hrst : seg.rst = true
  · rw [segmentArrives,if_pos hrst]
    exact ⟨fin,rstInput_follows h io seg⟩
  by_cases hs : p.state = .synSent
  · have hsyn : segmentArrives io p seg = synSentInput io p seg := by
      rw [segmentArrives,if_neg hrst,if_pos hs]
    obtain ⟨rfl,rfl⟩ := h.opening hs
    rw [hsyn] at hring ⊢
    rcases synSentInput_cases io p seg with hk | ⟨hsyn,hst,-,-,hnxt,he⟩
    · rw [hk]
      exact ⟨false,h⟩
    refine ⟨false,hring,by rw [hst]; exact nil_prefix,?_,?_,by simp,?_⟩
    · rw [he]
      simp
    · intro _
      rw [hnxt,(hw.syn hsyn).1,hst]
      rfl
    · rw [he]
      simp
  have ho := hctl.isOpen hd hc hl hs
  cases segmentArrives_received io hctl seg with
  | nothing hr hst hcw =>
    rw [hst,append_nil] at hring ⊢
    refine ⟨fin,hring,h.within,fun hn => ?_,fun _ => ?_,h.ended,fun hn => h.closeWait (hcw hn)⟩
    · exact absurd ((segmentArrives_moves io p seg).entered (.inl rfl) hn) hs
    rw [hr]
    exact h.next ho
  | opened hss => exact absurd hss hs
  | taken taken hseq hstate hst hbuf hwnd hnxt hfin hcw =>
    obtain ⟨hbytes,hsize,-⟩ := storedBytes_attached hd seg
    have hwithin : stored ++ (segmentArrives io p seg).stored <+: sent := by
      rw [hst,hbytes]
      exact h.continues ho hw hlen hseq _
    refine ⟨fin || taken,hring,hwithin,fun hn => ?_,fun _ => ?_,?_,fun hn => ?_⟩
    · exact absurd ((segmentArrives_moves io p seg).entered (.inl rfl) hn) hs
    · have hboth : fin.toNat+taken.toNat = (fin || taken).toNat := by
        cases taken with
        | false => simp
        | true => rw [(h.atEnd ho hw hlen hseq (hfin rfl).1).1]; rfl
      rw [hnxt,h.next ho,Serial.offset_add,hst,length_append,hsize,← hboth]
      congr 1
      omega
    · intro hn
      rcases Bool.or_eq_true_iff.mp hn with hn | rfl
      · obtain ⟨rfl,hfinished⟩ := h.ended hn
        obtain ⟨rest,hrest⟩ := hwithin
        have hnil : (segmentArrives io p seg).stored = [] := by
          have hl := congrArg length hrest
          simp only [length_append] at hl
          exact length_eq_zero_iff.mp (by omega)
        rw [hnil,append_nil]
        exact ⟨rfl,hfinished⟩
      obtain ⟨-,hall,hfinished,hp⟩ := h.atEnd ho hw hlen hseq (hfin rfl).1
      rw [hst,hbytes,hp,take_nil,append_nil]
      exact ⟨hall,hfinished⟩
    · rw [(hcw.mp hn).1,Bool.or_true]

end Rucux.Net
