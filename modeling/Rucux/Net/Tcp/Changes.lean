import Rucux.Net.Tcp.Layer
import Rucux.Net.Tcp.Lifecycle

namespace Rucux.Net
open Lib List Tcp

structure BacklogOnly (p q : Pcb) : Prop where
  control : q.toControl = p.toControl
  sender : q.toSender = p.toSender
  receiver : q.toReceiver = p.toReceiver

theorem backlogOnly_refl (p : Pcb) : BacklogOnly p p := ⟨rfl,rfl,rfl⟩

theorem BacklogOnly.ite {p q : Pcb} (h : BacklogOnly p q) (c : Prop) [Decidable c] :
    BacklogOnly p (if c then q else p) := by
  split
  · exact h
  · exact backlogOnly_refl p

theorem WaitersOnly.backlogOnly {p q : Pcb} (h : WaitersOnly p q) : BacklogOnly p q :=
  ⟨h.control,h.sender,h.receiver⟩

theorem dropChild_backlogOnly (a : Nat) (l : Pcb) : BacklogOnly l (dropChild a l) :=
  ⟨rfl,rfl,rfl⟩

theorem queueChild_backlogOnly (a : Nat) (l : Pcb) : BacklogOnly l (queueChild a l) :=
  ⟨rfl,rfl,rfl⟩

theorem addPending_backlogOnly (l : Pcb) : BacklogOnly l (addPending l) := ⟨rfl,rfl,rfl⟩

theorem takeChild_backlogOnly (l : Pcb) : BacklogOnly l (takeChild l) := ⟨rfl,rfl,rfl⟩

namespace Tcp

section
variable {s : Tcp}

theorem find_mem {a : Nat} {p : Pcb} (h : s.find a = some p) : p ∈ s.pcbs ∧ p.addr = a :=
  ⟨mem_of_find?_eq_some h,by simpa using find?_some h⟩

theorem find_none {a : Nat} (h : s.find a = none) : a ∉ s.addrs := by
  intro hm
  obtain ⟨p,hp,ha⟩ := mem_map.mp hm
  have hn := find?_eq_none.mp h p hp
  simp [ha] at hn

theorem mem_addrs {p : Pcb} (h : p ∈ s.pcbs) : p.addr ∈ s.addrs :=
  mem_map.mpr ⟨p,h,rfl⟩

theorem eq_of_addr (hn : s.addrs.Nodup) {p q : Pcb} (hp : p ∈ s.pcbs) (hq : q ∈ s.pcbs)
    (h : p.addr = q.addr) : p = q := inj_on_of_nodup_map hn hp hq h

theorem find_of_mem (hn : s.addrs.Nodup) {p : Pcb} (hp : p ∈ s.pcbs) : s.find p.addr = some p := by
  cases h : s.find p.addr with
  | none => exact absurd (mem_addrs hp) (find_none h)
  | some q =>
    obtain ⟨hq,ha⟩ := find_mem h
    rw [eq_of_addr hn hq hp ha]

theorem held_mem {a : Nat} {p : Pcb} (h : s.held a = some p) : p ∈ s.pcbs ∧ p.addr = a ∧ p.Owned := by
  obtain ⟨hf,ho⟩ := Option.filter_eq_some_iff.mp h
  obtain ⟨hm,ha⟩ := find_mem hf
  refine ⟨hm,ha,?_⟩
  simpa [Pcb.Owned] using ho

theorem map_addrs {g : Pcb → Pcb} (hg : ∀ p ∈ s.pcbs, (g p).addr = p.addr) :
    (s.pcbs.map g).map (·.addr) = s.addrs := by
  rw [map_map]
  exact map_congr_left hg

theorem freeLocked_origin {p q : Pcb} (hq : q ∈ (s.freeLocked p).pcbs) :
    q.addr ≠ p.addr ∧ ∃ r ∈ s.pcbs, BacklogOnly r q := by
  unfold freeLocked at hq
  split at hq
  · obtain ⟨hm,hne⟩ := mem_filter.mp hq
    exact ⟨by simpa using hne,q,hm,backlogOnly_refl q⟩
  obtain ⟨hm,hne⟩ := mem_filter.mp hq
  obtain ⟨r,hr,rfl⟩ := mem_map.mp hm
  exact ⟨by simpa using hne,r,hr,(dropChild_backlogOnly _ _).ite _⟩

end

end Tcp

/-- What holds of the list in every reachable state: PCBs have their own addresses,
and whatever stands in an accept queue is a connection of that listener. -/
structure Wf (s : Tcp) : Prop where
  nodup : s.addrs.Nodup
  control : ∀ p ∈ s.pcbs, ControlOk p.toControl
  linked : ∀ p ∈ s.pcbs, p.acceptQueue.Linked
  queued : ∀ l ∈ s.pcbs, ∀ a ∈ l.acceptQueue.addrs, ∃ c ∈ s.pcbs,
    c.addr = a ∧ c.listener = some l.addr ∧ c.state ≠ .synReceived

/-- One change of the list and the log. `ok` bounds the operations that are run. -/
inductive Change (ok : Pcb → Op → Prop) (s : Tcp) : Tcp → Prop where
  | quiet {t : Tcp} (extra : List Entry) (ht : t.pcbs = s.pcbs) (hl : t.log = s.log ++ extra)
      (hx : ∀ e ∈ extra, e.addr ∉ s.addrs) : Change ok s t
  | waiter {t : Tcp} (a : Nat) (f : Pcb → Pcb)
      (hf : ∀ p ∈ s.pcbs, p.addr = a → WaitersOnly p (f p))
      (ht : t.pcbs = (s.update a f).pcbs) (hl : t.log = s.log) : Change ok s t
  | born {t : Tcp} {a : Nat} (ha : a ∉ s.addrs) (ht : t.pcbs = Pcb.fresh a :: s.pcbs)
      (hl : t.log = s.log ++ [.born a]) : Change ok s t
  | child {t : Tcp} {l : Pcb} {a : Nat} {io : Io} {iss : BitVec 32} {seg : Segment}
      (ha : a ∉ s.addrs) (hm : 1 ≤ seg.mss ∧ seg.mss ≤ localMss)
      (hfind : findPcb s.pcbs seg.dstIp seg.dstPort seg.srcIp seg.srcPort = some l)
      (hs : l.state = .listen) (hroom : l.pendingCount < l.backlog)
      (hok : (sendSegment io (synChild io.ticks a l.addr iss seg) (tcpSyn ||| tcpAck) [] false).ok = true)
      (ht : t.pcbs =
        (sendSegment io (synChild io.ticks a l.addr iss seg) (tcpSyn ||| tcpAck) [] false).pcb ::
          (s.update l.addr addPending).pcbs)
      (hl : t.log = s.log ++ [.born a]) : Change ok s t
  | ran {t : Tcp} {p : Pcb} {op : Op} (hp : p ∈ s.pcbs) (hen : op.Enabled p) (hok : ok p op)
      (hna : op ≠ .accept) (hf : (op.run s.io p).freed = false)
      (hq : (op.run s.io p).completed = false ∨ p.listener = none)
      (ht : t.pcbs = (s.update p.addr fun _ => (op.run s.io p).pcb).pcbs)
      (hl : t.log = s.log ++ [.ran p.addr (op.ran s.io (op.run s.io p))]) : Change ok s t
  | completed {t : Tcp} {p : Pcb} {op : Op} {l : Nat} (hp : p ∈ s.pcbs) (hen : op.Enabled p)
      (hok : ok p op) (hna : op ≠ .accept) (hf : (op.run s.io p).freed = false)
      (hc : (op.run s.io p).completed = true) (hlis : p.listener = some l)
      (ht : t.pcbs = ((s.update p.addr fun _ => (op.run s.io p).pcb).update l
        (queueChild p.addr)).pcbs)
      (hl : t.log = s.log ++ [.ran p.addr (op.ran s.io (op.run s.io p))]) : Change ok s t
  | freed {t : Tcp} {p : Pcb} (extra : List Entry) (hp : p ∈ s.pcbs)
      (hlast : p.state = .listen → ∀ c ∈ s.pcbs, c.listener ≠ some p.addr)
      (ht : t.pcbs = (s.freeLocked p).pcbs) (hl : t.log = s.log ++ extra)
      (hx : ∀ e ∈ extra, e.addr = p.addr) : Change ok s t
  | accepted {t : Tcp} {l c : Pcb} {rest : List (Nat × Unit)} (hl : l ∈ s.pcbs) (hc : c ∈ s.pcbs)
      (hok : ok c .accept) (hs : l.state = .listen)
      (hn : l.acceptQueue.nodes = (c.addr,()) :: rest) (hlis : c.listener = some l.addr)
      (ht : t.pcbs = ((s.update l.addr takeChild).update c.addr acceptPcb).pcbs)
      (hlog : t.log = s.log ++ [.ran c.addr (Op.accept.ran s.io (Op.accept.run s.io c))]) :
      Change ok s t

def Changes (ok : Pcb → Op → Prop) : Tcp → Tcp → Prop := Relation.ReflTransGen (Change ok)

variable {ok : Pcb → Op → Prop} {s t : Tcp}

section
variable (h : Wf s) {g : Pcb → Pcb} (ht : t.pcbs = s.pcbs.map g)
include h ht

theorem Wf.of_map (hg : ∀ p ∈ s.pcbs, (g p).addr = p.addr) (hctl : ∀ p ∈ s.pcbs, ControlOk (g p).toControl)
    (hlink : ∀ p ∈ s.pcbs, (g p).acceptQueue.Linked)
    (hqueue : ∀ l ∈ s.pcbs, ∀ a ∈ (g l).acceptQueue.addrs, ∃ c ∈ s.pcbs, c.addr = a ∧
      (g c).listener = some l.addr ∧ (g c).state ≠ .synReceived) :
    Wf t where
  nodup := by
    rw [addrs,ht,map_addrs hg]
    exact h.nodup
  control := by
    rw [ht]
    exact forall_mem_map.mpr hctl
  linked := by
    rw [ht]
    exact forall_mem_map.mpr hlink
  queued := by
    rw [ht]
    refine forall_mem_map.mpr fun l hl a ha => ?_
    obtain ⟨c,hc,hca,hlis,hs⟩ := hqueue l hl a ha
    exact ⟨g c,mem_map_of_mem hc,(hg c hc).trans hca,by rw [hg l hl]; exact hlis,hs⟩

theorem Wf.of_backlog (hb : ∀ p ∈ s.pcbs, BacklogOnly p (g p))
    (hq : ∀ p ∈ s.pcbs, (g p).acceptQueue = p.acceptQueue) : Wf t := by
  refine h.of_map ht (fun p hp => by rw [(hb p hp).control])
    (fun p hp => by rw [(hb p hp).control]; exact h.control p hp)
    (fun p hp => by rw [hq p hp]; exact h.linked p hp) fun l hl a ha => ?_
  rw [hq l hl] at ha
  obtain ⟨c,hc,hca,hlis,hs⟩ := h.queued l hl a ha
  exact ⟨c,hc,hca,by rw [(hb c hc).control]; exact hlis,by rw [(hb c hc).control]; exact hs⟩

end

theorem Wf.cons (h : Wf s) {p : Pcb} (ht : t.pcbs = p :: s.pcbs) (ha : p.addr ∉ s.addrs)
    (hctl : ControlOk p.toControl) (hq : p.acceptQueue = .empty) : Wf t where
  nodup := by
    rw [addrs,ht]
    exact nodup_cons.mpr ⟨ha,h.nodup⟩
  control := by
    rw [ht]
    exact forall_mem_cons.mpr ⟨hctl,h.control⟩
  linked := by
    rw [ht]
    exact forall_mem_cons.mpr ⟨by rw [hq]; exact LinkedQueue.linked_empty,h.linked⟩
  queued := by
    rw [ht]
    refine forall_mem_cons.mpr ⟨fun a ha => by simp [hq] at ha,fun l hl a ha => ?_⟩
    obtain ⟨c,hc,hrest⟩ := h.queued l hl a ha
    exact ⟨c,mem_cons_of_mem _ hc,hrest⟩

theorem fresh_controlOk (a : Nat) : ControlOk (Pcb.fresh a).toControl := ⟨rfl,nofun,nofun⟩

theorem synChild_controlOk (now a l : Nat) (iss : BitVec 32) (seg : Segment) :
    ControlOk (synChild now a l iss seg).toControl := ⟨rfl,nofun,fun _ => .inl rfl⟩

section
variable (h : Wf s) {p : Pcb} {op : Op} (hp : p ∈ s.pcbs) (hen : op.Enabled p) (hna : op ≠ .accept)
  (hf : (op.run s.io p).freed = false)
include h hp hen hna hf

theorem Wf.ran_map : ∀ q ∈ s.pcbs, let g := if q.addr = p.addr then (op.run s.io p).pcb else q
      g.addr = q.addr ∧ ControlOk g.toControl ∧ g.acceptQueue = q.acceptQueue ∧ g.listener = q.listener ∧
        (q.listener.isSome = true → q.state ≠ .synReceived → g.state ≠ .synReceived) := by
  intro q hq
  split
  · rename_i ha
    obtain rfl := eq_of_addr h.nodup hq hp ha
    refine ⟨(Op.run_fixed s.io q hen).1,Op.run_controlOk s.io q op hen (h.control q hq) hf,
      (Op.run_backlog s.io q op).1,(Op.run_fixed s.io q hen).2 hna,fun hl hs hn => ?_⟩
    exact hs ((Op.run_moves s.io q op hen (Op.notSetup hen hna hl)).synReceived hn).1
  · exact ⟨rfl,h.control q hq,rfl,rfl,fun _ hs => hs⟩

theorem Wf.ran (ht : t.pcbs = (s.update p.addr fun _ => (op.run s.io p).pcb).pcbs) : Wf t := by
  have hg := h.ran_map hp hen hna hf
  refine h.of_map ht (fun q hq => (hg q hq).1) (fun q hq => (hg q hq).2.1)
    (fun q hq => by rw [(hg q hq).2.2.1]; exact h.linked q hq) fun l hl a ha => ?_
  rw [(hg l hl).2.2.1] at ha
  obtain ⟨c,hc,hca,hlis,hs⟩ := h.queued l hl a ha
  have hgc := (hg c hc).2.2.2
  exact ⟨c,hc,hca,hgc.1.trans hlis,hgc.2 (by rw [hlis]; rfl) hs⟩

theorem Wf.completed {l : Nat} (hc : (op.run s.io p).completed = true) (hlis : p.listener = some l)
    (ht : t.pcbs = ((s.update p.addr fun _ => (op.run s.io p).pcb).update l (queueChild p.addr)).pcbs) :
    Wf t := by
  have hset : op.isSetup = false := Op.notSetup hen hna (by rw [hlis]; rfl)
  have hm := Op.run_moves s.io p op hen hset
  rw [hc] at hm
  have hsyn := hm.completed
  have hmid : Wf (s.update p.addr fun _ => (op.run s.io p).pcb) := h.ran hp hen hna hf rfl
  have hnew : (op.run s.io p).pcb ∈ (s.update p.addr fun _ => (op.run s.io p).pcb).pcbs :=
    mem_map.mpr ⟨p,hp,if_pos rfl⟩
  have haddr := (Op.run_fixed s.io p hen).1
  have hnl := ((Op.run_fixed s.io p hen).2 hna).trans hlis
  have hns : (op.run s.io p).pcb.state ≠ .synReceived := fun hn => by
    have := (hm.synReceived hn).2
    cases this
  -- The queue holds connections that have left SYN_RECEIVED, so not this one.
  have hfresh : ∀ q ∈ (s.update p.addr fun _ => (op.run s.io p).pcb).pcbs,
      p.addr ∉ q.acceptQueue.addrs := by
    intro q hq ha
    obtain ⟨r,hr,rfl⟩ := mem_map.mp hq
    have hrq : (if r.addr = p.addr then (op.run s.io p).pcb else r).acceptQueue = r.acceptQueue :=
      (h.ran_map hp hen hna hf r hr).2.2.1
    rw [hrq] at ha
    obtain ⟨c,hc',hca,-,hcs⟩ := h.queued r hr _ ha
    exact hcs (by rw [eq_of_addr h.nodup hc' hp hca]; exact hsyn)
  generalize s.update p.addr (fun _ => (op.run s.io p).pcb) = m at hmid hnew hfresh ht
  generalize (op.run s.io p).pcb = o at hnew haddr hnl hns
  have hsame : ∀ q : Pcb, BacklogOnly q (if q.addr = l then queueChild p.addr q else q) :=
    fun q => (queueChild_backlogOnly p.addr q).ite _
  refine hmid.of_map (g := fun q => if q.addr = l then queueChild p.addr q else q) ht
    (fun q _ => by rw [(hsame q).control])
    (fun q hq => by rw [(hsame q).control]; exact hmid.control q hq) (fun q hq => ?_)
    fun r hr a ha => ?_
  · split
    · exact (hmid.linked q hq).push () (hfresh q hq)
    · exact hmid.linked q hq
  have hold : a ∈ r.acceptQueue.addrs ∨ (a = p.addr ∧ r.addr = l) := by
    split at ha
    · have hpush := (hmid.linked r hr).push_addrs p.addr ()
      have ha' : a ∈ (r.acceptQueue.push p.addr ()).addrs := ha
      rw [hpush] at ha'
      rcases mem_append.mp ha' with ha' | ha'
      · exact .inl ha'
      · exact .inr ⟨mem_singleton.mp ha',‹_›⟩
    · exact .inl ha
  rcases hold with hold | ⟨rfl,hrl⟩
  · obtain ⟨c,hc',hca,hcl,hcs⟩ := hmid.queued r hr a hold
    exact ⟨c,hc',hca,by rw [(hsame c).control]; exact hcl,by rw [(hsame c).control]; exact hcs⟩
  · exact ⟨o,hnew,haddr,by rw [(hsame o).control,hrl]; exact hnl, by rw [(hsame o).control]; exact hns⟩

end

theorem Wf.freed (h : Wf s) {p : Pcb} (hp : p ∈ s.pcbs) (ht : t.pcbs = (s.freeLocked p).pcbs) : Wf t := by
  -- A connection in somebody's queue after the free is not the one freed.
  have hkeep : ∀ (r : Tcp) (g : Pcb → Pcb), r.pcbs = s.pcbs.map g → Wf r →
      (∀ l ∈ r.pcbs, p.addr ∉ l.acceptQueue.addrs) →
      t.pcbs = r.pcbs.filter (·.addr ≠ p.addr) → Wf t := by
    intro r g hr hwf hout ht
    have hsub : ∀ q ∈ t.pcbs, q ∈ r.pcbs := fun q hq => by
      rw [ht] at hq
      exact (mem_filter.mp hq).1
    refine ⟨?_,fun q hq => hwf.control q (hsub q hq),fun q hq => hwf.linked q (hsub q hq),?_⟩
    · rw [addrs,ht]
      exact hwf.nodup.sublist (filter_sublist.map _)
    intro l hl a ha
    obtain ⟨c,hc,hca,hrest⟩ := hwf.queued l (hsub l hl) a ha
    refine ⟨c,?_,hca,hrest⟩
    rw [ht]
    refine mem_filter.mpr ⟨hc,?_⟩
    simp only [ne_eq,decide_eq_true_eq]
    rintro hce
    exact hout l (hsub l hl) (by rw [← hce,hca]; exact ha)
  unfold freeLocked at ht
  cases hlis : p.listener with
  | none =>
    rw [hlis] at ht
    refine hkeep s id (by simp) h (fun l hl ha => ?_) ht
    obtain ⟨c,hc,hca,hcl,-⟩ := h.queued l hl _ ha
    rw [eq_of_addr h.nodup hc hp hca,hlis] at hcl
    cases hcl
  | some l₀ =>
    rw [hlis] at ht
    have hsame : ∀ q : Pcb, BacklogOnly q (if q.addr = l₀ then dropChild p.addr q else q) := by
      intro q
      split
      · exact dropChild_backlogOnly p.addr q
      · exact ⟨rfl,rfl,rfl⟩
    have hmem : ∀ q ∈ s.pcbs, ∀ a,
        a ∈ (if q.addr = l₀ then dropChild p.addr q else q).acceptQueue.addrs →
          a ∈ q.acceptQueue.addrs ∧ a ≠ p.addr := by
      intro q hq a ha
      split at ha
      · have ha' : a ∈ (q.acceptQueue.unlink p.addr).addrs := ha
        rw [LinkedQueue.unlink_addrs] at ha'
        have hd := (h.linked q hq).nodup.mem_erase_iff.mp ha'
        exact ⟨hd.2,hd.1⟩
      rename_i hne
      refine ⟨ha,?_⟩
      rintro rfl
      obtain ⟨c,hc,hca,hcl,-⟩ := h.queued q hq _ ha
      rw [eq_of_addr h.nodup hc hp hca,hlis] at hcl
      exact hne (Option.some.inj hcl).symm
    refine hkeep (s.update l₀ (dropChild p.addr)) _ rfl ?_ (fun l hl ha => ?_) ht
    · refine h.of_map rfl (fun q _ => by rw [(hsame q).control])
        (fun q hq => by rw [(hsame q).control]; exact h.control q hq) (fun q hq => ?_)
        fun r hr a ha => ?_
      · split
        · exact (h.linked q hq).unlink p.addr
        · exact h.linked q hq
      · obtain ⟨c,hc,hca,hcl,hcs⟩ := h.queued r hr a (hmem r hr a ha).1
        exact ⟨c,hc,hca,by rw [(hsame c).control]; exact hcl,by rw [(hsame c).control]; exact hcs⟩
    · obtain ⟨q,hq,rfl⟩ := mem_map.mp hl
      exact (hmem q hq _ ha).2 rfl

theorem Wf.listener_ne (h : Wf s) {l c : Pcb} (hc : c ∈ s.pcbs) (hs : l.state = .listen)
    (hlis : c.listener.isSome = true) : c.state ≠ l.state := by
  rcases (h.control c hc).child hlis with hn | hn | hn <;> rw [hn,hs] <;> decide

theorem Wf.accepted (h : Wf s) {l c : Pcb} {rest : List (Nat × Unit)} (hl : l ∈ s.pcbs)
    (hc : c ∈ s.pcbs) (hs : l.state = .listen)
    (hn : l.acceptQueue.nodes = (c.addr,()) :: rest) (hlis : c.listener = some l.addr)
    (ht : t.pcbs = ((s.update l.addr takeChild).update c.addr acceptPcb).pcbs) : Wf t := by
  have hne : c.addr ≠ l.addr := fun ha => h.listener_ne hc hs (by rw [hlis]; rfl)
    (by rw [eq_of_addr h.nodup hc hl ha])
  have hmid : Wf (s.update l.addr takeChild) := by
    have hsame : ∀ q : Pcb, BacklogOnly q (if q.addr = l.addr then takeChild q else q) := by
      intro q
      split
      · exact takeChild_backlogOnly q
      · exact ⟨rfl,rfl,rfl⟩
    refine h.of_map rfl (fun q _ => by rw [(hsame q).control])
      (fun q hq => by rw [(hsame q).control]; exact h.control q hq) (fun q hq => ?_)
      fun r hr a ha => ?_
    · split
      · exact (h.linked q hq).pop
      · exact h.linked q hq
    have ha' : a ∈ r.acceptQueue.addrs := by
      split at ha
      · have ha : a ∈ (r.acceptQueue.nodes.tail.map Prod.fst) := ha
        rw [map_tail] at ha
        exact mem_of_mem_tail ha
      · exact ha
    obtain ⟨d,hd,hda,hdl,hds⟩ := h.queued r hr a ha'
    exact ⟨d,hd,hda,by rw [(hsame d).control]; exact hdl,by rw [(hsame d).control]; exact hds⟩
  have hout : ∀ q ∈ (s.update l.addr takeChild).pcbs, c.addr ∉ q.acceptQueue.addrs := by
    intro q hq ha
    obtain ⟨r,hr,rfl⟩ := mem_map.mp hq
    split at ha
    · rename_i hrl
      obtain rfl := eq_of_addr h.nodup hr hl hrl
      have hd := (h.linked r hr).nodup
      have ha : c.addr ∈ r.acceptQueue.nodes.tail.map Prod.fst := ha
      rw [LinkedQueue.addrs,hn] at hd
      rw [hn] at ha
      exact (nodup_cons.mp hd).1 ha
    rename_i hrl
    obtain ⟨d,hd,hda,hdl,-⟩ := h.queued r hr _ ha
    rw [eq_of_addr h.nodup hd hc hda,hlis] at hdl
    exact hrl (Option.some.inj hdl).symm
  have hcm : c ∈ (s.update l.addr takeChild).pcbs :=
    mem_map.mpr ⟨c,hc,if_neg hne⟩
  generalize s.update l.addr takeChild = m at hmid hout hcm ht
  have hctl : ∀ q ∈ m.pcbs, ControlOk (if q.addr = c.addr then acceptPcb q else q).toControl := by
    intro q hq
    split
    · rename_i ha
      obtain rfl := eq_of_addr hmid.nodup hq hcm ha
      exact Op.run_controlOk m.io q .accept (by rw [Op.Enabled,hlis]; rfl) (hmid.control q hq) rfl
    · exact hmid.control q hq
  have hq : ∀ q : Pcb, (if q.addr = c.addr then acceptPcb q else q).acceptQueue = q.acceptQueue ∧
      (if q.addr = c.addr then acceptPcb q else q).addr = q.addr := by
    intro q
    split <;> exact ⟨rfl,rfl⟩
  refine hmid.of_map (g := fun q => if q.addr = c.addr then acceptPcb q else q) ht
    (fun q _ => (hq q).2) hctl (fun q hm => by rw [(hq q).1]; exact hmid.linked q hm)
    fun r hr a ha => ?_
  rw [(hq r).1] at ha
  obtain ⟨d,hd,hda,hdl,hds⟩ := hmid.queued r hr a ha
  have hdc : ¬ d.addr = c.addr := fun he => hout r hr (by rw [← he,hda]; exact ha)
  exact ⟨d,hd,hda,by rw [if_neg hdc]; exact hdl,by rw [if_neg hdc]; exact hds⟩

theorem Change.wf (hc : Change ok s t) (h : Wf s) : Wf t := by
  cases hc with
  | quiet _ ht _ _ =>
    exact h.of_backlog (g := id) (by rw [ht]; simp) (fun _ _ => ⟨rfl,rfl,rfl⟩) fun _ _ => rfl
  | waiter a f hf ht _ =>
    have hw : ∀ p ∈ s.pcbs, WaitersOnly p (if p.addr = a then f p else p) := by
      intro p hp
      split
      · exact hf p hp ‹_›
      · exact ⟨.refl p,rfl⟩
    exact h.of_backlog ht (fun p hp => (hw p hp).backlogOnly)
      fun p hp => congrArg Backlog.acceptQueue (hw p hp).backlog
  | born ha ht _ => exact h.cons ht ha (fresh_controlOk _) rfl
  | @child l a io iss seg ha hm hfind hs hroom hok ht _ =>
    have hso := sendSegment_senderOnly io (synChild io.ticks a l.addr iss seg) (tcpSyn ||| tcpAck)
      [] false
    have hpend : Wf (s.update l.addr addPending) := by
      refine h.of_backlog rfl (fun p _ => ?_) fun p _ => ?_
      · split
        · exact addPending_backlogOnly p
        · exact ⟨rfl,rfl,rfl⟩
      · split <;> rfl
    have haddrs : (s.update l.addr addPending).addrs = s.addrs :=
      map_addrs fun p _ => by split <;> rfl
    refine hpend.cons ht ?_ (by rw [hso.control]; exact synChild_controlOk _ _ _ _ _)
      (congrArg Backlog.acceptQueue hso.backlog)
    rw [haddrs,hso.control]
    exact ha
  | ran hp hen _ hna hf _ ht _ => exact h.ran hp hen hna hf ht
  | completed hp hen _ hna hf hc hlis ht _ => exact h.completed hp hen hna hf hc hlis ht
  | freed _ hp _ ht _ _ => exact h.freed hp ht
  | accepted hl hc _ hs hn hlis ht _ => exact h.accepted hl hc hs hn hlis ht

theorem Change.mono {ok' : Pcb → Op → Prop} (hc : Change ok s t) (h : ∀ p op, ok p op → ok' p op) :
    Change ok' s t := by
  cases hc with
  | quiet extra ht hl hx => exact .quiet extra ht hl hx
  | waiter a f hf ht hl => exact .waiter a f hf ht hl
  | born ha ht hl => exact .born ha ht hl
  | child ha hm hfind hs hroom hok ht hl => exact .child ha hm hfind hs hroom hok ht hl
  | ran hp hen hok hna hf hq ht hl => exact .ran hp hen (h _ _ hok) hna hf hq ht hl
  | completed hp hen hok hna hf hc hlis ht hl =>
    exact .completed hp hen (h _ _ hok) hna hf hc hlis ht hl
  | freed extra hp hlast ht hl hx => exact .freed extra hp hlast ht hl hx
  | accepted hl hc hok hs hn hlis ht hlog => exact .accepted hl hc (h _ _ hok) hs hn hlis ht hlog

theorem Changes.mono {ok' : Pcb → Op → Prop} (hc : Changes ok s t) (h : ∀ p op, ok p op → ok' p op) :
    Changes ok' s t := by
  induction hc with
  | refl => exact .refl
  | tail _ hlast ih => exact ih.tail (hlast.mono h)

theorem Changes.wf (hc : Changes ok s t) (h : Wf s) : Wf t := by
  induction hc with
  | refl => exact h
  | tail _ hlast ih => exact hlast.wf ih

end Rucux.Net
