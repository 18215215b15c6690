import Rucux.Net.Tcp.Sections

/-! Whether the endpoints of a segment name one PCB. -/

namespace Rucux.Net
open List Tcp

/-- Two PCBs that the same segment could be for: connections with the same endpoints,
or listeners on the same port whose addresses overlap. -/
def Control.Clash (c d : Control) : Prop :=
  (c.state.isLive = true ∧ d.state.isLive = true ∧ c.localIp = d.localIp ∧
    c.localPort = d.localPort ∧ c.remoteIp = d.remoteIp ∧ c.remotePort = d.remotePort) ∨
  (c.state = .listen ∧ d.state = .listen ∧ c.localPort = d.localPort ∧
    (c.localIp = d.localIp ∨ c.localIp = 0 ∨ d.localIp = 0))

instance (c d : Control) : Decidable (c.Clash d) :=
  inferInstanceAs (Decidable (_ ∨ _))

variable {c d : Control}

theorem Control.Clash.symm (h : c.Clash d) : d.Clash c := by
  rcases h with ⟨h₁,h₂,h₃,h₄,h₅,h₆⟩ | ⟨h₁,h₂,h₃,h₄⟩
  · exact .inl ⟨h₂,h₁,h₃.symm,h₄.symm,h₅.symm,h₆.symm⟩
  refine .inr ⟨h₂,h₁,h₃.symm,?_⟩
  rcases h₄ with h | h | h
  · exact .inl h.symm
  · exact .inr (.inr h)
  · exact .inr (.inl h)

def Tcp.Unambiguous (s : Tcp) : Prop :=
  ∀ p ∈ s.pcbs, ∀ q ∈ s.pcbs, p.addr ≠ q.addr → ¬ p.toControl.Clash q.toControl

instance (s : Tcp) : Decidable s.Unambiguous :=
  inferInstanceAs (Decidable (∀ p ∈ s.pcbs, ∀ q ∈ s.pcbs, p.addr ≠ q.addr →
    ¬ p.toControl.Clash q.toControl))

structure Control.SamePair (c d : Control) : Prop where
  localIp : d.localIp = c.localIp
  localPort : d.localPort = c.localPort
  remoteIp : d.remoteIp = c.remoteIp
  remotePort : d.remotePort = c.remotePort

theorem SameEnds.samePair (h : SameEnds c d) : c.SamePair d :=
  ⟨h.localIp,h.localPort,h.remoteIp,h.remotePort⟩

/-- Whatever endpoints `d` claims, `c` has claimed already. -/
structure Control.Within (d c : Control) : Prop where
  live : d.state.isLive = true → c.state.isLive = true ∧ c.SamePair d
  listen : d.state = .listen → c.state = .listen ∧ c.SamePair d

theorem Control.Within.clash {c' d' : Control} (hc : c'.Within c) (hd : d'.Within d) (h : c'.Clash d') :
    c.Clash d := by
  rcases h with ⟨h₁,h₂,h₃,h₄,h₅,h₆⟩ | ⟨h₁,h₂,h₃,h₄⟩
  · obtain ⟨hl,he⟩ := hc.live h₁
    obtain ⟨hl',he'⟩ := hd.live h₂
    rw [he.localIp,he'.localIp] at h₃
    rw [he.localPort,he'.localPort] at h₄
    rw [he.remoteIp,he'.remoteIp] at h₅
    rw [he.remotePort,he'.remotePort] at h₆
    exact .inl ⟨hl,hl',h₃,h₄,h₅,h₆⟩
  obtain ⟨hl,he⟩ := hc.listen h₁
  obtain ⟨hl',he'⟩ := hd.listen h₂
  rw [he.localPort,he'.localPort] at h₃
  rw [he.localIp,he'.localIp] at h₄
  exact .inr ⟨hl,hl',h₃,h₄⟩

theorem Control.within_self (c : Control) : c.Within c :=
  ⟨fun h => ⟨h,rfl,rfl,rfl,rfl⟩,fun h => ⟨h,rfl,rfl,rfl,rfl⟩⟩

theorem Control.within_closed (h : d.state = .closed) : d.Within c := by
  constructor <;> simp [h,TcpState.isLive]

theorem Control.not_clash_closed (h : c.state = .closed) : ¬ c.Clash d := by
  simp [Control.Clash,h,TcpState.isLive]

theorem Advance.within {now : Nat} {freed : Bool} (h : Advance now c d freed) : d.Within c := by
  have hpair := h.sameEnds.samePair
  cases h with
  | stay => exact c.within_self
  | closeWait hs | finWait2 hs | closing hs =>
    exact ⟨fun _ => ⟨by rw [hs]; rfl,hpair⟩,nofun⟩
  | timeWait hs =>
    exact ⟨fun _ => ⟨by rcases hs with hs | hs | hs <;> rw [hs] <;> rfl,hpair⟩,nofun⟩
  | lastAck => exact Control.within_closed rfl

theorem Moves.within {now : Nat} {freed completed : Bool} (h : Moves now c d freed completed) :
    d.Within c := by
  have hpair := h.sameEnds.samePair
  cases h with
  | advance h => exact h.within
  | complete hs h =>
    refine ⟨fun hl => ⟨by rw [hs]; rfl,hpair⟩,fun hl => ?_⟩
    obtain ⟨hn,-⟩ := h.within.listen hl
    cases hn
  | opened hs | close hs _ | closeLast hs _ => exact ⟨fun _ => ⟨by rw [hs]; rfl,hpair⟩,nofun⟩
  | reset => exact Control.within_closed rfl
  | gone => exact c.within_self

def Op.claims : Op → Bool
  | .listen _ | .connect _ _ _ _ => true
  | _ => false

theorem Op.run_within (io : Io) (p : Pcb) {op : Op} (hen : op.Enabled p) (h : op.claims = false) :
    (op.run io p).pcb.toControl.Within p.toControl := by
  cases op with
  | bind ip port => exact Control.within_closed hen.2
  | accept => exact ⟨fun hl => ⟨hl,rfl,rfl,rfl,rfl⟩,fun hl => ⟨hl,rfl,rfl,rfl,rfl⟩⟩
  | listen | connect => cases h
  | connectWait | send | recv | close | input | tick => exact (Op.run_moves io p _ hen rfl).within

namespace Tcp.Unambiguous
variable {s t : Tcp}

section
variable (h : s.Unambiguous)
include h

theorem of_within (ho : ∀ q ∈ t.pcbs, ∃ p ∈ s.pcbs, p.addr = q.addr ∧ q.toControl.Within p.toControl) :
    t.Unambiguous := by
  intro q hq q' hq' hne hclash
  obtain ⟨p,hp,ha,hw⟩ := ho q hq
  obtain ⟨p',hp',ha',hw'⟩ := ho q' hq'
  exact h p hp p' hp' (by rw [ha,ha']; exact hne) (hw.clash hw' hclash)

theorem cons {c : Pcb} (ht : t.pcbs = c :: s.pcbs) (hc : ∀ q ∈ s.pcbs, ¬ c.toControl.Clash q.toControl) :
    t.Unambiguous := by
  intro q hq q' hq' hne hclash
  rw [ht] at hq hq'
  rcases mem_cons.mp hq with rfl | hm
  · rcases mem_cons.mp hq' with rfl | hm'
    · exact hne rfl
    · exact hc q' hm' hclash
  rcases mem_cons.mp hq' with rfl | hm'
  · exact hc q hm hclash.symm
  · exact h q hm q' hm' hne hclash

theorem replace {p o : Pcb} (ht : t.pcbs = (s.update p.addr fun _ => o).pcbs)
    (ho : ∀ q ∈ s.pcbs, q.addr ≠ p.addr → ¬ o.toControl.Clash q.toControl) : t.Unambiguous := by
  intro q hq q' hq' hne hclash
  rw [ht] at hq hq'
  obtain ⟨r,hr,rfl⟩ := mem_map.mp hq
  obtain ⟨r',hr',rfl⟩ := mem_map.mp hq'
  by_cases hra : r.addr = p.addr
  · by_cases hra' : r'.addr = p.addr
    · simp [hra,hra'] at hne
    rw [if_pos hra,if_neg hra'] at hclash
    exact ho r' hr' hra' hclash
  by_cases hra' : r'.addr = p.addr
  · rw [if_neg hra,if_pos hra'] at hclash
    exact ho r hr hra hclash.symm
  · rw [if_neg hra,if_neg hra'] at hclash hne
    exact h r hr r' hr' hne hclash

theorem of_backlog {g : Pcb → Pcb} (hg : ∀ p ∈ s.pcbs, BacklogOnly p (g p)) (ht : t.pcbs = s.pcbs.map g) :
    t.Unambiguous := by
  refine h.of_within fun q hq => ?_
  rw [ht] at hq
  obtain ⟨p,hp,rfl⟩ := mem_map.mp hq
  exact ⟨p,hp,by rw [(hg p hp).control],by rw [(hg p hp).control]; exact p.within_self⟩

theorem ran (hwf : Wf s) {p : Pcb} {op : Op} (hp : p ∈ s.pcbs) (hen : op.Enabled p)
    (hop : op.claims = false) (ht : t.pcbs = (s.update p.addr fun _ => (op.run s.io p).pcb).pcbs) :
    t.Unambiguous := by
  refine h.of_within fun q hq => ?_
  rw [ht] at hq
  obtain ⟨r,hr,rfl⟩ := mem_map.mp hq
  refine ⟨r,hr,?_⟩
  split
  · rename_i ha
    obtain rfl := eq_of_addr hwf.nodup hr hp ha
    exact ⟨(Op.run_fixed s.io r hen).1.symm,Op.run_within s.io r hen hop⟩
  · exact ⟨rfl,r.within_self⟩

end

end Tcp.Unambiguous

theorem Tcp.findPcb_listener {ps : List Pcb} {ip remote : BitVec 32} {port remotePort : BitVec 16}
    {l : Pcb} (h : findPcb ps ip port remote remotePort = some l) (hl : l.state = .listen) :
    ∀ q ∈ ps, q.state.isLive = true → ¬ (q.localIp = ip ∧ q.localPort = port ∧ q.remoteIp = remote ∧
      q.remotePort = remotePort) := by
  rintro q hq hlive ⟨h₁,h₂,h₃,h₄⟩
  rcases Option.or_eq_some_iff.mp h with h | ⟨hnone,-⟩
  · have hs := find?_some h
    simp [hl] at hs
  have hn := find?_eq_none.mp hnone q hq
  have hc : q.state ≠ .closed := fun hc => by rw [hc] at hlive; cases hlive
  have hli : q.state ≠ .listen := fun hc => by rw [hc] at hlive; cases hlive
  simp [h₁,h₂,h₃,h₄,hc,hli] at hn

theorem Change.unambiguous {s t : Tcp} (hc : Change (fun _ op => op.claims = false) s t) (hwf : Wf s)
    (h : s.Unambiguous) : t.Unambiguous := by
  cases hc with
  | quiet _ ht => exact h.of_backlog (g := id) (fun _ _ => ⟨rfl,rfl,rfl⟩) (by simpa using ht)
  | waiter a f hf ht =>
    refine h.of_backlog (fun p hp => ?_) ht
    split
    · exact (hf p hp ‹_›).backlogOnly
    · exact ⟨rfl,rfl,rfl⟩
  | born _ ht => exact h.cons ht fun _ _ => Control.not_clash_closed rfl
  | @child l a io iss seg ha _ hfind hs _ _ ht =>
    have hmid : (s.update l.addr addPending).Unambiguous :=
      h.of_backlog (fun p _ => (addPending_backlogOnly p).ite _) rfl
    have hctl := (sendSegment_senderOnly io (synChild io.ticks a l.addr iss seg)
      (tcpSyn ||| tcpAck) [] false).control
    refine hmid.cons ht fun q hq hclash => ?_
    rw [hctl] at hclash
    obtain ⟨r,hr,rfl⟩ := mem_map.mp hq
    rw [((addPending_backlogOnly r).ite _).control] at hclash
    rcases hclash with ⟨-,hlive,h₁,h₂,h₃,h₄⟩ | ⟨hn,-⟩
    · exact findPcb_listener hfind hs r hr hlive ⟨h₁.symm,h₂.symm,h₃.symm,h₄.symm⟩
    · cases hn
  | ran hp hen hok _ _ _ ht => exact h.ran hwf hp hen hok ht
  | @completed p op l hp hen hok _ _ _ _ ht =>
    have hmid := h.ran hwf hp hen hok (t := s.update p.addr fun _ => (op.run s.io p).pcb) rfl
    exact hmid.of_backlog (fun q _ => (queueChild_backlogOnly p.addr q).ite _) ht
  | freed _ _ _ ht =>
    refine h.of_within fun q hq => ?_
    rw [ht] at hq
    obtain ⟨-,r,hr,hb⟩ := freeLocked_origin hq
    exact ⟨r,hr,by rw [hb.control],by rw [hb.control]; exact r.within_self⟩
  | @accepted l c _ _ _ _ _ _ _ ht =>
    have hmid : (s.update l.addr takeChild).Unambiguous :=
      h.of_backlog (fun q _ => (takeChild_backlogOnly q).ite _) rfl
    refine hmid.of_within fun q hq => ?_
    rw [ht] at hq
    obtain ⟨r,hr,rfl⟩ := mem_map.mp hq
    refine ⟨r,hr,?_⟩
    split
    · exact ⟨rfl,⟨fun hl => ⟨hl,rfl,rfl,rfl,rfl⟩,fun hl => ⟨hl,rfl,rfl,rfl,rfl⟩⟩⟩
    · exact ⟨rfl,r.within_self⟩

theorem Changes.unambiguous {s t : Tcp} (hc : Changes (fun _ op => op.claims = false) s t)
    (hwf : Wf s) (h : s.Unambiguous) : t.Unambiguous := by
  induction hc with
  | refl => exact h
  | tail hfirst hlast ih => exact hlast.unambiguous (Changes.wf hfirst hwf) ih

namespace Tcp
variable {s : Tcp}

variable {p : Pcb}

theorem update_update (s : Tcp) {o : Pcb} (ha : o.addr = p.addr) (o' : Pcb) :
    ((s.update p.addr fun _ => o).update p.addr fun _ => o').pcbs =
      (s.update p.addr fun _ => o').pcbs := by
  simp only [update,map_map]
  refine map_congr_left fun q _ => ?_
  by_cases hq : q.addr = p.addr
  · simp [hq,ha]
  · simp [hq]

def Bound (s : Tcp) (p q : Pcb) : Prop :=
  (q = p ∧ p.localPort ≠ 0) ∨
    ∃ chosen, q = bindPcb p p.localIp chosen ∧ s.portUsed p.addr p.localIp chosen = false

theorem Bound.same {q : Pcb} (h : s.Bound p q) :
    q.addr = p.addr ∧ q.state = p.state ∧ (p.Owned → q.Owned) := by
  rcases h with ⟨rfl,-⟩ | ⟨_,rfl,-⟩
  · exact ⟨rfl,rfl,id⟩
  · exact ⟨rfl,rfl,id⟩

theorem update_self (hn : s.addrs.Nodup) (hp : p ∈ s.pcbs) : (s.update p.addr fun _ => p).pcbs = s.pcbs :=
  map_eq_self fun q hq => by
    split
    · exact (eq_of_addr hn hq hp ‹_›).symm
    · rfl

theorem connectBind_cases (hwf : Wf s) (hp : p ∈ s.pcbs) (b : Tcp × Int)
    (hb : b = if p.localPort = 0 then s.bindLocked p p.localIp 0 else (s,0)) :
    (b.1.pcbs = s.pcbs ∧ b.2 ≠ 0) ∨ ∃ q, s.Bound p q ∧ b.1.pcbs = (s.update p.addr fun _ => q).pcbs := by
  rw [hb]
  split
  · rcases bindLocked_cases (s := s) p p.localIp 0 with ⟨ht,-,hn⟩ | ⟨m,chosen,hm,-,-,-,-,hfree,ht⟩
    · exact .inl ⟨ht,hn⟩
    refine .inr ⟨_,.inr ⟨chosen,rfl,by simpa [portUsed,hm] using hfree⟩,?_⟩
    rw [ht,update,← hm]
    rfl
  · exact .inr ⟨p,.inl ⟨rfl,‹_›⟩,(update_self hwf.nodup hp).symm⟩

theorem tcpConnect_cases (hwf : Wf s) (ifs : Interfaces) (hp : p ∈ s.pcbs) (ho : p.Owned)
    (addr : BitVec 32) (port : BitVec 16) :
    (s.tcpConnect ifs p addr port).1.pcbs = s.pcbs ∨
    p.state = .closed ∧ addr ≠ 0 ∧ port ≠ 0 ∧ ∃ ip ∈ ifs.route addr, ∃ q, s.Bound p q ∧
      ((s.tcpConnect ifs p addr port).1.pcbs = (s.update p.addr fun _ => q).pcbs ∨
      ∃ io iss, (s.tcpConnect ifs p addr port).1.pcbs =
        (s.update p.addr fun _ => (connectPcb io q ip addr port iss).pcb).pcbs) := by
  unfold tcpConnect
  split
  · exact .inl rfl
  rename_i hguard
  obtain ⟨hs,haddr,hport⟩ : p.state = .closed ∧ addr ≠ 0 ∧ port ≠ 0 := by
    simpa [not_or] using hguard
  split
  · exact .inl rfl
  rename_i ip hip
  have hb := connectBind_cases hwf hp _ rfl
  dsimp only
  generalize (if p.localPort = 0 then s.bindLocked p p.localIp 0 else (s,0)) = b at hb ⊢
  rcases hb with ⟨hpcbs,hcode⟩ | ⟨q,hq,hpcbs⟩
  · rw [if_pos hcode]
    exact .inl hpcbs
  refine .inr ⟨hs,haddr,hport,ip,hip,q,hq,?_⟩
  obtain ⟨ha,hqs,hqo⟩ := hq.same
  have hmem : ∀ r ∈ b.1.pcbs, r.addr = p.addr → r = q := by
    rw [hpcbs]
    refine forall_mem_map.mpr fun r _ hr => ?_
    by_cases hra : r.addr = p.addr
    · exact if_pos hra
    rw [if_neg hra] at hr
    exact absurd hr hra
  split
  · exact .inl hpcbs
  split
  · exact .inl hpcbs
  rename_i r hr
  obtain ⟨hrm,hra⟩ := find_mem hr
  obtain rfl := hmem r hrm hra
  have hc := (connectPcb_control b.1.io r ip addr port b.1.nextIss).2
  have hen : (Op.connect ip addr port b.1.nextIss).Enabled r := ⟨hqo ho,hqs.trans hs⟩
  refine .inr ⟨b.1.io,b.1.nextIss,?_⟩
  rw [runOn_kept (s := { b.1 with tcpIsn := b.1.nextIss }) hen hc.1 hc.2,← update_update s ha,hra]
  simp only [update,hpcbs]
  rfl

def dialled (c : Control) (ip addr : BitVec 32) (port : BitVec 16) : Control :=
  { c with
    state := .synSent, localIp := if c.localIp = 0 then ip else c.localIp
    remoteIp := addr, remotePort := port }

/-- The endpoints that the call of an event claims for a PCB with a port. A PCB
without one is given a port that nobody has. -/
def claim (s : Tcp) (e : Event) : Option Control :=
  match e.call, s.held e.pcb with
  | .listen _, some p =>
    if p.state = .closed ∧ p.localPort ≠ 0 then some (p.toControl.moveTo .listen) else none
  | .connect addr port, some p =>
    if p.state = .closed ∧ addr ≠ 0 ∧ port ≠ 0 ∧ p.localPort ≠ 0 then
      (e.ifs.route addr).map fun ip => dialled p.toControl ip addr port
    else none
  | _, _ => none

def ClaimsFree (s : Tcp) (e : Event) : Prop :=
  ∀ c ∈ s.claim e, ∀ q ∈ s.pcbs, q.addr ≠ c.addr → ¬ c.Clash q.toControl

instance (s : Tcp) (e : Event) : Decidable (s.ClaimsFree e) :=
  inferInstanceAs (Decidable (∀ c ∈ s.claim e, ∀ q ∈ s.pcbs, q.addr ≠ c.addr → ¬ c.Clash q.toControl))

theorem portUsed_false {self : Nat} {ip : BitVec 32} {port : BitVec 16}
    (h : s.portUsed self ip port = false) : ∀ q ∈ s.pcbs, q.addr ≠ self → q.localPort = port →
      ip ≠ 0 ∧ q.localIp ≠ 0 ∧ q.localIp ≠ ip := by
  intro q hq hne hport
  have hn := any_eq_false.mp h q hq
  simpa [hne,hport,not_or] using hn

theorem connect_unambiguous (hwf : Wf s) (h : s.Unambiguous) {e : Event} {addr : BitVec 32}
    {port : BitVec 16} (hcall : e.call = .connect addr port) (hfree : s.ClaimsFree e)
    (hp : s.held e.pcb = some p) : (s.tcpConnect e.ifs p addr port).1.Unambiguous := by
  obtain ⟨hm,-,ho⟩ := held_mem hp
  rcases tcpConnect_cases hwf e.ifs hm ho addr port with
    ht | ⟨hs,haddr,hport,ip,hip,q,hq,ht | ⟨io,iss,ht⟩⟩
  · exact h.of_backlog (g := id) (fun _ _ => ⟨rfl,rfl,rfl⟩) (by simpa using ht)
  · exact h.replace ht fun _ _ _ => Control.not_clash_closed (hq.same.2.1.trans hs)
  refine h.replace ht fun r hr hne => ?_
  rcases (connectPcb_control io q ip addr port iss).1 with ⟨hc,-⟩ | ⟨hc,-⟩
  · rw [hc]
    rcases hq with ⟨rfl,hl⟩ | ⟨chosen,rfl,hun⟩
    · have hclaim : dialled q.toControl ip addr port ∈ s.claim e := by
        simp only [claim,hcall,hp]
        rw [if_pos ⟨hs,haddr,hport,hl⟩,Option.mem_def.mp hip]
        rfl
      have hw : (startConnect io.ticks q ip addr port iss).toControl.Within
          (dialled q.toControl ip addr port) :=
        ⟨fun _ => ⟨rfl,rfl,rfl,rfl,rfl⟩,nofun⟩
      exact fun hclash => hfree _ hclaim r hr hne (hw.clash r.within_self hclash)
    rintro (⟨-,-,hlip,hlport,-⟩ | ⟨hn,-⟩)
    · obtain ⟨hnz,-,hother⟩ := portUsed_false hun r hr hne hlport.symm
      have hkept : (if p.localIp = 0 then ip else p.localIp) = p.localIp := if_neg hnz
      exact hother (hlip.symm.trans hkept)
    · cases hn
  · rw [hc]
    exact Control.not_clash_closed rfl

theorem listen_unambiguous (h : s.Unambiguous) {e : Event} {backlog : Int}
    (hcall : e.call = .listen backlog) (hfree : s.ClaimsFree e) (hp : s.held e.pcb = some p) :
    (s.runOn p (.listen backlog)).1.Unambiguous := by
  obtain ⟨hm,-,ho⟩ := held_mem hp
  have hen : (Op.listen backlog).Enabled p := ho
  have hplain : ((Op.listen backlog).run s.io p).freed = false ∧
      ((Op.listen backlog).run s.io p).completed = false := by
    simp only [Op.run,listenPcb]
    split <;> exact ⟨rfl,rfl⟩
  refine h.replace (runOn_kept hen hplain.1 hplain.2) fun r hr hne => ?_
  simp only [Op.run,listenPcb]
  split
  · exact h p hm r hr hne.symm
  rename_i hguard
  have hguard : p.state = .closed ∧ p.localPort ≠ 0 := by simpa [not_or] using hguard
  have hclaim : p.toControl.moveTo .listen ∈ s.claim e := by
    simp only [claim,hcall,hp]
    rw [if_pos hguard]
    rfl
  exact hfree _ hclaim r hr hne

theorem mayRun_claims {e : Event} {op : Op} (hm : s.mayRun e p op) (hl : ∀ b, e.call ≠ .listen b)
    (hc : ∀ a t, e.call ≠ .connect a t) : op.claims = false := by
  unfold mayRun at hm
  cases hcall : e.call with
  | listen b => exact absurd hcall (hl b)
  | connect a t => exact absurd hcall (hc a t)
  | new => simp [hcall] at hm
  | bind =>
    simp only [hcall] at hm
    obtain ⟨_,_,rfl⟩ := hm
    rfl
  | input =>
    simp only [hcall] at hm
    obtain ⟨_,rfl⟩ := hm
    rfl
  | _ =>
    simp only [hcall] at hm
    subst hm
    rfl

theorem step_unambiguous (hwf : Wf s) (h : s.Unambiguous) (e : Event) (hfree : s.ClaimsFree e) :
    (s.step e).Unambiguous := by
  have hwf' : Wf (s.enter e) := ⟨hwf.nodup,hwf.control,hwf.linked,hwf.queued⟩
  by_cases hl : ∃ b, e.call = .listen b
  · obtain ⟨b,hcall⟩ := hl
    simp only [step,dispatch,hcall,onHeld]
    split
    · exact h
    · exact listen_unambiguous (s := s.enter e) h hcall hfree ‹_›
  by_cases hc : ∃ a t, e.call = .connect a t
  · obtain ⟨a,t,hcall⟩ := hc
    simp only [step,dispatch,hcall,onHeld]
    split
    · exact h
    · exact connect_unambiguous (s := s.enter e) hwf' h hcall hfree ‹_›
  · exact ((step_changes hwf e).mono fun p op hm => mayRun_claims hm
      (fun b hb => hl ⟨b,hb⟩) fun a t hb => hc ⟨a,t,hb⟩).unambiguous hwf h

end Tcp

/-- As long as no `tcp_listen` and no `tcp_connect` claims the endpoints of another
PCB, the endpoints of a segment name at most one in every state that is reached. -/
theorem demultiplexing_unambiguous (es : List Tcp.Event)
    (hok : machine.Along Tcp.ClaimsFree .init es) : (machine.run es).Unambiguous := by
  have hstep : ∀ s e, Wf s ∧ s.Unambiguous → s.ClaimsFree e →
      Wf (step s e) ∧ (step s e).Unambiguous :=
    fun s e h he => ⟨step_wf h.1 e,step_unambiguous h.1 h.2 e he⟩
  exact (machine.runFrom_invariant Tcp.ClaimsFree (I := fun s => Wf s ∧ s.Unambiguous) hstep
    ⟨init_wf,by simp [Tcp.Unambiguous,init]⟩ es hok).2

/-- The server connects to another one from a PCB of its own. -/
def Tcp.servedDialling : List Tcp.Event :=
  served ++ [⟨6,[some 7,some 8],⟨none,none⟩,0,.new⟩,
    ⟨7,[some 9,some 10],⟨none,some 0x0A000002⟩,7,.connect 0x0A000001 80⟩]

theorem demultiplexing_unambiguous_served : machine.Along Tcp.ClaimsFree .init servedDialling ∧
    (machine.run servedDialling).pcbs.map (fun p => (p.addr,p.state)) =
      [(7,.synSent),(3,.established),(1,.listen)] ∧ (machine.run servedDialling).Unambiguous := by
  have hok : machine.Along Tcp.ClaimsFree .init servedDialling := by decide +kernel
  exact ⟨hok,by decide +kernel,demultiplexing_unambiguous servedDialling hok⟩

/-- A connection is accepted, the client resets it, and the application listens on
the accepted PCB, which still has the port of its listener. -/
def Tcp.relistened : List Tcp.Event :=
  served ++ [arrival 6 [] (fromClient 101 0 tcpRst []),⟨7,[],⟨none,none⟩,3,.listen 1⟩]

theorem relistened_ambiguous : ¬ (machine.run relistened).Unambiguous := by decide +kernel

end Rucux.Net
