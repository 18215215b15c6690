import Rucux.Net.Tcp.Changes

namespace Rucux.Net
open Lib List

variable {ok : Pcb → Op → Prop} {s : Tcp}

namespace Tcp

theorem filter_replaced (o : Pcb) (G : Pcb → Pcb) (hG : ∀ q, (G q).addr = q.addr) (ps : List Pcb) :
    ((ps.map fun q => if q.addr = o.addr then o else q).map G).filter (·.addr ≠ o.addr) =
      (ps.map G).filter (·.addr ≠ o.addr) := by
  induction ps with
  | nil => rfl
  | cons q ps ih =>
    by_cases hq : q.addr = o.addr
    · simpa [hq,hG] using ih
    · simpa [hq,hG] using ih

variable {p : Pcb}

theorem freeLocked_replaced (s : Tcp) {o : Pcb} (ha : o.addr = p.addr) (hl : o.listener = p.listener)
    (d : Tcp) (hd : d.pcbs = (s.update o.addr fun _ => o).pcbs) :
    (d.freeLocked o).pcbs = (s.freeLocked p).pcbs := by
  unfold freeLocked
  rw [hl]
  cases p.listener with
  | none =>
    simp only [remove,hd,update,← ha]
    have h := filter_replaced o id (fun _ => rfl) s.pcbs
    simpa using h
  | some l =>
    simp only [remove,hd,update,← ha]
    exact filter_replaced o _ (fun q => by split <;> rfl) s.pcbs

theorem runOn_freed {op : Op} (hen : op.Enabled p) (hna : op ≠ .accept)
    (hf : (op.run s.io p).freed = true) : (s.runOn p op).1.pcbs = (s.freeLocked p).pcbs := by
  simp only [runOn,commit,hf]
  exact freeLocked_replaced s (Op.run_fixed s.io p hen).1 ((Op.run_fixed s.io p hen).2 hna) _ rfl

theorem runOn_kept {op : Op} (hen : op.Enabled p) (hf : (op.run s.io p).freed = false)
    (hc : (op.run s.io p).completed = false) :
    (s.runOn p op).1.pcbs = (s.update p.addr fun _ => (op.run s.io p).pcb).pcbs := by
  simp only [runOn,commit,hf,hc,(Op.run_fixed s.io p hen).1]
  rfl

theorem runOn_change {op : Op} (hp : p ∈ s.pcbs) (hen : op.Enabled p) (hok : ok p op) (hna : op ≠ .accept)
    (hlast : (op.run s.io p).freed = true → p.state = .listen → ∀ c ∈ s.pcbs, c.listener ≠ some p.addr) :
    Change ok s (s.runOn p op).1 := by
  have ha := (Op.run_fixed s.io p hen).1
  have hl := (Op.run_fixed s.io p hen).2 hna
  unfold runOn commit
  dsimp only
  cases hf : (op.run s.io p).freed with
  | true =>
    refine .freed [.ran p.addr (op.ran s.io (op.run s.io p))] hp (hlast hf)
      (freeLocked_replaced s ha hl _ rfl) ?_ (by simp [Entry.addr])
    simp only [if_true,freeLocked,ha]
    split <;> rfl
  | false =>
    simp only [Bool.false_eq_true,if_false,ha,hl]
    cases hc : (op.run s.io p).completed with
    | false => exact .ran hp hen hok hna hf (.inl hc) rfl rfl
    | true =>
      cases hlis : p.listener with
      | none => exact .ran hp hen hok hna hf (.inr hlis) rfl rfl
      | some l => exact .completed hp hen hok hna hf hc hlis rfl rfl

theorem newLocked_cases (s : Tcp) :
    (s.newLocked.1 = none ∧ s.newLocked.2.pcbs = s.pcbs ∧ s.newLocked.2.log = s.log) ∨
    ∃ a, s.newLocked.1 = some a ∧ a ∉ s.addrs ∧ s.newLocked.2.pcbs = Pcb.fresh a :: s.pcbs ∧
      s.newLocked.2.log = s.log ++ [.born a] := by
  unfold newLocked
  split
  · exact .inl ⟨rfl,rfl,rfl⟩
  have hfresh := fun a => @kmalloc_fresh s.io s.addrs a
  split
  · exact .inl ⟨rfl,rfl,rfl⟩
  rename_i a io heq
  rw [heq] at hfresh
  split
  · exact .inl ⟨rfl,rfl,rfl⟩
  · exact .inr ⟨a,rfl,(hfresh a rfl).2,rfl,rfl⟩

theorem newLocked_change : Change ok s s.newLocked.2 := by
  rcases newLocked_cases s with ⟨-,hp,hl⟩ | ⟨a,-,ha,hp,hl⟩
  · exact .quiet [] hp (by simp [hl]) (by simp)
  · exact .born ha hp hl

theorem dropChild_addPending {a : Nat} {l : Pcb} (h : a ∉ l.acceptQueue.addrs) :
    dropChild a (addPending l) = l := by
  have hu : l.acceptQueue.unlink a = l.acceptQueue := by simp [LinkedQueue.unlink,h]
  simp [dropChild,addPending,hu]

theorem map_eq_self {f : Pcb → Pcb} {ps : List Pcb} (h : ∀ q ∈ ps, f q = q) : ps.map f = ps := by
  rw [map_congr_left h]
  exact map_id _

theorem listenInput_change (hwf : Wf s) {l : Pcb} {seg : Segment} (hm : 1 ≤ seg.mss ∧ seg.mss ≤ localMss)
    (hfind : findPcb s.pcbs seg.dstIp seg.dstPort seg.srcIp seg.srcPort = some l)
    (hl : l ∈ s.pcbs) (hs : l.state = .listen) : Change ok s (s.listenInput l seg) := by
  unfold listenInput
  split
  swap
  · exact .quiet [] rfl (by simp) (by simp)
  rename_i hcond
  have hnew := newLocked_cases s
  generalize s.newLocked = n at hnew ⊢
  obtain ⟨answer,m⟩ := n
  rcases hnew with ⟨hn,hp,hlog⟩ | ⟨a,hn,ha,hp,hlog⟩
  · cases hn
    exact .quiet [] hp (hlog.trans (by simp)) (by simp)
  cases hn
  dsimp only at hp hlog ⊢
  have hso := sendSegment_senderOnly m.io
    (synChild m.io.ticks a l.addr m.nextIss seg) (tcpSyn ||| tcpAck) [] false
  have hok' : ∀ r : Sent, r = sendSegment m.io
    (synChild m.io.ticks a l.addr m.nextIss seg) (tcpSyn ||| tcpAck) [] false →
    r.pcb.addr = a ∧ r.pcb.listener = some l.addr := by
      rintro r rfl
      exact ⟨congrArg Control.addr hso.control,congrArg Control.listener hso.control⟩
  have hne : ∀ q ∈ s.pcbs, q.addr ≠ a := fun q hq he => ha (he ▸ mem_addrs hq)
  obtain ⟨haddr,hlis⟩ := hok' _ rfl
  have hpcbs : ∀ r : Pcb, r.addr = a → ((m.update a fun _ => r).update l.addr addPending).pcbs =
        r :: (s.update l.addr addPending).pcbs := by
    intro r hr
    have hla : ¬ a = l.addr := fun he => hne l hl he.symm
    simp only [update,hp,map_cons,Pcb.fresh,Pcb.zero,if_true,hr,if_neg hla,List.cons.injEq, true_and]
    congr 1
    exact map_eq_self fun q hq => if_neg (hne q hq)
  have hmid := hpcbs _ haddr
  cases hok : (sendSegment m.io (synChild m.io.ticks a l.addr m.nextIss seg)
      (tcpSyn ||| tcpAck) [] false).ok with
  | true =>
    exact .child ha hm hfind hs hcond.2 hok hmid hlog
  | false =>
    refine .quiet [.born a] ?_ ?_ (by simpa [Entry.addr] using ha)
    · simp only [freeLocked,hlis,haddr,remove]
      have hcomp : (((m.update a fun _ => (sendSegment m.io
          (synChild m.io.ticks a l.addr m.nextIss seg) (tcpSyn ||| tcpAck) [] false).pcb).update
            l.addr addPending).pcbs.map fun p => if p.addr = l.addr then dropChild a p else p) =
          (sendSegment m.io (synChild m.io.ticks a l.addr m.nextIss seg)
            (tcpSyn ||| tcpAck) [] false).pcb :: s.pcbs := by
        have hla : ¬ a = l.addr := fun he => hne l hl he.symm
        rw [hmid]
        simp only [update,map_cons,haddr,if_neg hla,List.cons.injEq,true_and,map_map]
        refine map_eq_self fun q hq => ?_
        by_cases hq' : q.addr = l.addr
        · have hpend : (addPending q).addr = l.addr := hq'
          simp only [Function.comp_apply,hq',if_true,hpend]
          refine dropChild_addPending fun hmem => ?_
          obtain ⟨c,hc,hca,-⟩ := hwf.queued q hq a hmem
          exact hne c hc hca
        · simp [hq']
      simp only [update] at hcomp ⊢
      rw [hcomp]
      simp only [filter_cons,haddr,ne_eq,not_true_eq_false,decide_false,Bool.false_eq_true, if_false]
      exact filter_eq_self.mpr fun q hq => by simpa using hne q hq
    · simp only [freeLocked,hlis]
      exact hlog

theorem findPcb_mem {ps : List Pcb} {ip remote : BitVec 32} {port remotePort : BitVec 16}
    (h : findPcb ps ip port remote remotePort = some p) : p ∈ ps ∧ p.state ≠ .closed := by
  rcases Option.or_eq_some_iff.mp h with h | ⟨-,h⟩
  · have hs := find?_some h
    simp only [decide_eq_true_eq] at hs
    exact ⟨mem_of_find?_eq_some h,hs.1⟩
  have hs := find?_some h
  simp only [decide_eq_true_eq] at hs
  exact ⟨mem_of_find?_eq_some h,by rw [hs.1]; decide⟩

theorem segmentInput_change (hwf : Wf s) {seg : Segment} (hm : 1 ≤ seg.mss ∧ seg.mss ≤ localMss)
    (hok : ∀ p, ok p (.input seg)) : Change ok s (s.segmentInput seg) := by
  unfold segmentInput
  split
  · unfold rejectSegment
    split <;> exact .quiet [] rfl (by simp) (by simp)
  rename_i p hfind
  obtain ⟨hp,hopen⟩ := findPcb_mem hfind
  split
  · rename_i hs
    exact listenInput_change hwf hm hfind hp hs.1
  rename_i hs
  have hrst : p.state = .listen → seg.rst = true := fun hl => by
    by_contra hr
    exact hs ⟨hl,by simpa using hr⟩
  refine runOn_change hp ⟨hopen,hm.1,hm.2,hrst⟩ (hok p) (by simp) fun hf hl => ?_
  -- A reset that reaches a listener is ignored.
  simp [Op.run,segmentArrives,hrst hl,rstInput,hl,Outcome.keep] at hf

theorem tcpInput_change (hwf : Wf s) (src dst : BitVec 32) (bytes : List UInt8)
    (hok : ∀ p seg, ok p (.input seg)) : Change ok s (s.tcpInput src dst bytes) := by
  unfold tcpInput
  split
  · exact .quiet [] rfl (by simp) (by simp)
  · exact segmentInput_change hwf (tcpParse_mss ‹_›) fun p => hok p _

theorem bindLocked_cases (p : Pcb) (ip : BitVec 32) (port : BitVec 16) :
    ((s.bindLocked p ip port).1.pcbs = s.pcbs ∧ (s.bindLocked p ip port).1.log = s.log ∧
      (s.bindLocked p ip port).2 ≠ 0) ∨
    ∃ (m : Tcp) (chosen : BitVec 16), m.pcbs = s.pcbs ∧ m.log = s.log ∧
      p.state = .closed ∧ p.localPort = 0 ∧ chosen ≠ 0 ∧ m.portUsed p.addr ip chosen = false ∧
      (s.bindLocked p ip port).1 = (m.runOn p (.bind ip chosen)).1 := by
  have hcode : ∀ m : Tcp, (m,(-22 : Int)).2 ≠ 0 ∧ (m,(-98 : Int)).2 ≠ 0 := by simp
  unfold bindLocked
  split
  · exact .inl ⟨rfl,rfl,(hcode s).1⟩
  rename_i hguard
  dsimp only
  generalize (if port = 0 then s.ephemeralPort p.addr ip 16384 s.nextEphemeral
    else (port,s.nextEphemeral)) = choice
  split
  · exact .inl ⟨rfl,rfl,(hcode _).2⟩
  rename_i hfree
  refine .inr ⟨{ s with nextEphemeral := choice.2 },choice.1,rfl,rfl,?_,?_,?_,?_,rfl⟩
  · by_contra hn; exact hguard (.inl hn)
  · by_contra hn; exact hguard (.inr hn)
  · exact fun hn => hfree (.inl hn)
  rw [Bool.eq_false_iff]
  exact fun hn => hfree (.inr hn)

theorem bindLocked_changes (hp : p ∈ s.pcbs) (ho : p.Owned) (ip : BitVec 32) (port : BitVec 16)
    (hok : ∀ ip port, ok p (.bind ip port)) :
    Changes ok s (s.bindLocked p ip port).1 := by
  rcases bindLocked_cases p ip port with ⟨ht,hl,-⟩ | ⟨m,chosen,hm,hl,hs,-,-,-,ht⟩
  · exact .single (.quiet [] ht (by simp [hl]) (by simp))
  have hq : Change ok s m := .quiet [] hm (by simp [hl]) (by simp)
  rw [ht]
  exact (Relation.ReflTransGen.single hq).tail
    (runOn_change (by rw [hm]; exact hp) ⟨ho,hs⟩ (hok _ _) (by simp) nofun)

theorem bindLocked_find (hwf : Wf s) {q : Pcb} (hp : p ∈ s.pcbs) (ip : BitVec 32) (port : BitVec 16)
    (hq : (s.bindLocked p ip port).1.find p.addr = some q) :
    q = p ∨ ∃ chosen, q = bindPcb p ip chosen := by
  obtain ⟨hm,ha⟩ := find_mem hq
  rcases bindLocked_cases p ip port with ⟨ht,-,-⟩ | ⟨m,chosen,hpc,-,-,-,-,-,ht⟩
  · rw [ht] at hm
    exact .inl (eq_of_addr hwf.nodup hm hp ha)
  rw [ht] at hm
  have hpc' : (m.runOn p (.bind ip chosen)).1.pcbs =
      s.pcbs.map fun r => if r.addr = p.addr then bindPcb p ip chosen else r := by
    rw [← hpc]; rfl
  rw [hpc'] at hm
  obtain ⟨r,hr,rfl⟩ := mem_map.mp hm
  by_cases hra : r.addr = p.addr
  · exact .inr ⟨chosen,if_pos hra⟩
  rw [if_neg hra] at ha
  exact absurd ha hra

theorem tcpConnect_changes (hwf : Wf s) (ifs : Interfaces) (hp : p ∈ s.pcbs) (ho : p.Owned)
    (addr : BitVec 32) (port : BitVec 16) (hb : ∀ ip port, ok p (.bind ip port))
    (hc : ∀ q i a t n, p.state = .closed → q.toReceiver = p.toReceiver → ok q (.connect i a t n)) :
    Changes ok s (s.tcpConnect ifs p addr port).1 := by
  unfold tcpConnect
  split
  · exact .refl
  rename_i hguard
  have hs : p.state = .closed := by by_contra hn; exact hguard (.inl hn)
  split
  · exact .refl
  dsimp only
  have hbind : Changes ok s (if p.localPort = 0 then s.bindLocked p p.localIp 0 else (s,0)).1 := by
    split
    · exact bindLocked_changes hp ho _ _ hb
    · exact .refl
  have hfound : ∀ q, (if p.localPort = 0 then s.bindLocked p p.localIp 0 else (s,0)).1.find p.addr =
      some q → q = p ∨ ∃ chosen, q = bindPcb p p.localIp chosen := by
    intro q hq
    split at hq
    · exact bindLocked_find hwf hp _ _ hq
    obtain ⟨hm,ha⟩ := find_mem hq
    exact .inl (eq_of_addr hwf.nodup hm hp ha)
  generalize (if p.localPort = 0 then s.bindLocked p p.localIp 0 else (s,0)) = b at hbind hfound ⊢
  split
  · exact hbind
  split
  · exact hbind
  rename_i q hq
  have hqm := (find_mem hq).1
  have hqo : (q.Owned ∧ q.state = .closed) ∧ q.toReceiver = p.toReceiver := by
    rcases hfound q hq with rfl | ⟨chosen,rfl⟩
    · exact ⟨⟨ho,hs⟩,rfl⟩
    · exact ⟨⟨ho,hs⟩,rfl⟩
  have hiss : Change ok b.1 { b.1 with tcpIsn := b.1.nextIss } :=
    .quiet [] rfl (by simp) (by simp)
  refine (hbind.tail hiss).tail (runOn_change hqm hqo.1 (hc _ _ _ _ _ hs hqo.2) (by simp)
    fun hf hl => ?_)
  rw [hqo.1.2] at hl
  cases hl

theorem stopWaitAccept_waitersOnly (p : Pcb) (thread : Option Nat) :
    WaitersOnly p (stopWaitAccept p thread) := by
  unfold stopWaitAccept
  split <;> exact ⟨⟨rfl,rfl,rfl⟩,rfl⟩

theorem tcpAccept_changes (hwf : Wf s) {l : Pcb} (hl : l ∈ s.pcbs) (caller : Caller)
    (hok : ∀ c, ok c .accept) : Changes ok s (s.tcpAccept l caller).1 := by
  have hw := stopWaitAccept_waitersOnly l caller.thread
  have hla : (stopWaitAccept l caller.thread).addr = l.addr := by rw [hw.control]
  have hfirst : Change ok s (s.update l.addr fun _ => stopWaitAccept l caller.thread) := by
    refine .waiter l.addr _ (fun p hp ha => ?_) rfl rfl
    rw [eq_of_addr hwf.nodup hp hl ha]
    exact hw
  have hwf₁ := hfirst.wf hwf
  have hmem : stopWaitAccept l caller.thread ∈
      (s.update l.addr fun _ => stopWaitAccept l caller.thread).pcbs :=
    mem_map.mpr ⟨l,hl,if_pos rfl⟩
  unfold tcpAccept
  dsimp only
  rw [hla]
  generalize s.update l.addr (fun _ => stopWaitAccept l caller.thread) = m at hfirst hwf₁ hmem ⊢
  generalize stopWaitAccept l caller.thread = k at hla hmem ⊢
  have hone : Changes ok s m := .single hfirst
  split
  · exact hone
  split
  · exact hone
  rename_i hstate
  have hst : k.state = .listen := by by_contra hn; exact hstate hn
  split
  · rename_i a u rest hn
    obtain ⟨c,hc,hca,hcl,-⟩ := hwf₁.queued k hmem a (by simp [LinkedQueue.addrs,hn])
    have hck : c.addr ≠ k.addr := fun he => hwf₁.listener_ne hc hst (by rw [hcl]; rfl)
      (by rw [eq_of_addr hwf₁.nodup hc hmem he])
    have hcm : c ∈ (m.update l.addr takeChild).pcbs :=
      mem_map.mpr ⟨c,hc,if_neg (by rw [← hla]; exact hck)⟩
    have hnd : (m.update l.addr takeChild).addrs.Nodup := by
      rw [show (m.update l.addr takeChild).addrs = m.addrs from map_addrs fun q _ => by split <;> rfl]
      exact hwf₁.nodup
    have hfind : (m.update l.addr takeChild).find a = some c := by
      rw [← hca]
      exact find_of_mem hnd hcm
    rw [hfind]
    refine hone.tail (.accepted hmem hc (hok c) hst (by rw [hca]; exact hn) hcl ?_ ?_)
    · rw [hla]
      show ((m.update l.addr takeChild).pcbs.map fun p =>
        if p.addr = c.addr then acceptPcb c else p) = _
      refine map_congr_left fun q hq => ?_
      by_cases hqc : q.addr = c.addr
      · rw [if_pos hqc,if_pos hqc,eq_of_addr hnd hq hcm hqc]
      · rw [if_neg hqc,if_neg hqc]
    · rfl
  split
  · exact hone
  split
  · exact hone
  exact hone.tail (.waiter l.addr (fun l => { l with waitAccept := caller.thread })
    (fun p _ _ => ⟨⟨rfl,rfl,rfl⟩,rfl⟩) rfl rfl)

theorem not_listen (hwf : Wf s) (hp : p ∈ s.pcbs) (h : (p.detached || p.listener.isSome) = true) :
    p.state ≠ .listen := by
  intro hs
  have hc := hwf.control p hp
  rcases Bool.or_eq_true_iff.mp h with h | h
  · rw [hc.detached,hs] at h
    cases h
  · rcases hc.child h with hn | hn | hn <;> rw [hs] at hn <;> cases hn

theorem freeChild_change (hwf : Wf s) (l a : Nat) : Changes ok s (freeChild l s a) := by
  unfold freeChild
  split
  · exact .refl
  rename_i c hc
  obtain ⟨hm,-⟩ := find_mem hc
  split
  · rename_i hl
    refine .single (.freed [] hm (fun hs => ?_) rfl ?_ (by simp))
    · exact absurd hs (not_listen hwf hm (by rw [hl]; simp))
    unfold freeLocked
    split <;> simp [remove,update]
  · exact .refl

theorem freeChild_origin (hwf : Wf s) (l a : Nat) {q : Pcb} (hq : q ∈ (freeChild l s a).pcbs) :
    (∃ p ∈ s.pcbs, BacklogOnly p q) ∧ (q.listener = some l → q.addr ≠ a) := by
  unfold freeChild at hq
  split at hq
  · rename_i hn
    exact ⟨⟨q,hq,rfl,rfl,rfl⟩,fun _ ha => find_none hn (ha ▸ mem_addrs hq)⟩
  rename_i c hc
  obtain ⟨hm,hca⟩ := find_mem hc
  split at hq
  · rename_i hl
    rw [freeLocked,hl] at hq
    obtain ⟨hq,hne⟩ := mem_filter.mp hq
    obtain ⟨p,hp,rfl⟩ := mem_map.mp hq
    refine ⟨⟨p,hp,?_⟩,fun _ ha => ?_⟩
    · split
      · exact dropChild_backlogOnly _ _
      · exact ⟨rfl,rfl,rfl⟩
    · simp only [ne_eq,decide_eq_true_eq] at hne
      exact hne (ha.trans hca.symm)
  rename_i hl
  refine ⟨⟨q,hq,rfl,rfl,rfl⟩,fun hql ha => hl ?_⟩
  rw [← eq_of_addr hwf.nodup hq hm (ha.trans hca.symm)]
  exact hql

theorem freeChildren_spec (l : Nat) (as : List Nat) (hwf : Wf s)
    (hall : ∀ c ∈ s.pcbs, c.listener = some l → c.addr ∈ as) :
    Changes ok s (as.foldl (freeChild l) s) ∧ (∀ q ∈ (as.foldl (freeChild l) s).pcbs,
        (∃ p ∈ s.pcbs, BacklogOnly p q) ∧ q.listener ≠ some l) := by
  induction as generalizing s with
  | nil => exact ⟨.refl,fun q hq => ⟨⟨q,hq,rfl,rfl,rfl⟩,fun hl => nomatch hall q hq hl⟩⟩
  | cons a as ih =>
    have hc : Changes ok s (freeChild l s a) := freeChild_change hwf l a
    obtain ⟨hrest,hq⟩ := ih (hc.wf hwf) fun c hm hl => by
      obtain ⟨⟨p,hp,hb⟩,hne⟩ := freeChild_origin hwf l a hm
      have hpl : p.listener = some l := by rw [← hl,hb.control]
      have hpa : c.addr = p.addr := by rw [hb.control]
      rcases mem_cons.mp (hall p hp hpl) with h | h
      · exact absurd (hpa.trans h) (hne hl)
      · rw [hpa]; exact h
    refine ⟨hc.trans hrest,fun q hm => ?_⟩
    obtain ⟨⟨r,hr,hb⟩,hl⟩ := hq q hm
    obtain ⟨⟨p,hp,hb'⟩,-⟩ := freeChild_origin hwf l a hr
    exact ⟨⟨p,hp,hb.control.trans hb'.control,hb.sender.trans hb'.sender,
      hb.receiver.trans hb'.receiver⟩,hl⟩

theorem tcpClose_changes (hwf : Wf s) (hp : p ∈ s.pcbs) (ho : p.Owned) (hok : ∀ q, ok q .close) :
    Changes ok s (s.tcpClose p).1 := by
  have hspec : Changes ok s (s.freeChildren p.addr) ∧ _ :=
    freeChildren_spec p.addr s.addrs hwf fun c hc _ => mem_addrs hc
  unfold tcpClose
  dsimp only
  have hfirst : Changes ok s (if p.state = .listen then s.freeChildren p.addr else s) ∧
      (∀ q ∈ (if p.state = .listen then s.freeChildren p.addr else s).pcbs,
        ∃ r ∈ s.pcbs, BacklogOnly r q) ∧
      (p.state = .listen → ∀ q ∈ (if p.state = .listen then s.freeChildren p.addr else s).pcbs,
        q.listener ≠ some p.addr) := by
    split
    · exact ⟨hspec.1,fun q hq => (hspec.2 q hq).1,fun _ q hq => (hspec.2 q hq).2⟩
    · exact ⟨.refl,fun q hq => ⟨q,hq,rfl,rfl,rfl⟩,fun hs => absurd hs ‹_›⟩
  obtain ⟨hc,horigin,hnone⟩ := hfirst
  split
  · exact hc
  rename_i q hq
  obtain ⟨hqm,hqa⟩ := find_mem hq
  obtain ⟨r,hr,hb⟩ := horigin q hqm
  obtain rfl := eq_of_addr hwf.nodup hr hp (by rw [← hqa,hb.control])
  have hqo : q.Owned := by rw [Pcb.Owned,hb.control]; exact ho
  refine hc.tail (runOn_change hqm hqo (hok q) (by simp) fun _ hs => ?_)
  rw [hb.control] at hs ⊢
  exact hnone hs

theorem tickAt_changes (hwf : Wf s) (now a : Nat) (hok : ∀ p ∈ s.pcbs, ok p (.tick now)) :
    Changes ok s (tickAt now s a) := by
  unfold tickAt
  split
  · exact .refl
  rename_i p hp
  obtain ⟨hm,-⟩ := find_mem hp
  refine .single (runOn_change hm trivial (hok p hm) (by simp) fun hf hs => ?_)
  simp only [Op.run] at hf
  rw [(tickPcb_control s.io p now).1] at hf
  exact absurd hs (not_listen hwf hm (Bool.and_eq_true_iff.mp hf).2)

theorem tickAt_control (now a : Nat) {q : Pcb} (hq : q ∈ (tickAt now s a).pcbs) :
    ∃ r ∈ s.pcbs, q.toControl = r.toControl ∨
      (q.toControl = r.toControl.reset (-110) 0 ∧ r.detached = false) := by
  unfold tickAt at hq
  split at hq
  · exact ⟨q,hq,.inl rfl⟩
  rename_i p hp
  obtain ⟨hpm,-⟩ := find_mem hp
  obtain ⟨-,hcomp,hctl⟩ := tickPcb_control s.io p now
  have hen : (Op.tick now).Enabled p := trivial
  cases hf : ((Op.tick now).run s.io p).freed with
  | true =>
    rw [runOn_freed hen (by simp) hf] at hq
    obtain ⟨-,r,hr,hb⟩ := freeLocked_origin hq
    exact ⟨r,hr,.inl hb.control⟩
  | false =>
    rw [runOn_kept hen hf hcomp] at hq
    obtain ⟨r,hr,rfl⟩ := mem_map.mp hq
    split
    · refine ⟨p,hpm,?_⟩
      simp only [Op.run,hctl]
      split
      · rename_i he
        simp only [Bool.and_eq_true,Bool.not_eq_true',Bool.or_eq_false_iff] at he
        exact .inr ⟨rfl,he.2.1⟩
      · exact .inl rfl
    · exact ⟨r,hr,.inl rfl⟩

theorem tickAt_addrs (now a : Nat) {b : Nat} (hb : b ∈ (tickAt now s a).addrs) : b ∈ s.addrs := by
  obtain ⟨q,hq,rfl⟩ := mem_map.mp hb
  obtain ⟨r,hr,h | ⟨h,-⟩⟩ := tickAt_control now a hq
  · rw [h]; exact mem_addrs hr
  · rw [h]; exact mem_addrs hr

theorem tcpTick_changes (now : Nat) (as : List Nat) (hwf : Wf s) (hok : ∀ p, ok p (.tick now)) :
    Changes ok s (as.foldl (tickAt now) s) := by
  induction as generalizing s with
  | nil => exact .refl
  | cons a as ih =>
    have hc := tickAt_changes hwf now a fun p _ => hok p
    exact hc.trans (ih (hc.wf hwf))

def mayRun (s : Tcp) (e : Event) (p : Pcb) (op : Op) : Prop :=
  match e.call with
  | .new => False
  | .bind _ _ => ∃ ip port, op = .bind ip port
  | .listen backlog => op = .listen backlog
  | .connect _ _ => (∃ ip port, op = .bind ip port) ∨
    (op.isConnect = true ∧ ∃ q, s.held e.pcb = some q ∧ q.state = .closed ∧ p.toReceiver = q.toReceiver)
  | .connectWait caller => op = .connectWait caller
  | .accept _ => op = .accept
  | .send data => op = .send data
  | .recv caller len => op = .recv caller len
  | .close => op = .close
  | .input _ _ _ => ∃ seg, op = .input seg
  | .tick now => op = .tick now

theorem onHeld_changes (f : Pcb → Tcp × Result) (a : Nat)
    (h : ∀ p ∈ s.pcbs, p.Owned → s.held a = some p → Changes ok s (f p).1) :
    Changes ok s (s.onHeld a f).1 := by
  unfold onHeld
  split
  · exact .refl
  rename_i p hp
  obtain ⟨hm,-,ho⟩ := held_mem hp
  exact h p hm ho hp

theorem onHeld_runOn (a : Nat) (op : Op) (hen : ∀ p : Pcb, p.Owned → op.Enabled p)
    (hok : ∀ p, ok p op) (hna : op ≠ .accept) (hf : ∀ p, (op.run s.io p).freed = false) :
    Changes ok s (s.onHeld a fun p => s.runOn p op).1 :=
  onHeld_changes _ _ fun p hp ho _ => .single
    (runOn_change hp (hen p ho) (hok p) hna fun hn => by rw [hf p] at hn; cases hn)

theorem dispatch_changes (hwf : Wf s) (e : Event) : Changes (s.mayRun e) s (s.dispatch e).1 := by
  unfold dispatch mayRun
  generalize e.call = call
  cases call with
  | new => exact .single newLocked_change
  | bind ip port =>
    exact onHeld_changes _ _ fun p hp ho _ =>
      bindLocked_changes hp ho ip port fun _ _ => ⟨_,_,rfl⟩
  | listen backlog =>
    refine onHeld_runOn _ _ (fun _ ho => ho) (fun _ => rfl) (by simp) fun p => ?_
    simp only [Op.run,listenPcb]
    split <;> rfl
  | connect addr port =>
    exact onHeld_changes _ _ fun p hp ho hh => tcpConnect_changes hwf e.ifs hp ho addr port
      (fun _ _ => .inl ⟨_,_,rfl⟩) fun _ _ _ _ _ hs hr => .inr ⟨rfl,p,hh,hs,hr⟩
  | connectWait caller =>
    exact onHeld_runOn _ _ (fun _ ho => ho) (fun _ => rfl) (by simp)
      fun p => (connectWait_waitersOnly s.io p caller).2.1.freed
  | accept caller =>
    exact onHeld_changes _ _ fun l hl _ _ => tcpAccept_changes hwf hl caller fun _ => rfl
  | send data =>
    exact onHeld_runOn _ _ (fun _ ho => ho) (fun _ => rfl) (by simp)
      fun p => (tcpSend_senderOnly s.io p data).2.freed
  | recv caller len =>
    exact onHeld_runOn _ _ (fun _ ho => ho) (fun _ => rfl) (by simp)
      fun p => (tcpRecv_cases s.io p caller len).1.freed
  | close => exact onHeld_changes _ _ fun p hp ho _ => tcpClose_changes hwf hp ho fun _ => rfl
  | input src dst bytes =>
    exact .single (tcpInput_change hwf src dst bytes fun _ _ => ⟨_,rfl⟩)
  | tick now => exact tcpTick_changes now s.addrs hwf fun _ => rfl

theorem step_changes (hwf : Wf s) (e : Event) : Changes (s.mayRun e) s (s.step e) := by
  have henter : Change (s.mayRun e) s (s.enter e) := .quiet [] rfl (by simp [enter]) (by simp)
  exact .head henter (dispatch_changes (henter.wf hwf) e)

theorem step_wf (hwf : Wf s) (e : Event) : Wf (s.step e) := (step_changes hwf e).wf hwf

theorem init_wf : Wf init :=
  ⟨nodup_nil,by simp [init],by simp [init],by simp [init]⟩

theorem run_wf (es : List Event) : Wf (machine.run es) :=
  machine.run_invariant init_wf (fun _ e h => step_wf h e) es

end Tcp

open Tcp

section
variable (log : List Entry)

theorem history_append (extra : List Entry) (a : Nat) :
    history (log ++ extra) a = extra.foldl (History.note a) (history log a) := foldl_append

theorem history_other {extra : List Entry} {a : Nat} (h : ∀ e ∈ extra, e.addr ≠ a) :
    history (log ++ extra) a = history log a := by
  rw [history_append]
  generalize history log a = start
  induction extra generalizing start with
  | nil => rfl
  | cons e extra ih =>
    have he : History.note a start e = start := by
      have hne := h e mem_cons_self
      cases e with
      | born b => exact if_neg hne
      | ran b r => exact if_neg hne
    rw [foldl_cons,he]
    exact ih (fun e' hm => h e' (mem_cons_of_mem _ hm)) start

theorem history_born (a : Nat) : history (log ++ [.born a]) a = .empty := by
  rw [history_append]
  exact if_pos rfl

theorem history_ran (a : Nat) (r : Ran) : history (log ++ [.ran a r]) a = (history log a).after r := by
  rw [history_append]
  exact if_pos rfl

end

theorem Emits.emitted {a : Nat} {Q : Segment → Prop} {io : Io} {o : Outcome} (op : Op)
    (h : Emits a Q io o.io) : ∀ seg ∈ (op.ran io o).emitted, Q seg := by
  obtain ⟨new,hout,hnew⟩ := h.out
  intro seg hseg
  have hnew' : (op.ran io o).emitted = new.map (·.seg) := by simp [Op.ran,hout]
  rw [hnew'] at hseg
  obtain ⟨pk,hpk,rfl⟩ := mem_map.mp hseg
  exact (hnew pk hpk).2

theorem Op.sentAfter_append {p : Pcb} {op : Op} (hen : op.Enabled p) (hno : op.isConnect = false)
    (sent : List UInt8) (r : Result) :
    ∃ more, op.sentAfter sent r = sent ++ more ∧ (p.detached = true → more = []) := by
  cases op with
  | connect => cases hno
  | send data => exact ⟨_,rfl,fun hd => by rw [hen.1] at hd; cases hd⟩
  | _ => exact ⟨[],by simp [Op.sentAfter],fun _ => rfl⟩

structure PcbInvariant (ok : Pcb → Op → Prop) (I : Pcb → History → Prop) : Prop where
  backlog : ∀ {p q : Pcb} {h : History}, BacklogOnly p q → I p h → I q h
  fresh : ∀ a, I (Pcb.fresh a) .empty
  child : ∀ (io : Io) (a l : Nat) (iss : BitVec 32) (seg : Segment), seg.mss ≤ localMss →
    (sendSegment io (synChild io.ticks a l iss seg) (tcpSyn ||| tcpAck) [] false).ok = true →
    I (sendSegment io (synChild io.ticks a l iss seg) (tcpSyn ||| tcpAck) [] false).pcb .empty
  run : ∀ (io : Io) {p : Pcb} {h : History} {op : Op}, I p h → ControlOk p.toControl →
    op.Enabled p → ok p op → (op.run io p).freed = false →
    I (op.run io p).pcb (h.after (op.ran io (op.run io p)))

variable {ok : Pcb → Op → Prop} {I : Pcb → History → Prop} {s t : Tcp}

def Tcp.All (I : Pcb → History → Prop) (s : Tcp) : Prop :=
  ∀ p ∈ s.pcbs, I p (history s.log p.addr)

theorem Tcp.All.other (h : s.All I) {extra : List Entry} (hl : t.log = s.log ++ extra) {p : Pcb}
    (hp : p ∈ s.pcbs) (hx : ∀ e ∈ extra, e.addr ≠ p.addr) : I p (history t.log p.addr) := by
  rw [hl,history_other _ hx]
  exact h p hp

section
variable (hI : PcbInvariant ok I)
include hI

theorem PcbInvariant.ran (hwf : Wf s) (h : s.All I) {p : Pcb} {op : Op} (hp : p ∈ s.pcbs)
    (hen : op.Enabled p) (hok : ok p op) (hf : (op.run s.io p).freed = false)
    (ht : t.pcbs = (s.update p.addr fun _ => (op.run s.io p).pcb).pcbs)
    (hl : t.log = s.log ++ [.ran p.addr (op.ran s.io (op.run s.io p))]) : t.All I := by
  intro q hq
  rw [ht] at hq
  obtain ⟨r,hr,rfl⟩ := mem_map.mp hq
  by_cases ha : r.addr = p.addr
  · obtain rfl := eq_of_addr hwf.nodup hr hp ha
    rw [if_pos rfl,(Op.run_fixed s.io r hen).1,hl,history_ran]
    exact hI.run s.io (h r hr) (hwf.control r hr) hen hok hf
  · rw [if_neg ha]
    exact h.other hl hr (by simpa [Entry.addr] using fun hn => ha hn.symm)

theorem PcbInvariant.mapBacklog (h : s.All I) {g : Pcb → Pcb} (hg : ∀ p ∈ s.pcbs, BacklogOnly p (g p))
    (ht : t.pcbs = s.pcbs.map g) (hl : t.log = s.log) :
    t.All I := by
  intro q hq
  rw [ht] at hq
  obtain ⟨r,hr,rfl⟩ := mem_map.mp hq
  have hb := hg r hr
  rw [hl,show (g r).addr = r.addr by rw [hb.control]]
  exact hI.backlog hb (h r hr)

theorem PcbInvariant.change (hwf : Wf s) (hc : Change ok s t) (h : s.All I) : t.All I := by
  cases hc with
  | quiet extra ht hl hx =>
    intro p hp
    rw [ht] at hp
    exact h.other hl hp fun e he hn => hx e he (hn ▸ mem_addrs hp)
  | waiter a f hf ht hl =>
    refine hI.mapBacklog h (fun p hp => ?_) ht hl
    split
    · exact (hf p hp ‹_›).backlogOnly
    · exact ⟨rfl,rfl,rfl⟩
  | @born a ha ht hl =>
    intro p hp
    rw [ht] at hp
    rcases mem_cons.mp hp with rfl | hp
    · rw [hl]
      have hb := history_born s.log (Pcb.fresh a).addr
      rw [show (Pcb.fresh a).addr = a from rfl] at hb ⊢
      rw [hb]
      exact hI.fresh a
    · have hne : a ≠ p.addr := fun hn => ha (hn ▸ mem_addrs hp)
      exact h.other hl hp (by simpa [Entry.addr] using hne)
  | @child l a io iss seg ha hm hfind hs hroom hok ht hl =>
    intro p hp
    rw [ht] at hp
    rcases mem_cons.mp hp with rfl | hp
    · have hctl := (sendSegment_senderOnly io (synChild io.ticks a l.addr iss seg)
        (tcpSyn ||| tcpAck) [] false).control
      have haddr := congrArg Control.addr hctl
      rw [hl,show (sendSegment io (synChild io.ticks a l.addr iss seg) (tcpSyn ||| tcpAck) []
        false).pcb.addr = a from haddr,history_born]
      exact hI.child io a l.addr iss seg hm.2 hok
    obtain ⟨r,hr,rfl⟩ := mem_map.mp hp
    have hb : BacklogOnly r (if r.addr = l.addr then addPending r else r) :=
      (addPending_backlogOnly r).ite _
    rw [show (if r.addr = l.addr then addPending r else r).addr = r.addr by rw [hb.control]]
    have hne : a ≠ r.addr := fun hn => ha (hn ▸ mem_addrs hr)
    exact hI.backlog hb (h.other hl hr (by simpa [Entry.addr] using hne))
  | ran hp hen hok _ hf _ ht hl => exact hI.ran hwf h hp hen hok hf ht hl
  | @completed p op l hp hen hok hna hf _ _ ht hl =>
    have hmid : Tcp.All I { s.update p.addr (fun _ => (op.run s.io p).pcb) with
        log := s.log ++ [.ran p.addr (op.ran s.io (op.run s.io p))] } :=
      hI.ran hwf h hp hen hok hf rfl rfl
    exact hI.mapBacklog hmid (fun q _ => (queueChild_backlogOnly p.addr q).ite _) ht hl
  | @freed p extra hp _ ht hl hx =>
    intro q hq
    rw [ht] at hq
    obtain ⟨hne,r,hr,hb⟩ := freeLocked_origin hq
    have hra : q.addr = r.addr := by rw [hb.control]
    rw [hra]
    exact hI.backlog hb (h.other hl hr fun e he hn => hne (by rw [hra,← hn,hx e he]))
  | @accepted l c rest hlm hc hok hs hn hlis ht hlog =>
    have hmid : Tcp.All I (s.update l.addr takeChild) :=
      hI.mapBacklog h (fun q _ => (takeChild_backlogOnly q).ite _) rfl rfl
    have hne : c.addr ≠ l.addr := fun ha => hwf.listener_ne hc hs (by rw [hlis]; rfl)
      (by rw [eq_of_addr hwf.nodup hc hlm ha])
    intro q hq
    rw [ht] at hq
    obtain ⟨r,hr,rfl⟩ := mem_map.mp hq
    by_cases hra : r.addr = c.addr
    · obtain ⟨r₀,hr₀,rfl⟩ := mem_map.mp hr
      have hr₀c : r₀ = c := by
        refine eq_of_addr hwf.nodup hr₀ hc ?_
        split at hra
        · exact hra
        · exact hra
      subst hr₀c
      rw [if_pos hra,if_neg hne,hlog]
      rw [show (acceptPcb r₀).addr = r₀.addr from rfl,history_ran]
      exact hI.run s.io (h r₀ hc) (hwf.control r₀ hc) (by rw [Op.Enabled,hlis]; rfl) hok rfl
    rw [if_neg hra]
    have hl' : t.log = (s.update l.addr takeChild).log ++
      [.ran c.addr (Op.accept.ran s.io (Op.accept.run s.io c))] := hlog
    exact hmid.other hl' hr (by simpa [Entry.addr] using fun hn => hra hn.symm)

theorem PcbInvariant.changes (hwf : Wf s) (hc : Changes ok s t) (h : s.All I) : t.All I := by
  induction hc with
  | refl => exact h
  | tail hfirst hlast ih => exact hI.change (Changes.wf hfirst hwf) hlast ih

/-- The rule of the layer: what holds of one PCB through each permitted operation
holds of every PCB on the list after every run that permits no others. -/
theorem PcbInvariant.run_along {may : Tcp → Tcp.Event → Prop}
    (hmay : ∀ s e p op, may s e → mayRun s e p op → ok p op) (es : List Tcp.Event)
    (h : machine.Along may .init es) : (machine.run es).All I := by
  have hstep : ∀ s e, Wf s ∧ s.All I → may s e → Wf (step s e) ∧ (step s e).All I := by
    rintro s e ⟨hwf,h⟩ hm
    exact ⟨step_wf hwf e,
      hI.changes hwf ((step_changes hwf e).mono fun p op => hmay s e p op hm) h⟩
  exact (machine.runFrom_invariant may (I := fun s => Wf s ∧ s.All I) hstep
    ⟨init_wf,by simp [Tcp.All,init]⟩ es h).2

end

theorem PcbInvariant.run_all (hI : PcbInvariant (fun _ _ => True) I) (es : List Tcp.Event) :
    (machine.run es).All I :=
  hI.run_along (fun _ _ _ _ _ _ => trivial) es (machine.along_of_forall (fun _ _ => trivial) _ es)

end Rucux.Net
