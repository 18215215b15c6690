import Rucux.Net.Tcp.Sending

namespace Rucux.Net
open Lib List Tcp

theorem completions_concat (log : List Entry) (e : Entry) : completions (log ++ [e]) = match e with
      | .born a => (completions log).filter (· ≠ a)
      | .ran a r => if r.completed then completions log ++ [a] else completions log := by
  rw [completions,foldl_append]
  rfl

theorem completions_filter (log : List Entry) {extra : List Entry} {P : Nat → Bool}
    (h : ∀ e ∈ extra, P e.addr = false) :
    (completions (log ++ extra)).filter P = (completions log).filter P := by
  induction extra generalizing log with
  | nil => rw [append_nil]
  | cons e extra ih =>
    have he := h e mem_cons_self
    rw [append_cons,ih _ fun e' hm => h e' (mem_cons_of_mem _ hm),completions_concat]
    cases e with
    | born a =>
      rw [filter_filter]
      refine filter_congr fun x _ => ?_
      by_cases hx : x = a
      · rw [hx,show P a = false from he]
        rfl
      · simp [hx]
    | ran a r =>
      have ha : P a = false := he
      dsimp only
      split <;> simp [ha]

theorem mem_completions (log : List Entry) {extra : List Entry} {a : Nat}
    (h : ∀ e ∈ extra, e.addr ≠ a) : a ∈ completions (log ++ extra) ↔ a ∈ completions log := by
  have hf : (completions (log ++ extra)).filter (fun x => x = a) =
      (completions log).filter (fun x => x = a) := by
    refine completions_filter log fun e he => ?_
    simpa using h e he
  have hm : ∀ xs : List Nat, a ∈ xs ↔ a ∈ xs.filter (fun x => x = a) := fun xs => by
    simp [mem_filter]
  rw [hm,hf,← hm]

def childrenOf (ps : List Pcb) (a : Nat) : List Nat :=
  (ps.filter (·.listener = some a)).map (·.addr)

theorem childrenOf_cons (p : Pcb) (ps : List Pcb) (a : Nat) : childrenOf (p :: ps) a =
    if p.listener = some a then p.addr :: childrenOf ps a else childrenOf ps a := by
  by_cases hp : p.listener = some a <;> simp [hp,childrenOf]

theorem childrenOf_map {ps : List Pcb} {g : Pcb → Pcb}
    (hg : ∀ p ∈ ps, (g p).addr = p.addr ∧ (g p).listener = p.listener) (a : Nat) :
    childrenOf (ps.map g) a = childrenOf ps a := by
  induction ps with
  | nil => rfl
  | cons p ps ih =>
    obtain ⟨ha,hl⟩ := hg p mem_cons_self
    rw [map_cons,childrenOf_cons,childrenOf_cons,ha,hl, ih fun q hq => hg q (mem_cons_of_mem _ hq)]

theorem childrenOf_filter (ps : List Pcb) (x a : Nat) :
    childrenOf (ps.filter (·.addr ≠ x)) a = (childrenOf ps a).filter (· ≠ x) := by
  rw [childrenOf,childrenOf,filter_map,filter_filter,filter_filter]
  congr 1
  exact filter_congr fun p _ => Bool.and_comm _ _

theorem childrenOf_accept (ps : List Pcb) (x a : Nat) :
    childrenOf (ps.map fun p => if p.addr = x then acceptPcb p else p) a =
      (childrenOf ps a).filter (· ≠ x) := by
  induction ps with
  | nil => rfl
  | cons p ps ih =>
    rw [map_cons,childrenOf_cons,childrenOf_cons,ih]
    by_cases hp : p.addr = x
    · by_cases hl : p.listener = some a <;> simp [hp,hl,acceptPcb]
    · by_cases hl : p.listener = some a <;> simp [hp,hl]

namespace Tcp
variable {s : Tcp}

def children (s : Tcp) (a : Nat) : List Nat := childrenOf s.pcbs a

theorem mem_children {a x : Nat} : x ∈ s.children a ↔ ∃ c ∈ s.pcbs, c.listener = some a ∧ c.addr = x := by
  simp [children,childrenOf,and_assoc]

theorem addr_mem_children (hn : s.addrs.Nodup) {p : Pcb} (hp : p ∈ s.pcbs) (a : Nat) :
    p.addr ∈ s.children a ↔ p.listener = some a := by
  rw [mem_children]
  constructor
  · rintro ⟨c,hc,hl,ha⟩
    rwa [← eq_of_addr hn hc hp ha]
  · intro hl
    exact ⟨p,hp,hl,rfl⟩

theorem children_nodup (h : s.addrs.Nodup) (a : Nat) : (s.children a).Nodup :=
  h.sublist (filter_sublist.map _)

theorem freeLocked_pcbs (s : Tcp) (p : Pcb) : (s.freeLocked p).pcbs = (s.pcbs.map fun q =>
      if p.listener = some q.addr then dropChild p.addr q else q).filter (·.addr ≠ p.addr) := by
  unfold freeLocked
  cases p.listener with
  | none => simp [remove]
  | some l => simp [remove,update,eq_comm]

end Tcp

theorem filter_ne {xs : List Nat} (hn : xs.Nodup) (x : Nat) : xs.filter (· ≠ x) = xs.erase x := by
  rw [hn.erase_eq_filter]
  exact filter_congr fun y _ => by by_cases h : y = x <;> simp [h]

theorem length_filter_ne {xs : List Nat} (hn : xs.Nodup) (x : Nat) :
    ((xs.filter (· ≠ x)).length : Int) = xs.length-(if x ∈ xs then 1 else 0) := by
  rw [filter_ne hn,length_erase]
  split
  · rename_i hx
    have := length_pos_of_mem hx
    omega
  · simp

/-- The books of every listener are right. -/
structure Listening (s : Tcp) : Prop where
  pointer : ∀ c ∈ s.pcbs, ∀ l, c.listener = some l → ∃ p ∈ s.pcbs, p.addr = l ∧ p.state = .listen
  count : ∀ p ∈ s.pcbs, p.pendingCount = (s.children p.addr).length
  room : ∀ p ∈ s.pcbs, p.state = .listen → p.pendingCount ≤ p.backlog
  queue : ∀ p ∈ s.pcbs, p.acceptQueue.addrs = (completions s.log).filter (· ∈ s.children p.addr)
  handshake : ∀ c ∈ s.pcbs, c.state = .synReceived → c.addr ∉ completions s.log
  complete : ∀ c ∈ s.pcbs, c.listener.isSome = true → c.state ≠ .synReceived → c.addr ∈ completions s.log

namespace Listening
variable {s t : Tcp}

variable {p : Pcb}

theorem childless (h : Listening s) (hn : s.addrs.Nodup) (hp : p ∈ s.pcbs) (hs : p.state ≠ .listen) :
    s.children p.addr = [] := by
  refine eq_nil_iff_forall_not_mem.mpr fun x hx => ?_
  obtain ⟨c,hc,hl,-⟩ := mem_children.mp hx
  obtain ⟨q,hq,ha,hqs⟩ := h.pointer c hc _ hl
  exact hs (by rw [← eq_of_addr hn hq hp ha]; exact hqs)

section
variable (h : Listening s) {g : Pcb → Pcb}
include h

theorem of_map (ht : t.pcbs = s.pcbs.map g)
    (hg : ∀ p ∈ s.pcbs, (g p).addr = p.addr ∧ (g p).listener = p.listener ∧ (g p).pendingCount = p.pendingCount)
    (hlisten : ∀ p ∈ s.pcbs, p.state = .listen → s.children p.addr ≠ [] → (g p).state = .listen)
    (hroom : ∀ p ∈ s.pcbs, (g p).state = .listen → p.pendingCount ≤ (g p).backlog)
    (hqueue : ∀ p ∈ s.pcbs, (g p).acceptQueue.addrs = (completions t.log).filter (· ∈ s.children p.addr))
    (hhand : ∀ c ∈ s.pcbs, (g c).state = .synReceived → c.addr ∉ completions t.log)
    (hcomp : ∀ c ∈ s.pcbs, c.listener.isSome = true → (g c).state ≠ .synReceived → c.addr ∈ completions t.log) :
    Listening t := by
  have hch : ∀ a, t.children a = s.children a := fun a => by
    rw [children,ht,childrenOf_map fun p hp => ⟨(hg p hp).1,(hg p hp).2.1⟩]
    rfl
  constructor
  · rw [ht]
    refine forall_mem_map.mpr fun c hc l hl => ?_
    rw [(hg c hc).2.1] at hl
    obtain ⟨p,hp,ha,hs⟩ := h.pointer c hc l hl
    refine ⟨g p,mem_map_of_mem hp,(hg p hp).1.trans ha,hlisten p hp hs ?_⟩
    exact ne_nil_of_mem (mem_children.mpr ⟨c,hc,by rw [ha]; exact hl,rfl⟩)
  · rw [ht]
    refine forall_mem_map.mpr fun p hp => ?_
    rw [(hg p hp).2.2,(hg p hp).1,hch]
    exact h.count p hp
  · rw [ht]
    refine forall_mem_map.mpr fun p hp hs => ?_
    rw [(hg p hp).2.2]
    exact hroom p hp hs
  · rw [ht]
    refine forall_mem_map.mpr fun p hp => ?_
    rw [(hg p hp).1,hch]
    exact hqueue p hp
  · rw [ht]
    refine forall_mem_map.mpr fun c hc hs => ?_
    rw [(hg c hc).1]
    exact hhand c hc hs
  rw [ht]
  refine forall_mem_map.mpr fun c hc hl hs => ?_
  rw [(hg c hc).1]
  rw [(hg c hc).2.1] at hl
  exact hcomp c hc hl hs

theorem of_same (ht : t.pcbs = s.pcbs.map g)
    (hg : ∀ p ∈ s.pcbs, (g p).toControl = p.toControl ∧ (g p).toBacklog = p.toBacklog) {extra : List Entry}
    (hl : t.log = s.log ++ extra) (hx : ∀ e ∈ extra, e.addr ∉ s.addrs) :
    Listening t := by
  have hmem : ∀ c ∈ s.pcbs, c.addr ∈ completions t.log ↔ c.addr ∈ completions s.log := by
    intro c hc
    rw [hl]
    exact mem_completions _ fun e he hn => hx e he (hn ▸ mem_addrs hc)
  refine h.of_map ht (fun p hp => ⟨by rw [(hg p hp).1],by rw [(hg p hp).1],by rw [(hg p hp).2]⟩)
    (fun p hp hs _ => by rw [(hg p hp).1]; exact hs)
    (fun p hp hs => by rw [(hg p hp).1] at hs; rw [(hg p hp).2]; exact h.room p hp hs)
    (fun p hp => ?_) (fun c hc hs => ?_) fun c hc hlis hs => ?_
  · rw [(hg p hp).2,hl,completions_filter _ fun e he => ?_]
    · exact h.queue p hp
    rw [decide_eq_false_iff_not]
    intro hm
    obtain ⟨c,hc,-,ha⟩ := mem_children.mp hm
    exact hx e he (ha ▸ mem_addrs hc)
  · rw [(hg c hc).1] at hs
    rw [hmem c hc]
    exact h.handshake c hc hs
  rw [(hg c hc).1] at hs
  rw [hmem c hc]
  exact h.complete c hc hlis hs

theorem cons (hn : s.addrs.Nodup) (ht : t.pcbs = p :: s.pcbs.map g) (hl : t.log = s.log ++ [.born p.addr])
    (hg : ∀ q ∈ s.pcbs, (g q).toControl = q.toControl ∧ (g q).acceptQueue = q.acceptQueue ∧
      (g q).backlog = q.backlog ∧
      (g q).pendingCount = q.pendingCount+(if p.listener = some q.addr then 1 else 0))
    (hlis : ∀ l, p.listener = some l → ∃ q ∈ s.pcbs, q.addr = l ∧ q.state = .listen ∧ q.pendingCount < q.backlog)
    (ha : p.addr ∉ s.addrs) (hs : p.state ≠ .listen) (hp : p.pendingCount = 0) (hq : p.acceptQueue = .empty)
    (hnew : p.listener.isSome = true → p.state = .synReceived) :
    Listening t := by
  have hch : ∀ a, t.children a =
      if p.listener = some a then p.addr :: s.children a else s.children a := by
    intro a
    rw [children,ht,childrenOf_cons,
      childrenOf_map fun q hq => ⟨by rw [(hg q hq).1],by rw [(hg q hq).1]⟩]
    rfl
  have hself : p.listener ≠ some p.addr := fun hn' => by
    obtain ⟨q,hq,hqa,-⟩ := hlis _ hn'
    exact ha (hqa ▸ mem_addrs hq)
  have hown : t.children p.addr = [] := by
    rw [hch,if_neg hself]
    refine eq_nil_iff_forall_not_mem.mpr fun x hx => ?_
    obtain ⟨c,hc,hcl,-⟩ := mem_children.mp hx
    obtain ⟨q,hq,hqa,-⟩ := h.pointer c hc _ hcl
    exact ha (hqa ▸ mem_addrs hq)
  have hne : ∀ q ∈ s.pcbs, q.addr ≠ p.addr := fun q hq he => ha (he ▸ mem_addrs hq)
  have hdone : completions t.log = (completions s.log).filter (· ≠ p.addr) := by
    rw [hl,completions_concat]
  constructor
  · rw [ht]
    refine forall_mem_cons.mpr ⟨fun l hpl => ?_,forall_mem_map.mpr fun c hc l hcl => ?_⟩
    · obtain ⟨q,hqm,hqa,hqs,-⟩ := hlis l hpl
      exact ⟨g q,mem_cons_of_mem _ (mem_map_of_mem hqm),by rw [(hg q hqm).1]; exact hqa,
        by rw [(hg q hqm).1]; exact hqs⟩
    rw [(hg c hc).1] at hcl
    obtain ⟨q,hqm,hqa,hqs⟩ := h.pointer c hc l hcl
    exact ⟨g q,mem_cons_of_mem _ (mem_map_of_mem hqm),by rw [(hg q hqm).1]; exact hqa,
      by rw [(hg q hqm).1]; exact hqs⟩
  · rw [ht]
    refine forall_mem_cons.mpr ⟨by rw [hp,hown]; rfl,forall_mem_map.mpr fun q hqm => ?_⟩
    rw [(hg q hqm).2.2.2,(hg q hqm).1,h.count q hqm,hch]
    split <;> simp
  · rw [ht]
    refine forall_mem_cons.mpr ⟨fun hn' => absurd hn' hs, forall_mem_map.mpr fun q hqm hqs => ?_⟩
    rw [(hg q hqm).1] at hqs
    rw [(hg q hqm).2.2.2,(hg q hqm).2.2.1]
    split
    · obtain ⟨r,hr,hra,-,hroom⟩ := hlis _ ‹_›
      obtain rfl := eq_of_addr hn hr hqm hra
      omega
    · have := h.room q hqm hqs
      omega
  · rw [ht]
    refine forall_mem_cons.mpr ⟨by rw [hq,hown]; simp,forall_mem_map.mpr fun q hqm => ?_⟩
    rw [(hg q hqm).2.1,(hg q hqm).1,h.queue q hqm,hdone,filter_filter]
    refine filter_congr fun x _ => ?_
    have hx : x ∈ s.children q.addr → x ≠ p.addr := fun hx he => by
      obtain ⟨c,hc,-,hca⟩ := mem_children.mp hx
      exact hne c hc (hca.trans he)
    rw [hch]
    by_cases hxp : x = p.addr
    · have : x ∉ s.children q.addr := fun hm => hx hm hxp
      simp [hxp] at this ⊢
      exact this
    · split <;> simp [hxp]
  · rw [ht,hdone]
    refine forall_mem_cons.mpr ⟨fun _ hm => ?_,forall_mem_map.mpr fun c hc hcs hm => ?_⟩
    · simp at hm
    rw [(hg c hc).1] at hcs hm
    exact h.handshake c hc hcs (mem_of_mem_filter hm)
  rw [ht,hdone]
  refine forall_mem_cons.mpr ⟨fun hl' hs' => absurd (hnew hl') hs',
    forall_mem_map.mpr fun c hc hcl hcs => ?_⟩
  rw [(hg c hc).1] at hcl hcs ⊢
  exact mem_filter.mpr ⟨h.complete c hc hcl hcs,by simpa using hne c hc⟩

end

structure Left (s : Tcp) (x : Nat) (r q : Pcb) : Prop where
  addr : q.addr = r.addr
  state : q.state = r.state
  backlog : q.backlog = r.backlog
  count : q.pendingCount = r.pendingCount-(if x ∈ s.children r.addr then 1 else 0)
  queue : q.acceptQueue.addrs = r.acceptQueue.addrs.filter (· ≠ x)
  listener : ∀ l, q.listener = some l → r.listener = some l ∧ r.addr ≠ x

section
variable (h : Listening s)
include h

theorem leave (hn : s.addrs.Nodup) {x : Nat} {extra : List Entry}
    (hfrom : ∀ q ∈ t.pcbs, ∃ r ∈ s.pcbs, Left s x r q)
    (hto : ∀ c ∈ s.pcbs, c.addr ≠ x → ∀ r ∈ s.pcbs, c.listener = some r.addr → r.state = .listen →
      ∃ q ∈ t.pcbs, Left s x r q)
    (hch : ∀ a, t.children a = (s.children a).filter (· ≠ x)) (hl : t.log = s.log ++ extra)
    (hx : ∀ e ∈ extra, e.addr = x) (hgone : ∀ q ∈ t.pcbs, q.addr = x → q.state ≠ .synReceived) :
    Listening t := by
  have hmem : ∀ a, a ≠ x → (a ∈ completions t.log ↔ a ∈ completions s.log) := fun a ha => by
    rw [hl]
    exact mem_completions _ fun e he hea => ha (by rw [← hea,hx e he])
  constructor
  · intro q hq l hlis
    obtain ⟨r,hr,hleft⟩ := hfrom q hq
    obtain ⟨hrl,hrx⟩ := hleft.listener l hlis
    obtain ⟨p,hp,hpa,hps⟩ := h.pointer r hr l hrl
    obtain ⟨p',hp',hleft'⟩ := hto r hr hrx p hp (by rw [hrl,hpa]) hps
    exact ⟨p',hp',hleft'.addr.trans hpa,hleft'.state.trans hps⟩
  · intro q hq
    obtain ⟨r,hr,hleft⟩ := hfrom q hq
    rw [hleft.count,hleft.addr,hch,length_filter_ne (children_nodup hn _),h.count r hr]
  · intro q hq hqs
    obtain ⟨r,hr,hleft⟩ := hfrom q hq
    have hroom := h.room r hr (hleft.state.symm.trans hqs)
    rw [hleft.count,hleft.backlog]
    split <;> omega
  · intro q hq
    obtain ⟨r,hr,hleft⟩ := hfrom q hq
    rw [hleft.queue,h.queue r hr,hleft.addr,hch,hl,completions_filter _ fun e he => ?_]
    · rw [filter_filter]
      exact filter_congr fun y _ => by simp [and_comm]
    · simp [hx e he]
  · intro q hq hqs hm
    obtain ⟨r,hr,hleft⟩ := hfrom q hq
    have hne : q.addr ≠ x := fun he => hgone q hq he hqs
    rw [hmem _ hne,hleft.addr] at hm
    exact h.handshake r hr (hleft.state.symm.trans hqs) hm
  intro q hq hlis hqs
  obtain ⟨r,hr,hleft⟩ := hfrom q hq
  obtain ⟨l,hlis⟩ := Option.isSome_iff_exists.mp hlis
  obtain ⟨hrl,hrx⟩ := hleft.listener l hlis
  rw [hleft.addr,hmem _ hrx]
  exact h.complete r hr (by rw [hrl]; rfl) fun hn' => hqs (hleft.state.trans hn')

theorem queue_sub (hp : p ∈ s.pcbs) {x : Nat} (hx : x ∈ p.acceptQueue.addrs) : x ∈ s.children p.addr := by
  rw [h.queue p hp] at hx
  simpa using (mem_filter.mp hx).2

theorem freed (hwf : Wf s) (hp : p ∈ s.pcbs) {extra : List Entry}
    (hlast : p.state = .listen → ∀ c ∈ s.pcbs, c.listener ≠ some p.addr)
    (ht : t.pcbs = (s.freeLocked p).pcbs) (hl : t.log = s.log ++ extra) (hx : ∀ e ∈ extra, e.addr = p.addr) :
    Listening t := by
  rw [freeLocked_pcbs] at ht
  have hleft : ∀ r ∈ s.pcbs, r.addr ≠ p.addr →
      Left s p.addr r (if p.listener = some r.addr then dropChild p.addr r else r) := by
    intro r hr hne
    have hmem := addr_mem_children hwf.nodup hp r.addr
    by_cases hlis : p.listener = some r.addr
    · rw [if_pos hlis]
      refine ⟨rfl,rfl,rfl,?_,?_,fun l hrl => ⟨hrl,hne⟩⟩
      · rw [if_pos (hmem.mpr hlis)]
        rfl
      · rw [filter_ne (hwf.linked r hr).nodup]
        exact LinkedQueue.unlink_addrs r.acceptQueue p.addr
    rw [if_neg hlis]
    refine ⟨rfl,rfl,rfl,?_,?_,fun l hrl => ⟨hrl,hne⟩⟩
    · rw [if_neg fun hm => hlis (hmem.mp hm)]
      simp
    refine (filter_eq_self.mpr fun y hy => ?_).symm
    simp only [ne_eq,decide_not,Bool.not_eq_true',decide_eq_false_iff_not]
    rintro rfl
    exact hlis (hmem.mp (h.queue_sub hr hy))
  have hmem : ∀ r ∈ s.pcbs, r.addr ≠ p.addr →
      (if p.listener = some r.addr then dropChild p.addr r else r) ∈ t.pcbs := by
    intro r hr hne
    rw [ht]
    refine mem_filter.mpr ⟨mem_map_of_mem hr,?_⟩
    rw [(hleft r hr hne).addr]
    simpa using hne
  refine h.leave hwf.nodup (x := p.addr) (fun q hq => ?_) (fun c hc hcx r hr hcl hrs => ?_) ?_ hl hx
    fun q hq he => ?_
  · rw [ht] at hq
    obtain ⟨hm,hne⟩ := mem_filter.mp hq
    obtain ⟨r,hr,rfl⟩ := mem_map.mp hm
    have hra : (if p.listener = some r.addr then dropChild p.addr r else r).addr = r.addr := by
      split <;> rfl
    rw [hra] at hne
    exact ⟨r,hr,hleft r hr (by simpa using hne)⟩
  · have hne : r.addr ≠ p.addr := fun he => by
      obtain rfl := eq_of_addr hwf.nodup hr hp he
      exact hlast hrs c hc hcl
    exact ⟨_,hmem r hr hne,hleft r hr hne⟩
  · intro a
    rw [children,ht,childrenOf_filter,childrenOf_map fun q _ => by split <;> exact ⟨rfl,rfl⟩]
    rfl
  · rw [ht] at hq
    exact absurd he (by simpa using (mem_filter.mp hq).2)

theorem accepted (hwf : Wf s) {l c : Pcb} {rest : List (Nat × Unit)} {r : Ran} (hlm : l ∈ s.pcbs)
    (hc : c ∈ s.pcbs) (hs : l.state = .listen) (hnodes : l.acceptQueue.nodes = (c.addr,()) :: rest)
    (hlis : c.listener = some l.addr)
    (ht : t.pcbs = ((s.update l.addr takeChild).update c.addr acceptPcb).pcbs)
    (hlog : t.log = s.log ++ [.ran c.addr r]) : Listening t := by
  have hqueued : l.acceptQueue.addrs = c.addr :: rest.map Prod.fst := by
    rw [LinkedQueue.addrs,hnodes]
    rfl
  have hwait : c.state ≠ .synReceived := by
    obtain ⟨d,hd,hda,-,hds⟩ := hwf.queued l hlm c.addr (by rw [hqueued]; exact mem_cons_self)
    rwa [eq_of_addr hwf.nodup hd hc hda] at hds
  have htake : ∀ q ∈ s.pcbs, let q' := if q.addr = l.addr then takeChild q else q
      q'.pendingCount = q.pendingCount-(if c.addr ∈ s.children q.addr then 1 else 0) ∧
        q'.acceptQueue.addrs = q.acceptQueue.addrs.filter (· ≠ c.addr) := by
    intro q hq
    have hmem := addr_mem_children hwf.nodup hc q.addr
    by_cases ha : q.addr = l.addr
    · obtain rfl := eq_of_addr hwf.nodup hq hlm ha
      have hnd := (hwf.linked q hq).nodup
      rw [if_pos rfl,if_pos (hmem.mpr hlis)]
      refine ⟨rfl,?_⟩
      rw [filter_ne hnd,hqueued,erase_cons_head]
      simp [takeChild,LinkedQueue.pop,LinkedQueue.addrs,hnodes]
    have hnot : c.addr ∉ s.children q.addr := fun hm =>
      ha (Option.some.inj ((hmem.mp hm).symm.trans hlis))
    rw [if_neg ha,if_neg hnot]
    refine ⟨by simp,(filter_eq_self.mpr fun y hy => ?_).symm⟩
    simp only [ne_eq,decide_not,Bool.not_eq_true',decide_eq_false_iff_not]
    rintro rfl
    exact hnot (h.queue_sub hq hy)
  have hleft : ∀ q ∈ s.pcbs, Left s c.addr q (let q' := if q.addr = l.addr then takeChild q else q
        if q'.addr = c.addr then acceptPcb q' else q') := by
    intro q hq
    have hctl := ((takeChild_backlogOnly q).ite (q.addr = l.addr)).control
    have hback : (if q.addr = l.addr then takeChild q else q).backlog = q.backlog := by
      split <;> rfl
    obtain ⟨hcount,hqu⟩ := htake q hq
    dsimp only at hcount hqu ⊢
    generalize (if q.addr = l.addr then takeChild q else q) = q' at hctl hback hcount hqu
    have hqa : q'.addr = q.addr := by rw [hctl]
    have hqs : q'.state = q.state := by rw [hctl]
    split
    · exact ⟨hqa,hqs,hback,hcount,hqu,by simp [acceptPcb]⟩
    · exact ⟨hqa,hqs,hback,hcount,hqu, fun l' hl' => ⟨by rwa [hctl] at hl',by rwa [← hqa]⟩⟩
  have hmap : t.pcbs = s.pcbs.map fun q =>
      (let q' := if q.addr = l.addr then takeChild q else q
        if q'.addr = c.addr then acceptPcb q' else q') := by
    rw [ht,update,update,map_map]
    rfl
  refine h.leave hwf.nodup (x := c.addr) ?_ (fun _ _ _ q hq _ _ => ?_) (fun a => ?_) hlog (by simp [Entry.addr]) ?_
  · rw [hmap]
    exact forall_mem_map.mpr fun q hq => ⟨q,hq,hleft q hq⟩
  · rw [hmap]
    exact ⟨_,mem_map_of_mem hq,hleft q hq⟩
  · rw [children,ht,update,childrenOf_accept,update,
      childrenOf_map fun q _ => by split <;> exact ⟨rfl,rfl⟩]
    rfl
  rw [hmap]
  refine forall_mem_map.mpr fun q hq hqa => ?_
  rw [(hleft q hq).state]
  rw [(hleft q hq).addr] at hqa
  rw [eq_of_addr hwf.nodup hq hc hqa]
  exact hwait

end

section
variable (h : Listening s) (hwf : Wf s) {op : Op} (hp : p ∈ s.pcbs) (hen : op.Enabled p)
  (hna : op ≠ .accept) (hf : (op.run s.io p).freed = false)
include h hwf hp hen hna hf

section
variable (hkeep : p.state = .listen → s.children p.addr ≠ [] → (op.run s.io p).pcb.state = .listen)
include hkeep

theorem operated {g : Pcb → Pcb} (ht : t.pcbs = (s.update p.addr fun _ => (op.run s.io p).pcb).pcbs.map g)
    (hg : ∀ q : Pcb, (g q).toControl = q.toControl ∧ (g q).backlog = q.backlog ∧ (g q).pendingCount = q.pendingCount)
    (hl : t.log = s.log ++ [.ran p.addr (op.ran s.io (op.run s.io p))])
    (hqueue : ∀ q ∈ s.pcbs, (g (if q.addr = p.addr then (op.run s.io p).pcb else q)).acceptQueue.addrs =
      (completions t.log).filter (· ∈ s.children q.addr)) :
    Listening t := by
  have haddr := (Op.run_fixed s.io p hen).1
  have hlis := (Op.run_fixed s.io p hen).2 hna
  have hpend := (Op.run_backlog s.io p op).2
  have hdone : completions t.log = if (op.run s.io p).completed then completions s.log ++ [p.addr]
      else completions s.log := by
    rw [hl,completions_concat]
    rfl
  have hother : ∀ c : Pcb, c.addr ≠ p.addr →
      (c.addr ∈ completions t.log ↔ c.addr ∈ completions s.log) := fun c hc => by
    rw [hl]
    exact mem_completions _ (by simpa [Entry.addr] using fun he => hc he.symm)
  refine h.of_map (g := fun q => g (if q.addr = p.addr then (op.run s.io p).pcb else q))
    (by rw [ht,update,map_map]; rfl) (fun q hq => ?_) (fun q hq hqs hch => ?_)
    (fun q hq hqs => ?_) hqueue (fun q hq hqs => ?_) fun q hq hql hqs => ?_
  · rw [(hg _).1,(hg _).2.2]
    split
    · rename_i ha
      obtain rfl := eq_of_addr hwf.nodup hq hp ha
      exact ⟨haddr,hlis,hpend⟩
    · exact ⟨rfl,rfl,rfl⟩
  · rw [(hg _).1]
    split
    · rename_i ha
      obtain rfl := eq_of_addr hwf.nodup hq hp ha
      exact hkeep hqs hch
    · exact hqs
  · rw [(hg _).1] at hqs
    rw [(hg _).2.1]
    split at hqs
    · rename_i ha
      obtain rfl := eq_of_addr hwf.nodup hq hp ha
      rw [if_pos rfl]
      rcases Op.run_listening s.io q hen hqs with ⟨hs,hb⟩ | ⟨hs,hb⟩
      · rw [hb]
        exact h.room q hq hs
      have hnone : s.children q.addr = [] := h.childless hwf.nodup hq (by rw [hs]; decide)
      rw [h.count q hq,hnone]
      exact le_trans (by decide) hb
    · rw [if_neg ‹_›]
      exact h.room q hq hqs
  · rw [(hg _).1] at hqs
    split at hqs
    · rename_i ha
      obtain rfl := eq_of_addr hwf.nodup hq hp ha
      obtain ⟨hs,hc⟩ := Op.run_synReceived s.io q hen hqs
      rw [hdone,hc]
      exact h.handshake q hq hs
    · rw [hother q ‹_›]
      exact h.handshake q hq hqs
  rw [(hg _).1] at hqs
  split at hqs
  · rename_i ha
    obtain rfl := eq_of_addr hwf.nodup hq hp ha
    rw [hdone]
    split
    · exact mem_append_right _ (mem_singleton_self _)
    rename_i hc
    refine h.complete q hq hql fun hs => ?_
    have hm := Op.run_moves s.io q op hen (Op.notSetup hen hna hql)
    rw [hf] at hm
    exact (hm.handshake hs hql).elim hc hqs
  · rw [hother q ‹_›]
    exact h.complete q hq hql hqs

theorem ran (hq : (op.run s.io p).completed = false ∨ p.listener = none)
    (ht : t.pcbs = (s.update p.addr fun _ => (op.run s.io p).pcb).pcbs)
    (hl : t.log = s.log ++ [.ran p.addr (op.ran s.io (op.run s.io p))]) : Listening t := by
  refine h.operated hwf hp hen hna hf hkeep (g := id) (by rw [map_id]; exact ht)
    (fun _ => ⟨rfl,rfl,rfl⟩) hl fun q hqm => ?_
  have hsame : (if q.addr = p.addr then (op.run s.io p).pcb else q).acceptQueue = q.acceptQueue :=
    (hwf.ran_map hp hen hna hf q hqm).2.2.1
  rw [id,hsame,h.queue q hqm,hl]
  rcases hq with hc | hnone
  · rw [completions_concat]
    simp [Op.ran,hc]
  refine (completions_filter _ fun e he => ?_).symm
  rw [mem_singleton.mp he,decide_eq_false_iff_not]
  intro hm
  rw [(addr_mem_children hwf.nodup hp q.addr).mp hm] at hnone
  cases hnone

end

theorem completed {l : Nat} (hc : (op.run s.io p).completed = true) (hlis : p.listener = some l)
    (ht : t.pcbs = ((s.update p.addr fun _ => (op.run s.io p).pcb).update l (queueChild p.addr)).pcbs)
    (hl : t.log = s.log ++ [.ran p.addr (op.ran s.io (op.run s.io p))]) : Listening t := by
  have hsyn : p.state = .synReceived := by
    have hm := Op.run_moves s.io p op hen (Op.notSetup hen hna (by rw [hlis]; rfl))
    rw [hc] at hm
    exact hm.completed
  refine h.operated hwf hp hen hna hf (fun hs => ?_) ht (fun q => ?_) hl fun q hqm => ?_
  · rw [hsyn] at hs
    cases hs
  · split <;> exact ⟨rfl,rfl,rfl⟩
  obtain ⟨hqa,-,hsame,-⟩ := hwf.ran_map hp hen hna hf q hqm
  have hmem := addr_mem_children hwf.nodup hp q.addr
  have hrc : (op.ran s.io (op.run s.io p)).completed = true := hc
  rw [hl,completions_concat]
  simp only [hrc,if_true,filter_append]
  rw [← h.queue q hqm]
  by_cases ha : q.addr = l
  · have hin : p.addr ∈ s.children q.addr := hmem.mpr (by rw [hlis,ha])
    rw [if_pos (hqa.trans ha)]
    have hpush := (hwf.linked q hqm).push_addrs p.addr ()
    simp only [queueChild,wakeAccept,hsame,hpush]
    simp [hin]
  have hout : p.addr ∉ s.children q.addr := fun hm =>
    ha (Option.some.inj ((hmem.mp hm).symm.trans hlis))
  rw [if_neg (by rw [hqa]; exact ha),hsame]
  simp [hout]

end

end Listening

def ListenerKept (p : Pcb) (op : Op) : Prop :=
  ∀ now, op = .tick now → p.state = .listen → p.pendingCount ≠ 0 → expired p now = false

/-- Nothing but its deadline or its application ends a listener. -/
theorem Op.run_keeps_listening (io : Io) {p : Pcb} {op : Op} (hen : op.Enabled p)
    (hs : p.state = .listen) (hf : (op.run io p).freed = false)
    (ht : ∀ now, op = .tick now → expired p now = false) : (op.run io p).pcb.state = .listen := by
  cases op with
  | bind | connect => cases hs.symm.trans hen.2
  | listen backlog => simp [Op.run,listenPcb,hs,Outcome.return]
  | connectWait caller => rw [Op.run,(connectWait_waitersOnly io p caller).1.control,hs]
  | accept => exact hs
  | send data => rw [Op.run,(tcpSend_senderOnly io p data).1.control,hs]
  | recv caller len => rw [Op.run,(tcpRecv_cases io p caller len).2.1,hs]
  | close => simp [Op.run,closePcb,hs,Outcome.free] at hf
  | input seg => simp [Op.run,segmentArrives,hen.2.2.2 hs,rstInput,hs,Outcome.keep]
  | tick now =>
    rw [Op.run,(tickPcb_control io p now).2.2,ht now rfl]
    exact hs

theorem Change.listening {s t : Tcp} (hc : Change ListenerKept s t) (hwf : Wf s)
    (h : Listening s) : Listening t := by
  cases hc with
  | quiet extra ht hl hx =>
    exact h.of_same (g := id) (by rw [map_id]; exact ht) (fun _ _ => ⟨rfl,rfl⟩) hl hx
  | waiter a f hf ht hl =>
    have hlog : t.log = s.log ++ [] := by rw [hl,append_nil]
    refine h.of_same ht (fun p hp => ?_) hlog (by simp)
    split
    · exact ⟨(hf p hp ‹_›).control,(hf p hp ‹_›).backlog⟩
    · exact ⟨rfl,rfl⟩
  | @born a ha ht hl =>
    exact h.cons (p := Pcb.fresh a) hwf.nodup (g := id) (by rw [map_id]; exact ht) hl
      (fun q _ => ⟨rfl,rfl,rfl,by simp [Pcb.fresh,Pcb.zero]⟩) nofun ha nofun rfl rfl nofun
  | @child l a io iss seg ha _ hfind hs hroom _ ht hl =>
    have hso := sendSegment_senderOnly io (synChild io.ticks a l.addr iss seg) (tcpSyn ||| tcpAck)
      [] false
    have hctl := hso.control
    have hback := hso.backlog
    generalize (sendSegment io (synChild io.ticks a l.addr iss seg) (tcpSyn ||| tcpAck) [] false).pcb
      = c at ht hctl hback
    have hca : c.addr = a := by rw [hctl]; rfl
    have hcl : c.listener = some l.addr := by rw [hctl]; rfl
    have hcs : c.state = .synReceived := by rw [hctl]; rfl
    refine h.cons hwf.nodup ht (by rw [hca]; exact hl) (fun q _ => ?_) (fun l' hl' => ?_)
      (by rw [hca]; exact ha) (by rw [hcs]; decide) (congrArg Backlog.pendingCount hback)
      (congrArg Backlog.acceptQueue hback) fun _ => hcs
    · rw [hcl]
      by_cases hq : q.addr = l.addr
      · rw [if_pos hq,if_pos (by rw [hq])]
        exact ⟨rfl,rfl,rfl,rfl⟩
      · rw [if_neg hq,if_neg fun he => hq (Option.some.inj he).symm]
        exact ⟨rfl,rfl,rfl,by simp⟩
    · rw [hcl] at hl'
      exact ⟨l,(findPcb_mem hfind).1,Option.some.inj hl',hs,hroom⟩
  | @ran p op hp hen hok hna hf hq ht hl =>
    refine h.ran hwf hp hen hna hf (fun hs hch => ?_) hq ht hl
    refine Op.run_keeps_listening s.io hen hs hf fun now he => hok now he hs ?_
    rw [h.count p hp]
    simpa using hch
  | completed hp hen _ hna hf hc hlis ht hl => exact h.completed hwf hp hen hna hf hc hlis ht hl
  | freed extra hp hlast ht hl hx => exact h.freed hwf hp hlast ht hl hx
  | accepted hlm hc _ hs hn hlis ht hlog => exact h.accepted hwf hlm hc hs hn hlis ht hlog

theorem Changes.listening {s t : Tcp} (hc : Changes ListenerKept s t) (hwf : Wf s)
    (h : Listening s) : Listening t := by
  induction hc with
  | refl => exact h
  | tail hfirst hlast ih => exact hlast.listening (Changes.wf hfirst hwf) ih

theorem Idle.expired {p : Pcb} (h : Idle p) {now : Nat} (hd : p.expires = 0 ∨ now < p.expires) :
    expired p now = false := by
  simp only [Net.expired,retryDue,persisting,h.unacked,h.persist,LinkedQueue.empty]
  rcases hd with hd | hd
  · simp [hd]
  · simp [Nat.not_le.mpr hd]

namespace Tcp
variable {s : Tcp}

def DeadlinesAhead (s : Tcp) (now : Nat) : Prop :=
  ∀ p ∈ s.pcbs, p.state = .listen → s.children p.addr ≠ [] → p.expires = 0 ∨ now < p.expires

instance (s : Tcp) (now : Nat) : Decidable (s.DeadlinesAhead now) :=
  inferInstanceAs (Decidable (∀ p ∈ s.pcbs, p.state = .listen → s.children p.addr ≠ [] →
    p.expires = 0 ∨ now < p.expires))

theorem tickAt_origin (now a : Nat) {q : Pcb} (hq : q ∈ (tickAt now s a).pcbs) :
    ∃ r ∈ s.pcbs, r.addr = q.addr ∧ r.listener = q.listener ∧
      (q.state = .listen → r.state = .listen ∧ r.expires = q.expires) := by
  obtain ⟨r,hr,h | ⟨h,-⟩⟩ := tickAt_control now a hq
  · rw [h]
    exact ⟨r,hr,rfl,rfl,fun hs => ⟨hs,rfl⟩⟩
  · rw [h]
    exact ⟨r,hr,rfl,rfl,nofun⟩

theorem tickAt_deadlinesAhead {now : Nat} (h : s.DeadlinesAhead now) (a : Nat) :
    (tickAt now s a).DeadlinesAhead now := by
  intro q hq hqs hch
  obtain ⟨r,hr,hra,-,hlist⟩ := tickAt_origin now a hq
  obtain ⟨hrs,hre⟩ := hlist hqs
  rw [← hre]
  refine h r hr hrs ?_
  obtain ⟨x,hx⟩ := exists_mem_of_ne_nil _ hch
  obtain ⟨c,hc,hcl,-⟩ := mem_children.mp hx
  obtain ⟨d,hd,-,hdl,-⟩ := tickAt_origin now a hc
  exact ne_nil_of_mem (mem_children.mpr ⟨d,hd,by rw [hdl,hcl,hra],rfl⟩)

theorem listenerKept_tick {now : Nat} (h : Listening s) (hsend : s.All fun p h => SendOk p h.sent)
    (hk : s.DeadlinesAhead now) : ∀ p ∈ s.pcbs, ListenerKept p (.tick now) := by
  intro p hm now' he hs hpend
  cases he
  have hch : s.children p.addr ≠ [] := fun hn => hpend (by rw [h.count p hm,hn]; rfl)
  cases hsend p hm with
  | live hl => simp [hs,TcpState.isLive] at hl
  | idle _ hi => exact hi.expired (hk p hm hs hch)

theorem tcpTick_listening {now : Nat} (as : List Nat) (hwf : Wf s) (h : Listening s)
    (hsend : s.All fun p h => SendOk p h.sent) (hk : s.DeadlinesAhead now) :
    Listening (as.foldl (tickAt now) s) := by
  induction as generalizing s with
  | nil => exact h
  | cons a as ih =>
    have hc := tickAt_changes hwf now a (listenerKept_tick h hsend hk)
    exact ih (hc.wf hwf) (hc.listening hwf h)
      (sendOk_invariant.changes hwf (hc.mono fun _ _ _ => trivial) hsend)
      (tickAt_deadlinesAhead hk a)

def Call.tickTime : Call → Option Nat
  | .tick now => some now
  | _ => none

/-- The timer is not run while a listener with connections is past its deadline. -/
def KeepsListeners (s : Tcp) (e : Event) : Prop := ∀ now ∈ e.call.tickTime, s.DeadlinesAhead now

instance (s : Tcp) (e : Event) : Decidable (s.KeepsListeners e) :=
  inferInstanceAs (Decidable (∀ now ∈ e.call.tickTime, s.DeadlinesAhead now))

theorem mayRun_listenerKept {e : Event} {p : Pcb} {op : Op} (hm : s.mayRun e p op)
    (ht : e.call.tickTime = none) : ListenerKept p op := by
  rintro now rfl
  unfold mayRun at hm
  cases hcall : e.call with
  | tick t => simp [hcall,Call.tickTime] at ht
  | _ => simp [hcall,Op.isConnect] at hm

theorem step_listening (hwf : Wf s) (h : Listening s) (hsend : s.All fun p h => SendOk p h.sent)
    (e : Event) (hk : s.KeepsListeners e) : Listening (s.step e) := by
  cases ht : e.call.tickTime with
  | none => exact ((step_changes hwf e).mono fun _ _ hm => mayRun_listenerKept hm ht).listening hwf h
  | some now =>
    have hcall : e.call = .tick now := by
      cases hc : e.call <;> simp_all [Call.tickTime]
    have hstep : s.step e = (s.enter e).tcpTick now := by simp only [step,dispatch,hcall]
    rw [hstep]
    exact tcpTick_listening (s := s.enter e) _ ⟨hwf.nodup,hwf.control,hwf.linked,hwf.queued⟩
      ⟨h.pointer,h.count,h.room,h.queue,h.handshake,h.complete⟩ hsend (hk now ht)

theorem run_listening (es : List Event) (hok : machine.Along KeepsListeners .init es) :
    Listening (machine.run es) := by
  have hstep : ∀ s e, (Wf s ∧ Listening s ∧ s.All fun p h => SendOk p h.sent) → s.KeepsListeners e →
      Wf (step s e) ∧ Listening (step s e) ∧ (step s e).All fun p h => SendOk p h.sent := by
    rintro s e ⟨hwf,h,hsend⟩ hk
    exact ⟨step_wf hwf e,step_listening hwf h hsend e hk,sendOk_invariant.changes hwf
      ((step_changes hwf e).mono fun _ _ _ => trivial) hsend⟩
  have hinit : Wf init ∧ Listening init ∧ init.All fun p h => SendOk p h.sent :=
    ⟨init_wf,by constructor <;> simp [init],by simp [All,init]⟩
  exact (machine.runFrom_invariant KeepsListeners hstep hinit es hok).2.1

end Tcp

/-- As long as the timer is not run while a listener with connections is past a deadline, a listener counts its
connections, has as many as its backlog allows at most, and queues the completed ones in their order. -/
theorem listener_accounting (es : List Tcp.Event) (hok : machine.Along Tcp.KeepsListeners .init es) :
    let s := machine.run es
    (∀ p ∈ s.pcbs, p.state = .listen →
      p.pendingCount = (s.children p.addr).length ∧ p.pendingCount ≤ p.backlog ∧
      p.acceptQueue.Linked ∧
      p.acceptQueue.addrs = (completions s.log).filter (· ∈ s.children p.addr) ∧
      ∀ c ∈ s.pcbs, c.listener = some p.addr → (c.addr ∈ p.acceptQueue.addrs ↔ c.state ≠ .synReceived)) ∧
    ∀ c ∈ s.pcbs, ∀ l, c.listener = some l → l ∈ s.addrs := by
  intro s
  have h : Listening s := run_listening es hok
  have hwf : Wf s := run_wf es
  refine ⟨fun p hp hs => ⟨h.count p hp,h.room p hp hs,hwf.linked p hp,h.queue p hp,
    fun c hc hl => ?_⟩,fun c hc l hl => ?_⟩
  · rw [h.queue p hp]
    constructor
    · intro hm hn
      exact h.handshake c hc hn (mem_of_mem_filter hm)
    intro hn
    refine mem_filter.mpr ⟨h.complete c hc (by rw [hl]; rfl) hn,?_⟩
    simpa using mem_children.mpr ⟨c,hc,hl,rfl⟩
  · obtain ⟨p,hp,ha,-⟩ := h.pointer c hc l hl
    exact ha ▸ mem_addrs hp

/-- The timer runs before the connection is accepted. -/
def Tcp.servedTick : List Tcp.Event := served.take 5 ++ [⟨6,[],⟨none,none⟩,0,.tick 6⟩]

theorem listener_accounting_served : machine.Along Tcp.KeepsListeners .init servedTick ∧
    (machine.run servedTick).children 1 = [3] ∧
    ∃ p ∈ (machine.run servedTick).pcbs, p.state = .listen ∧ p.addr = 1 ∧ p.pendingCount = 1 ∧
      p.acceptQueue.addrs = (completions (machine.run servedTick).log).filter (· ∈ [3]) := by
  have hok : machine.Along Tcp.KeepsListeners .init servedTick := by decide +kernel
  have hchildren : (machine.run servedTick).children 1 = [3] := by decide +kernel
  have hrun : ∃ p ∈ (machine.run servedTick).pcbs, p.state = .listen ∧ p.addr = 1 := by decide +kernel
  obtain ⟨p,hp,hs,ha⟩ := hrun
  obtain ⟨hcount,-,-,hqueue,-⟩ := (listener_accounting servedTick hok).1 p hp hs
  rw [ha,hchildren] at hcount hqueue
  exact ⟨hok,hchildren,p,hp,hs,ha,hcount,hqueue⟩

/-- A PCB fails to connect and then listens with the deadline of that attempt. A
connection arrives, the timer closes the listener, and the application closes it. -/
def Tcp.orphaned : List Tcp.Event :=
  [⟨0,[some 1,some 2],⟨none,none⟩,0,.new⟩, ⟨1,[],⟨none,none⟩,1,.bind 0 80⟩,
    ⟨2,[],⟨none,some 0x0A000002⟩,1,.connect 0x0A000001 80⟩,
    ⟨3,[],⟨none,none⟩,1,.listen 4⟩,
    arrival 4 [some 3,some 4,some 5,some 6] (fromClient 100 0 tcpSyn []),
    ⟨15002,[],⟨none,none⟩,0,.tick 15002⟩,
    ⟨15003,[],⟨none,none⟩,1,.close⟩]

theorem orphaned_dangling : ¬ ∀ c ∈ (machine.run orphaned).pcbs, ∀ l ∈ c.listener,
      l ∈ (machine.run orphaned).addrs := by
  decide +kernel

end Rucux.Net
